import MicroJava.Proofs.Encoding
import MicroJava.Proofs.MethodCode

/-!
# Reading is the inverse of writing object files

* `Image.ofBytes_eq_ok_iff`: a file is read as an image exactly if it is what is written for the image,
  the header can hold the size of the code, and execution begins in the code or nowhere.
* `Image.explains_of_ofBytes`: a file that is not read is refused for the first cause that there is, and
  the cause tells the size or the word that it is about.
* `Compiled.entry_lt_size`: in whatever program, execution begins in the code or nowhere, so every image
  of a compilation is read back as it was written (`Image.ofBytes_inverts_toBytes`).
-/

namespace MicroJava

namespace Image

/-- The size of the code fits into the header, and execution begins in the code, or nowhere. -/
structure Storable (i : Image) : Prop where
  size : i.code.size < 2147483648
  entry : i.entry.toInt < i.code.size

/-! ### Words of a header -/

theorem length_take_drop {bs : Bytes} {n : Nat} (h : n + 4 ≤ bs.length) :
    ((bs.drop n).take 4).length = 4 := by
  rw [List.length_take, List.length_drop]
  omega

theorem isWord_wordAt {bs : Bytes} {n : Nat} (h : n + 4 ≤ bs.length) : IsWord (wordAt bs n) := by
  have hbmod : wordAt bs n = (BigEndian.natValue ((bs.drop n).take 4) : Int).bmod 4294967296 := by
    rw [wordAt, BigEndian.intValue, length_take_drop h]
    rfl
  rw [IsWord, hbmod]
  exact Int.bmod_bmod

/-- A word is kept in an integer of 32 bits. -/
theorem toInt_ofInt {x : Int} (h : IsWord x) : (Int32.ofInt x).toInt = x :=
  Int32.toInt_ofInt.trans h

theorem isWord_toInt (x : Int32) : IsWord x.toInt := by
  rw [isWord_iff]
  exact ⟨x.le_toInt, Int.le_of_lt_add_one x.toInt_lt⟩

/-- The bytes of a word are those at its offset. -/
theorem bytes_wordAt {bs : Bytes} {n : Nat} (h : n + 4 ≤ bs.length) :
    BigEndian.bytes 4 (wordAt bs n) = (bs.drop n).take 4 := by
  have hbytes := BigEndian.bytes_intValue ((bs.drop n).take 4)
  rwa [length_take_drop h] at hbytes

/-- A word is read where its bytes were written. -/
theorem wordAt_append {front back : Bytes} {x : Int} {n : Nat} (hn : front.length = n) (hx : IsWord x) :
    wordAt (front ++ BigEndian.bytes 4 x ++ back) n = x := by
  obtain ⟨low, high⟩ := isWord_iff.1 hx
  have hrange : BigEndian.range 4 = 4294967296 := rfl
  rw [wordAt, List.append_assoc, List.drop_left' hn, List.take_left' (BigEndian.length_bytes 4 x)]
  exact BigEndian.intValue_bytes (by omega) (by omega)

theorem wordAt_append_left {front : Bytes} {n : Nat} (h : n + 4 ≤ front.length) (back : Bytes) :
    wordAt (front ++ back) n = wordAt front n := by
  have hlength : 4 ≤ (front.drop n).length := by
    rw [List.length_drop]
    omega
  rw [wordAt, List.drop_append_of_le_length (by omega), List.take_append_of_le_length hlength, wordAt]

/-! ### Headers -/

/-- The header of a file with these words. -/
def header (codeSize dataSize entry : Int) : Bytes :=
  magic ++ BigEndian.bytes 4 codeSize ++ BigEndian.bytes 4 dataSize ++ BigEndian.bytes 4 entry

theorem toBytes_eq (i : Image) :
    i.toBytes = header i.code.size i.dataSize.toInt i.entry.toInt ++ i.code.toList := rfl

theorem length_header (codeSize dataSize entry : Int) :
    (header codeSize dataSize entry).length = headerSize := by
  simp [header, magic, headerSize]

theorem take_header (codeSize dataSize entry : Int) :
    (header codeSize dataSize entry).take 2 = magic := by
  simp [header, magic]

section

variable {codeSize dataSize entry : Int}

theorem wordAt_header_codeSize (h : IsWord codeSize) :
    wordAt (header codeSize dataSize entry) 2 = codeSize := by
  rw [header, List.append_assoc]
  exact wordAt_append rfl h

theorem wordAt_header_dataSize (h : IsWord dataSize) :
    wordAt (header codeSize dataSize entry) 6 = dataSize := by
  rw [header]
  exact wordAt_append (by simp [magic]) h

theorem wordAt_header_entry (h : IsWord entry) :
    wordAt (header codeSize dataSize entry) 10 = entry := by
  rw [header, ← List.append_nil (_ ++ BigEndian.bytes 4 entry)]
  exact wordAt_append (by simp [magic]) h

/-- A header is known from its letters and words. -/
theorem header_wordAt {bs : Bytes} (hlength : bs.length = headerSize) (hmagic : bs.take 2 = magic) :
    header (wordAt bs 2) (wordAt bs 6) (wordAt bs 10) = bs := by
  have hsize : bs.length = 14 := hlength
  have hword (n : Nat) : (bs.drop n).take 4 ++ bs.drop (n + 4) = bs.drop n := by
    rw [← List.drop_drop, List.take_append_drop]
  have hend : bs.drop 14 = [] := List.drop_eq_nil_of_le hsize.le
  rw [header, bytes_wordAt (by omega), bytes_wordAt (by omega), bytes_wordAt (by omega), ← hmagic,
    ← List.append_nil (_ ++ (bs.drop 10).take 4), ← hend, List.append_assoc, hword 10, List.append_assoc,
    hword 6, List.append_assoc, hword 2, List.take_append_drop]

end

/-! ### Files -/

theorem ofBytes_append {front : Bytes} (h : front.length = headerSize) (code : Bytes) :
    ofBytes (front ++ code) =
      if front.take 2 ≠ magic then .error .missingMagic
      else if wordAt front 2 ≠ code.length then .error (.wrongCodeSize (wordAt front 2) code.length)
      else if wordAt front 2 ≤ wordAt front 10 then .error (.entryOutsideCode (wordAt front 10))
      else .ok ⟨Int32.ofInt (wordAt front 6), Int32.ofInt (wordAt front 10), code.toArray⟩ := by
  rw [ofBytes, ← h, Bytes.split?_append]

/-- A file is read as an image exactly if it is what is written for the image, and the image can be
stored. -/
theorem ofBytes_eq_ok_iff {bs : Bytes} {i : Image} :
    ofBytes bs = .ok i ↔ i.toBytes = bs ∧ i.Storable := by
  constructor
  · intro h
    cases hsplit : Bytes.split? headerSize bs with
    | none =>
        rw [ofBytes, hsplit] at h
        cases h
    | some parts =>
        obtain ⟨front, code⟩ := parts
        obtain ⟨rfl, hlength⟩ := Bytes.split?_eq_some_iff.1 hsplit
        have hfront : front.length = 14 := hlength
        rw [ofBytes_append hlength] at h
        split at h
        · cases h
        split at h
        · cases h
        split at h
        · cases h
        next hmagic hsize hentry =>
          obtain rfl := Except.ok.inj h
          have hcode : wordAt front 2 = code.toArray.size := not_not.1 hsize
          have hwords (n : Nat) (hn : n + 4 ≤ 14) : IsWord (wordAt front n) :=
            isWord_wordAt (hn.trans_eq hfront.symm)
          have hdata := toInt_ofInt (hwords 6 (by decide))
          have hstart := toInt_ofInt (hwords 10 (by decide))
          refine ⟨?_, ?_, ?_⟩
          · rw [toBytes_eq, ← hcode, hdata, hstart, header_wordAt hlength (not_not.1 hmagic)]
          · have hword := (isWord_iff.1 (hwords 2 (by decide))).2
            change code.toArray.size < 2147483648
            omega
          · change (Int32.ofInt (wordAt front 10)).toInt < code.toArray.size
            omega
  · rintro ⟨rfl, hsize, hentry⟩
    have hcode : IsWord i.code.size := isWord_iff.2 (by omega)
    rw [toBytes_eq, ofBytes_append (length_header _ _ _), take_header, wordAt_header_codeSize hcode,
      wordAt_header_dataSize (isWord_toInt _), wordAt_header_entry (isWord_toInt _), if_neg (by simp),
      if_neg (by simp), if_neg (by omega), Int32.ofInt_toInt, Int32.ofInt_toInt, Array.toArray_toList]

end Image

/-- The cause is the first one for which a file is refused, and it tells what the file has instead. -/
def ImageError.Explains (bs : Bytes) : ImageError → Prop
  | truncatedHeader size => bs.length = size ∧ size < headerSize
  | missingMagic => headerSize ≤ bs.length ∧ bs.take 2 ≠ Image.magic
  | wrongCodeSize announced found =>
      bs.length = headerSize + found ∧ bs.take 2 = Image.magic ∧ Image.wordAt bs 2 = announced ∧
        announced ≠ found
  | entryOutsideCode entry =>
      bs.take 2 = Image.magic ∧ bs.length = headerSize + Image.wordAt bs 2 ∧
        Image.wordAt bs 10 = entry ∧ Image.wordAt bs 2 ≤ entry
  | unknownOpcode _ _ | truncatedInstruction _ _ => False

namespace Image

/-- A file that is not read is refused for the first cause that there is. -/
theorem explains_of_ofBytes {bs : Bytes} {e : ImageError} (h : ofBytes bs = .error e) :
    e.Explains bs := by
  cases hsplit : Bytes.split? headerSize bs with
  | none =>
      rw [ofBytes, hsplit] at h
      obtain rfl := Except.error.inj h
      exact ⟨rfl, Bytes.split?_eq_none_iff.1 hsplit⟩
  | some parts =>
      obtain ⟨front, code⟩ := parts
      obtain ⟨rfl, hlength⟩ := Bytes.split?_eq_some_iff.1 hsplit
      have hfront : front.length = 14 := hlength
      have hsize : (front ++ code).length = headerSize + code.length := by
        rw [List.length_append, hlength]
      have htake : (front ++ code).take 2 = front.take 2 := List.take_append_of_le_length (by omega)
      rw [ofBytes_append hlength, ← wordAt_append_left (n := 2) (by omega) code,
        ← wordAt_append_left (n := 10) (by omega) code, ← htake] at h
      split at h
      · next hmagic =>
          obtain rfl := Except.error.inj h
          exact ⟨Nat.le.intro hsize.symm, hmagic⟩
      split at h
      · next hmagic hcode =>
          obtain rfl := Except.error.inj h
          exact ⟨hsize, not_not.1 hmagic, rfl, hcode⟩
      split at h
      · next hmagic hcode hentry =>
          obtain rfl := Except.error.inj h
          exact ⟨not_not.1 hmagic, by rw [hsize, not_not.1 hcode]; rfl, rfl, hentry⟩
      · cases h

end Image

/-! ### Images of compilations -/

/-- Execution of a program with few enough bytes begins in the code, or nowhere. -/
theorem Compiled.entry_lt_size {ms : List Tree.Member} {bs : List Body} {s : Compiler}
    (h : Compiled ms bs s) (hsize : s.code.code.size < 2147483648) :
    ((s.code.entry.map Int32.ofNat).getD (-1)).toInt < s.code.code.size := by
  rcases h.entry_eq hsize with ⟨-, hnone⟩ | ⟨b, hb, -, hstart⟩
  · rw [hnone]
    exact Int.lt_of_lt_of_le (by decide) (Int.natCast_nonneg _)
  · rw [hstart, h.info_entry hsize hb]
    exact Int.ofNat_lt.2 (h.entry_lt hb)

theorem TokenSource.storable_compile (source : TokenSource) (minDistance : Nat) :
    ∃ c, source.compile minDistance = .ok c ∧
      (c.image.code.size < 2147483648 → c.image.Storable) := by
  obtain ⟨bs, h, -⟩ := source.compiled_compiler
  exact ⟨_, source.compile_eq_ok minDistance, fun hsize => ⟨hsize, h.entry_lt_size hsize⟩⟩

namespace Image

/-- Reading an object file is the inverse of writing it, for all images that can be stored and all files
that are read; the others are refused for a cause that is true of them. Whatever program is compiled, its
image can be stored if its code is small enough. -/
theorem ofBytes_inverts_toBytes :
    (∀ i : Image, i.code.size < 2 ^ 31 → i.entry.toInt < i.code.size → ofBytes i.toBytes = .ok i) ∧
    (∀ bs, (∃ i : Image, ofBytes bs = .ok i ∧ i.toBytes = bs ∧ i.entry.toInt < i.code.size) ∨
      ∃ e, ofBytes bs = .error e ∧ e.Explains bs) ∧
    ∀ (source : TokenSource) (minDistance : Nat), ∃ c, source.compile minDistance = .ok c ∧
      (c.image.code.size < 2 ^ 31 → ofBytes c.image.toBytes = .ok c.image) := by
  refine ⟨fun i hsize hentry => ofBytes_eq_ok_iff.2 ⟨rfl, hsize, hentry⟩, fun bs => ?_,
    fun source minDistance => ?_⟩
  · cases h : ofBytes bs with
    | ok i =>
        obtain ⟨hbs, hstorable⟩ := ofBytes_eq_ok_iff.1 h
        exact .inl ⟨i, rfl, hbs, hstorable.entry⟩
    | error e => exact .inr ⟨e, rfl, explains_of_ofBytes h⟩
  · obtain ⟨c, hc, hstorable⟩ := source.storable_compile minDistance
    exact ⟨c, hc, fun hsize => ofBytes_eq_ok_iff.2 ⟨rfl, hstorable hsize⟩⟩

/-- A program with a fault, of which something is compiled. -/
def unknownName : TokenSource := .scan "program P \x7b void main() \x7b x = 1; \x7d \x7d"

/-- The image of a program with a fault is read back. Execution of no code begins nowhere, and not at its
end. -/
theorem ofBytes_inverts_toBytes_unknownName :
    (∃ c, unknownName.compile 3 = .ok c ∧ c.diagnostics.size = 1 ∧ c.image.entry = 0 ∧
      ofBytes c.image.toBytes = .ok c.image) ∧
    ofBytes (toBytes ⟨1, -1, #[]⟩) = .ok ⟨1, -1, #[]⟩ ∧
    ofBytes (toBytes ⟨1, 0, #[]⟩) = .error (.entryOutsideCode 0) := by
  refine ⟨?_, ofBytes_inverts_toBytes.1 _ (by decide) (by decide), by decide⟩
  obtain ⟨c, hc, hread⟩ := ofBytes_inverts_toBytes.2.2 unknownName 3
  have hsmall : (unknownName.compile 3).toOption.all (fun c => decide (c.diagnostics.size = 1 ∧
      c.image.entry = 0 ∧ c.image.code.size < 2 ^ 31)) = true := by
    decide +kernel
  rw [hc] at hsmall
  obtain ⟨hone, hentry, hsize⟩ : c.diagnostics.size = 1 ∧ c.image.entry = 0 ∧
      c.image.code.size < 2 ^ 31 := by
    simpa [Except.toOption] using hsmall
  exact ⟨c, hc, hone, hentry, hread hsize⟩

end Image

end MicroJava
