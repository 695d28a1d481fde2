import Mathlib.Algebra.Group.Nat.Defs
import MicroJava.DebugInfo

/-!
# Reading is the inverse of writing names

A reader takes bytes off the front (`Takes`): it needs all of them, looks at none behind them, and misses
each of them that is not there. Readers one after the other take what they take one after the other
(`Takes.bind`).

* `Varint.takes_encode`, `DebugInfo.takes_encode`: what was written for a number that fits, or for names, is
  taken as a whole.
* `Varint.exact_decode`, `DebugInfo.exact_read`: whatever else can be read is taken in the same way, be it
  written in the shortest form or not.
* `DebugInfo.decode_inverts_encode`: names are read back whatever follows them, and with fewer bytes their
  end is missed.
-/

namespace MicroJava

/-- The reader `r` takes the bytes `front` and yields `x`, and the failure `missing` tells that one of these
bytes is not there. -/
structure Takes {ε α : Type} (missing : ε) (r : Bytes → Except ε (α × Bytes)) (x : α) (front : Bytes) :
    Prop where
  reads (rest : Bytes) : r (front ++ rest) = .ok (x, rest)
  misses {bs : Bytes} (h : bs <+: front) (hne : bs ≠ front) : r bs = .error missing

/-- Whatever is read by `r` was taken off the front. -/
def Exact {ε α : Type} (missing : ε) (r : Bytes → Except ε (α × Bytes)) : Prop :=
  ∀ bs x rest, r bs = .ok (x, rest) → ∃ front, bs = front ++ rest ∧ Takes missing r x front

/-- A text has the bytes that are read as it. -/
theorem Bytes.fromUTF8?_eq_some_iff {bs : Bytes} {text : String} :
    String.fromUTF8? ⟨bs.toArray⟩ = some text ↔ text.toUTF8.data.toList = bs := by
  constructor
  · intro h
    obtain ⟨hvalid, htext⟩ := Option.dite_none_right_eq_some.1 h
    obtain rfl := Option.some.inj htext
    rfl
  · rintro rfl
    exact dif_pos text.isValidUTF8

/-! ### Numbers -/

namespace Varint

theorem encode_of_lt {n : Nat} (h : n < 128) : encode n = [UInt8.ofNat n] := by
  rw [encode, if_pos h]

theorem encode_of_le {n : Nat} (h : 128 ≤ n) :
    encode n = UInt8.ofNat (n % 128 + 128) :: encode (n / 128) := by
  rw [encode, if_neg (Nat.not_lt.2 h)]

theorem toNat_ofNat {n : Nat} (h : n < 256) : (UInt8.ofNat n).toNat = n :=
  UInt8.toNat_ofNat'.trans (Nat.mod_eq_of_lt h)

variable {size maxLast high : Nat} {b : UInt8} {front : Bytes}

/-- A number ends with a byte below 128, which is limited if it is the last one that there can be. -/
theorem takes_last (h : b.toNat < 128) (hlast : size = 0 → b.toNat ≤ maxLast) :
    Takes .endOfInput (decode (size + 1) maxLast) b.toNat [b] where
  reads rest := by
    have hfits : ¬ (size = 0 ∧ maxLast < b.toNat) := fun hb => Nat.not_lt.2 (hlast hb.1) hb.2
    rw [List.singleton_append, decode, if_pos h, if_neg hfits]
  misses hbs hne := by
    rcases List.prefix_cons_iff.1 hbs with rfl | ⟨bs, rfl, hnil⟩
    · rfl
    · exact absurd (congrArg (b :: ·) (List.prefix_nil.1 hnil)) hne

/-- A byte from 128 on is followed by the groups of higher bits. -/
theorem takes_more (h : 128 ≤ b.toNat) (hrest : Takes .endOfInput (decode size maxLast) high front) :
    Takes .endOfInput (decode (size + 1) maxLast) (b.toNat - 128 + 128 * high) (b :: front) where
  reads rest := by
    rw [List.cons_append, decode, if_neg (Nat.not_lt.2 h), hrest.reads]
  misses hbs hne := by
    rcases List.prefix_cons_iff.1 hbs with rfl | ⟨bs, rfl, hshort⟩
    · rfl
    · rw [decode, if_neg (Nat.not_lt.2 h), hrest.misses hshort fun heq => hne (congrArg (b :: ·) heq)]

/-- What was written for a number that fits is taken as a whole. -/
theorem takes_encode (hmax : maxLast < 128) {n : Nat} (h : n < (maxLast + 1) * 128 ^ size) :
    Takes .endOfInput (decode (size + 1) maxLast) n (encode n) := by
  induction size generalizing n with
  | zero =>
      rw [pow_zero, Nat.mul_one] at h
      have hb := toNat_ofNat (n := n) (by omega)
      have htakes : Takes .endOfInput (decode (0 + 1) maxLast) (UInt8.ofNat n).toNat [UInt8.ofNat n] :=
        takes_last (by omega) fun _ => by omega
      rwa [hb, ← encode_of_lt (by omega)] at htakes
  | succ size ih =>
      rcases Nat.lt_or_ge n 128 with hn | hn
      · have hb := toNat_ofNat (n := n) (by omega)
        have htakes : Takes .endOfInput (decode (size + 1 + 1) maxLast) (UInt8.ofNat n).toNat
            [UInt8.ofNat n] := takes_last (by omega) fun hsize => absurd hsize (Nat.succ_ne_zero size)
        rwa [hb, ← encode_of_lt hn] at htakes
      · have hhigh : n / 128 < (maxLast + 1) * 128 ^ size := by
          rw [Nat.div_lt_iff_lt_mul (by decide), Nat.mul_assoc, ← pow_succ]
          exact h
        have hb := toNat_ofNat (n := n % 128 + 128) (by omega)
        have htakes := takes_more (b := UInt8.ofNat (n % 128 + 128)) (by omega) (ih hhigh)
        rwa [hb, Nat.add_sub_cancel, Nat.mod_add_div, ← encode_of_le hn] at htakes

theorem exact_decode (size maxLast : Nat) : Exact .endOfInput (decode size maxLast) := by
  intro bs x rest h
  induction size generalizing bs x with
  | zero => cases h
  | succ size ih =>
      cases bs with
      | nil => cases h
      | cons b bs =>
          rw [decode] at h
          split at h
          · next hb =>
              split at h
              · cases h
              · next hlast =>
                  obtain ⟨rfl, rfl⟩ := Prod.mk.inj (Except.ok.inj h)
                  exact ⟨[b], rfl, takes_last hb fun hsize => Nat.not_lt.1 fun hlt => hlast ⟨hsize, hlt⟩⟩
          · next hb =>
              split at h
              · cases h
              · next high _ hhigh =>
                  obtain ⟨rfl, rfl⟩ := Prod.mk.inj (Except.ok.inj h)
                  obtain ⟨front, rfl, htakes⟩ := ih _ _ hhigh
                  exact ⟨b :: front, rfl, takes_more (Nat.not_lt.1 hb) htakes⟩

end Varint

namespace DebugInfo

/-- A number of bytes or of elements fits into a word of 64 bits. -/
def maxLength : Nat := 18446744073709551615

/-- A machine with words of 64 bits can hold the names: no text and no list is too long for its length to
be a word. -/
structure Storable (d : DebugInfo) : Prop where
  program : d.program.utf8ByteSize ≤ maxLength
  globals : d.globals.size ≤ maxLength ∧ ∀ name ∈ d.globals, name.utf8ByteSize ≤ maxLength
  methods : d.methods.size ≤ maxLength ∧ ∀ m ∈ d.methods, m.name.utf8ByteSize ≤ maxLength

/-! ### Readers -/

section Readers

variable {α β : Type} {r : Read α} {f : α → Read β} {x : α} {y : β} {front back : Bytes}

theorem bind_eq (r : Read α) (f : α → Read β) (bs : Bytes) :
    (r >>= f) bs = (r bs).bind fun (x, rest) => f x rest := rfl

theorem takes_pure (x : α) : Takes .endOfInput (pure x : Read α) x [] where
  reads _ := rfl
  misses h hne := absurd (List.prefix_nil.1 h) hne

theorem takes_bind (hr : Takes .endOfInput r x front) (hf : Takes .endOfInput (f x) y back) :
    Takes .endOfInput (r >>= f) y (front ++ back) where
  reads rest := by
    rw [bind_eq, List.append_assoc, hr.reads]
    exact hf.reads rest
  misses {bs} h hne := by
    rw [bind_eq]
    -- The bytes end behind what the first reader takes, or in it.
    by_cases hlong : front <+: bs
    · obtain ⟨mid, rfl⟩ := hlong
      rw [hr.reads]
      exact hf.misses ((List.prefix_append_right_inj front).1 h) fun heq => hne (congrArg (front ++ ·) heq)
    · have hshort : bs <+: front :=
        (List.prefix_or_prefix_of_prefix h (List.prefix_append front back)).resolve_right hlong
      rw [hr.misses hshort fun heq => hlong (heq ▸ List.prefix_rfl)]
      rfl

theorem exact_pure (x : α) : Exact .endOfInput (pure x : Read α) := by
  intro bs y rest h
  obtain ⟨rfl, rfl⟩ := Prod.mk.inj (Except.ok.inj h)
  exact ⟨[], rfl, takes_pure x⟩

theorem exact_throw (e : DebugInfoError) : Exact .endOfInput (throw e : Read α) := by
  intro bs x rest h
  cases h

theorem exact_bind (hr : Exact .endOfInput r) (hf : ∀ x, Exact .endOfInput (f x)) :
    Exact .endOfInput (r >>= f) := by
  intro bs y rest h
  rw [bind_eq] at h
  cases hx : r bs with
  | error e =>
      rw [hx] at h
      cases h
  | ok p =>
      obtain ⟨x, mid⟩ := p
      rw [hx] at h
      obtain ⟨front, rfl, hfront⟩ := hr _ _ _ hx
      obtain ⟨back, rfl, hback⟩ := hf x _ _ _ h
      exact ⟨front ++ back, (List.append_assoc ..).symm, takes_bind hfront hback⟩

end Readers

/-! ### Lengths and numbers -/

section Words

variable {front : Bytes}

theorem takes_readLength_of {n : Nat} (h : Takes .endOfInput Varint.decode64 n front) :
    Takes .endOfInput readLength n front where
  reads rest := by rw [readLength, h.reads]; rfl
  misses hbs hne := by rw [readLength, h.misses hbs hne]; rfl

theorem takes_readLength {n : Nat} (h : n ≤ maxLength) :
    Takes .endOfInput readLength n (Varint.encode n) :=
  takes_readLength_of (Varint.takes_encode (by decide) (Nat.lt_of_le_of_lt h (by decide)))

theorem exact_readLength : Exact .endOfInput readLength := by
  intro bs n rest h
  rw [readLength] at h
  cases hn : Varint.decode64 bs with
  | error e =>
      rw [hn] at h
      cases h
  | ok p =>
      rw [hn] at h
      obtain rfl := Except.ok.inj h
      obtain ⟨front, hbs, htakes⟩ := Varint.exact_decode 10 1 _ _ _ hn
      exact ⟨front, hbs, takes_readLength_of htakes⟩

theorem takes_readNumber_of {n : Nat} (h : Takes .endOfInput Varint.decode32 n front) :
    Takes .endOfInput readNumber (UInt32.ofNat n) front where
  reads rest := by rw [readNumber, h.reads]
  misses hbs hne := by rw [readNumber, h.misses hbs hne]; rfl

theorem takes_readNumber (n : UInt32) : Takes .endOfInput readNumber n (numberBytes n) := by
  have hencoded : Takes .endOfInput Varint.decode32 n.toNat (Varint.encode n.toNat) :=
    Varint.takes_encode (by decide) (Nat.lt_of_lt_of_le n.toNat_lt (by decide))
  have htakes := takes_readNumber_of hencoded
  rwa [UInt32.ofNat_toNat] at htakes

theorem exact_readNumber : Exact .endOfInput readNumber := by
  intro bs n rest h
  rw [readNumber] at h
  split at h
  · cases h
  · next n rest hn =>
      obtain ⟨rfl, rfl⟩ := Prod.mk.inj (Except.ok.inj h)
      obtain ⟨front, hbs, htakes⟩ := Varint.exact_decode 5 15 _ _ _ hn
      exact ⟨front, hbs, takes_readNumber_of htakes⟩

end Words

/-! ### Texts -/

theorem takes_readBytes (content : Bytes) :
    Takes .endOfInput (readBytes content.length) content content where
  reads rest := by rw [readBytes, Bytes.split?_append]
  misses {bs} h hne := by
    have hlength : bs.length ≠ content.length := fun heq => hne (h.eq_of_length heq)
    have hnone : Bytes.split? content.length bs = none := by
      rw [Bytes.split?, List.take_of_length_le h.length_le, if_neg hlength]
    rw [readBytes, hnone]

theorem exact_readBytes (n : Nat) : Exact .endOfInput (readBytes n) := by
  intro bs content rest h
  rw [readBytes] at h
  split at h
  · cases h
  · next hsplit =>
      obtain rfl := Except.ok.inj h
      obtain ⟨rfl, rfl⟩ := Bytes.split?_eq_some_iff.1 hsplit
      exact ⟨content, rfl, takes_readBytes content⟩

theorem takes_readText {s : String} (h : s.utf8ByteSize ≤ maxLength) :
    Takes .endOfInput readText s (textBytes s) := by
  have hbytes : textBytes s = Varint.encode s.toUTF8.data.toList.length ++ (s.toUTF8.data.toList ++ []) := by
    rw [List.append_nil, textBytes]
  rw [hbytes]
  refine takes_bind (takes_readLength h) (takes_bind (takes_readBytes _) ?_)
  rw [Bytes.fromUTF8?_eq_some_iff.2 rfl]
  exact takes_pure s

theorem exact_readText : Exact .endOfInput readText := by
  refine exact_bind exact_readLength fun n => exact_bind (exact_readBytes n) fun content => ?_
  split
  · exact exact_throw _
  · exact exact_pure _

/-! ### Lists -/

section Lists

variable {α : Type} {item : Read α} {bytes : α → Bytes}

theorem takes_readItems {xs : List α} (h : ∀ x ∈ xs, Takes .endOfInput item x (bytes x)) (acc : Array α) :
    Takes .endOfInput (readItems item xs.length acc) (acc ++ xs.toArray) (xs.flatMap bytes) := by
  induction xs generalizing acc with
  | nil => exact takes_pure acc
  | cons x xs ih =>
      have hrest := ih (fun y hy => h y (List.mem_cons_of_mem x hy)) (acc.push x)
      rw [List.push_append_toArray] at hrest
      exact takes_bind (h x List.mem_cons_self) hrest

theorem exact_readItems (h : Exact .endOfInput item) (n : Nat) (acc : Array α) :
    Exact .endOfInput (readItems item n acc) := by
  induction n generalizing acc with
  | zero => exact exact_pure acc
  | succ n ih => exact exact_bind h fun x => ih (acc.push x)

theorem takes_readList {xs : Array α} (hsize : xs.size ≤ maxLength)
    (h : ∀ x ∈ xs, Takes .endOfInput item x (bytes x)) :
    Takes .endOfInput (readList item) xs (listBytes bytes xs.toList) := by
  have hmem : ∀ x ∈ xs.toList, Takes .endOfInput item x (bytes x) := fun x hx =>
    h x (Array.mem_toList_iff.1 hx)
  have hitems := takes_readItems hmem #[]
  rw [Array.toArray_toList, Array.empty_append] at hitems
  exact takes_bind (takes_readLength hsize) hitems

theorem exact_readList (h : Exact .endOfInput item) : Exact .endOfInput (readList item) :=
  exact_bind exact_readLength fun n => exact_readItems h n #[]

end Lists

/-! ### Names -/

theorem takes_readMethod {m : MethodInfo} (h : m.name.utf8ByteSize ≤ maxLength) :
    Takes .endOfInput readMethod m (methodBytes m) := by
  have hbytes : methodBytes m = textBytes m.name ++ (numberBytes m.entry ++
      (numberBytes m.parameterCount ++ (numberBytes m.localCount ++ []))) := by
    simp [methodBytes]
  rw [hbytes]
  exact takes_bind (takes_readText h) (takes_bind (takes_readNumber m.entry)
    (takes_bind (takes_readNumber m.parameterCount) (takes_bind (takes_readNumber m.localCount)
      (takes_pure m))))

theorem exact_readMethod : Exact .endOfInput readMethod :=
  exact_bind exact_readText fun _ => exact_bind exact_readNumber fun _ =>
    exact_bind exact_readNumber fun _ => exact_bind exact_readNumber fun _ => exact_pure _

/-- What was written for names is taken as a whole. -/
theorem takes_encode {d : DebugInfo} (h : d.Storable) : Takes .endOfInput read d d.encode := by
  have hbytes : d.encode = textBytes d.program ++ (listBytes textBytes d.globals.toList ++
      (listBytes methodBytes d.methods.toList ++ [])) := by
    simp [encode]
  rw [hbytes]
  exact takes_bind (takes_readText h.program) (takes_bind
    (takes_readList h.globals.1 fun name hname => takes_readText (h.globals.2 name hname))
    (takes_bind (takes_readList h.methods.1 fun m hm => takes_readMethod (h.methods.2 m hm))
      (takes_pure d)))

theorem exact_read : Exact .endOfInput read :=
  exact_bind exact_readText fun _ => exact_bind (exact_readList exact_readText) fun _ =>
    exact_bind (exact_readList exact_readMethod) fun _ => exact_pure _

/-! ### Files with names -/

/-- The file that begins with `front` keeps the names `d`, whatever follows, and `front` is needed as a
whole. -/
structure KeptIn (d : DebugInfo) (front : Bytes) : Prop where
  decodes (rest : Bytes) : decode (front ++ rest) = .ok d
  misses {bs : Bytes} (h : bs <+: front) (hne : bs ≠ front) : decode bs = .error .endOfInput

theorem keptIn_of_takes {d : DebugInfo} {front : Bytes} (h : Takes .endOfInput read d front) :
    d.KeptIn front where
  decodes rest := by rw [decode, h.reads]; rfl
  misses hbs hne := by rw [decode, h.misses hbs hne]; rfl

theorem keptIn_encode {d : DebugInfo} (h : d.Storable) : d.KeptIn d.encode :=
  keptIn_of_takes (takes_encode h)

/-- Names that a machine can hold are read back from what is written for them, whatever bytes follow, and if
bytes are missing at the end this is noticed. Whatever the bytes are, either names are read from bytes at the
front in the same way, or reading fails. -/
theorem decode_inverts_encode :
    (∀ d : DebugInfo, d.Storable → (∀ rest, decode (d.encode ++ rest) = .ok d) ∧
      ∀ bs, bs <+: d.encode → bs ≠ d.encode → decode bs = .error .endOfInput) ∧
    ∀ bs, (∃ d front rest, bs = front ++ rest ∧ decode bs = .ok d ∧ d.KeptIn front) ∨
      ∃ e, decode bs = .error e := by
  refine ⟨fun d hd => ?_, fun bs => ?_⟩
  · exact ⟨(keptIn_encode hd).decodes, fun bs => (keptIn_encode hd).misses⟩
  · cases h : read bs with
    | error e => exact .inr ⟨e, by rw [decode, h]; rfl⟩
    | ok p =>
        obtain ⟨d, rest⟩ := p
        obtain ⟨front, rfl, htakes⟩ := exact_read _ _ _ h
        have hkept := keptIn_of_takes htakes
        exact .inl ⟨d, front, rest, rfl, hkept.decodes rest, hkept⟩

/-- Names with a text that is not in ASCII and an entry whose number takes two bytes. -/
def sumNames : DebugInfo where
  program := "P"
  globals := #["σ"]
  methods := #[⟨"main", 300, 0, 2⟩]

/-- A text behind the names does no harm. If it is cut off behind the first byte of the entry, or in the
middle of a character, the end is missed. A length in a longer form than needed is read as well, and the
first byte of a character is no text. -/
theorem decode_inverts_encode_sumNames :
    sumNames.Storable ∧ decode (sumNames.encode ++ [0x6D]) = .ok sumNames ∧
    sumNames.encode.take 13 <+: sumNames.encode ∧ sumNames.encode.take 13 ≠ sumNames.encode ∧
    decode (sumNames.encode.take 13) = .error .endOfInput ∧
    decode [0x80, 0, 0, 0] = .ok {} ∧ decode [1, 0xCF] = .error .invalidText := by
  have hstorable : sumNames.Storable := ⟨by decide, by decide, by decide⟩
  obtain ⟨hdecode, hcut⟩ := decode_inverts_encode.1 sumNames hstorable
  have hprefix := List.take_prefix 13 sumNames.encode
  have hne : sumNames.encode.take 13 ≠ sumNames.encode := by decide +kernel
  exact ⟨hstorable, hdecode _, hprefix, hne, hcut _ hprefix hne, rfl, rfl⟩

end DebugInfo

end MicroJava
