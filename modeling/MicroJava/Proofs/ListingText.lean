import MicroJava.Proofs.Encoding
import MicroJava.Proofs.Listings

/-!
# A listing shows the whole image

A number is read back from its digits, also from those with zeros in front, and an operation from its name. A
line ends at its line feed, and inside a line the address, the name and the operands end where the next blank
or comma stands. So each line of an instruction tells its address, its operation and its operands
(`Listing.row_injective`), and all lines together tell the image (`Listing.ofImage_lossless`).
-/

namespace MicroJava

/-! ### Numbers in a text -/

theorem List.eq_of_append_cons {α : Type} {a : α} {as as' bs bs' : List α} (h : a ∉ as) (h' : a ∉ as')
    (heq : as ++ a :: bs = as' ++ a :: bs') : as = as' ∧ bs = bs' := by
  induction as generalizing as' with
  | nil =>
      cases as' with
      | nil => exact ⟨rfl, (List.cons.inj heq).2⟩
      | cons b as' => exact absurd (by simp [(List.cons.inj heq).1]) h'
  | cons b as ih =>
      cases as' with
      | nil => exact absurd (by simp [(List.cons.inj heq).1]) h
      | cons b' as' =>
          obtain ⟨rfl, htail⟩ := List.cons.inj heq
          obtain ⟨rfl, rfl⟩ := ih (List.not_mem_of_not_mem_cons h) (List.not_mem_of_not_mem_cons h') htail
          exact ⟨rfl, rfl⟩

theorem isDigit_of_mem_digits {n : Nat} {c : Char} (h : c ∈ Nat.toDigits 10 n) : c.isDigit = true :=
  Nat.isDigit_of_mem_toDigits (by decide) (by decide) h

theorem toList_toString_nat (n : Nat) : (toString n).toList = Nat.toDigits 10 n := by
  rw [Nat.toString_eq_ofList_toDigits, String.toList_ofList]

theorem toList_toString_negSucc (n : Nat) :
    (toString (Int.negSucc n)).toList = '-' :: Nat.toDigits 10 (n + 1) := by
  have htext : toString (Int.negSucc n) = "-" ++ toString (n + 1) := rfl
  rw [htext, String.toList_append, toList_toString_nat]
  rfl

theorem mem_toString_int {x : Int} {c : Char} (h : c ∈ (toString x).toList) : c.isDigit = true ∨ c = '-' := by
  cases x with
  | ofNat n =>
      have htext : toString (Int.ofNat n) = toString n := rfl
      rw [htext, toList_toString_nat] at h
      exact .inl (isDigit_of_mem_digits h)
  | negSucc n =>
      rw [toList_toString_negSucc] at h
      rcases List.mem_cons.1 h with rfl | h
      · exact .inr rfl
      · exact .inl (isDigit_of_mem_digits h)

theorem toString_int_ne_nil (x : Int) : (toString x).toList ≠ [] := by
  cases x with
  | ofNat n =>
      have htext : toString (Int.ofNat n) = toString n := rfl
      rw [htext, toList_toString_nat]
      exact Nat.toDigits_ne_nil
  | negSucc n =>
      rw [toList_toString_negSucc]
      exact List.cons_ne_nil _ _

theorem isBlank_of_isDigit {c : Char} (h : c.isDigit = true) : Text.isBlank c = false := by
  have hrange : 48 ≤ c.toNat ∧ c.toNat ≤ 57 := by simpa [Char.isDigit, UInt32.le_iff_toNat_le] using h
  simp only [Text.isBlank, Bool.or_eq_false_iff, Bool.and_eq_false_iff, decide_eq_false_iff_not]
  omega

theorem isBlank_of_mem_toString {x : Int} {c : Char} (h : c ∈ (toString x).toList) : Text.isBlank c = false := by
  rcases mem_toString_int h with h | rfl
  · exact isBlank_of_isDigit h
  · rfl

theorem toDigits_injective : Function.Injective (Nat.toDigits 10) := fun n m h => by
  have hvalue := congrArg (Nat.ofDigitChars 10 · 0) h
  rwa [Nat.ofDigitChars_ten_toDigits, Nat.ofDigitChars_ten_toDigits] at hvalue

theorem toString_int_injective : Function.Injective (toString : Int → String) := fun x y h => by
  have hlist := congrArg String.toList h
  have hsign {n : Nat} {cs : List Char} (h : Nat.toDigits 10 n = '-' :: cs) : False :=
    absurd (isDigit_of_mem_digits (h ▸ List.mem_cons_self)) (by decide)
  cases x with
  | ofNat n =>
      change (toString n).toList = _ at hlist
      rw [toList_toString_nat] at hlist
      cases y with
      | ofNat m => exact congrArg Int.ofNat (toDigits_injective (hlist.trans (toList_toString_nat m)))
      | negSucc m => exact (hsign (hlist.trans (toList_toString_negSucc m))).elim
  | negSucc n =>
      rw [toList_toString_negSucc] at hlist
      cases y with
      | ofNat m => exact (hsign (hlist.trans (toList_toString_nat m)).symm).elim
      | negSucc m =>
          rw [toList_toString_negSucc] at hlist
          exact congrArg Int.negSucc (Nat.succ.inj (toDigits_injective (List.cons.inj hlist).2))

namespace Text

theorem toList_zeroPadded (w n : Nat) : (zeroPadded w n).toList =
    List.replicate (w - (toString n).length) '0' ++ Nat.toDigits 10 n := by
  rw [zeroPadded, String.toList_append, String.toList_ofList, toList_toString_nat]

theorem isDigit_of_mem_zeroPadded {w n : Nat} {c : Char} (h : c ∈ (zeroPadded w n).toList) :
    c.isDigit = true := by
  rw [toList_zeroPadded] at h
  rcases List.mem_append.1 h with h | h
  · rw [List.eq_of_mem_replicate h]
    rfl
  · exact isDigit_of_mem_digits h

theorem zeroPadded_ne_nil (w n : Nat) : (zeroPadded w n).toList ≠ [] := by
  rw [toList_zeroPadded]
  exact List.append_ne_nil_of_right_ne_nil _ Nat.toDigits_ne_nil

/-- Zeros in front do not change the number. -/
theorem ofDigitChars_zeroPadded (w n : Nat) : Nat.ofDigitChars 10 (zeroPadded w n).toList 0 = n := by
  have hzeros (k : Nat) : Nat.ofDigitChars 10 (List.replicate k '0') 0 = 0 := by
    induction k with
    | zero => rfl
    | succ k ih => rw [List.replicate_succ, Nat.ofDigitChars_cons]; exact ih
  rw [toList_zeroPadded, Nat.ofDigitChars_append, hzeros, Nat.ofDigitChars_ten_toDigits]

theorem zeroPadded_injective (w : Nat) : Function.Injective fun n => (zeroPadded w n).toList := fun n m h => by
  have hvalue := congrArg (Nat.ofDigitChars 10 · 0) h
  rwa [ofDigitChars_zeroPadded, ofDigitChars_zeroPadded] at hvalue

/-- Nothing is left out of a text that does not end in a blank. -/
theorem trimEnd_eq_self {s : String} (h : ∀ c ∈ s.toList.getLast?, isBlank c = false) : trimEnd s = s := by
  have hkeeps : ∀ cs : List Char, (∀ c ∈ cs.getLast?, isBlank c = false) → dropTrailingBlanks cs = cs := by
    intro cs hcs
    induction cs using List.reverseRecOn with
    | nil => rfl
    | append_singleton cs c _ =>
        have hc := hcs c (by simp)
        simp [dropTrailingBlanks, hc]
  rw [trimEnd, hkeeps _ h, String.ofList_toList]

end Text

/-! ### Lines -/

namespace Instruction

variable {pc : Nat} {is : List Instruction}

theorem Consecutive.le_pc (h : Consecutive pc is) {i : Instruction} (hi : i ∈ is) : pc ≤ i.pc := by
  induction is generalizing pc with
  | nil => cases hi
  | cons j is ih =>
      obtain ⟨rfl, hrest⟩ := h
      rcases List.mem_cons.1 hi with rfl | hi
      · exact le_rfl
      · exact (Nat.le_add_right _ _).trans (ih hrest hi)

/-- Instructions stand one behind the other. -/
theorem Consecutive.pairwise (h : Consecutive pc is) : is.Pairwise (·.pc < ·.pc) := by
  induction is generalizing pc with
  | nil => exact .nil
  | cons j is ih =>
      obtain ⟨rfl, hrest⟩ := h
      refine .cons (fun i hi => ?_) (ih hrest)
      have hbehind := hrest.le_pc hi
      have hsize : 0 < j.op.size := Nat.lt_add_right _ Nat.one_pos
      omega

/-- An instruction stands in the code. -/
theorem Consecutive.pc_lt (h : Consecutive pc is) (hk : ∀ i ∈ is, i.Kept) {i : Instruction} (hi : i ∈ is) :
    i.pc < pc + (is.flatMap encode).length := by
  induction is generalizing pc with
  | nil => cases hi
  | cons j is ih =>
      obtain ⟨rfl, hrest⟩ := h
      obtain ⟨hj, hk⟩ := List.forall_mem_cons.1 hk
      rw [List.flatMap_cons, List.length_append, length_encode hj.length_eq.symm]
      rcases List.mem_cons.1 hi with rfl | hi
      · have hsize : 0 < i.op.size := Nat.lt_add_right _ Nat.one_pos
        omega
      · have := ih hrest hk hi
        omega

end Instruction

namespace Opcode

theorem ofName?_name (op : Opcode) : ofName? op.name = some op := by
  cases op <;> decide

theorem name_injective : Function.Injective name := fun op op' h => by
  have hop := congrArg ofName? h
  rw [ofName?_name, ofName?_name] at hop
  exact Option.some.inj hop

/-- A name has no blanks in it, and there is one behind it. -/
theorem name_fits (op : Opcode) : op.name.length < 12 ∧ ' ' ∉ op.name.toList ∧ '\n' ∉ op.name.toList := by
  cases op <;> decide

end Opcode

namespace Listing

variable {is : List Instruction} {i j : Instruction} {a b : Int}

/-- One of these instructions is a jump to this address. -/
def JumpsTo (is : List Instruction) (a : Int) : Prop :=
  ∃ i ∈ is, i.op.isJump = true ∧ i.target? = some a

instance : Decidable (JumpsTo is a) := inferInstanceAs (Decidable (∃ i ∈ is, _))

/-- What is collected along a list of instructions, if each adds the address it leads to. -/
theorem contains_foldl {f : Std.TreeSet Int → Instruction → Std.TreeSet Int}
    (hf : ∀ targets i, (f targets i).contains a = true ↔ targets.contains a = true ∨ i.target? = some a)
    (targets : Std.TreeSet Int) :
    (is.foldl f targets).contains a = true ↔ targets.contains a = true ∨ ∃ i ∈ is, i.target? = some a := by
  induction is generalizing targets with
  | nil => simp
  | cons i is ih => rw [List.foldl_cons, ih, hf, List.exists_mem_cons_iff, ← or_assoc]

theorem contains_jumpTargets_iff : (jumpTargets is).contains a = true ↔ JumpsTo is a := by
  refine (contains_foldl (fun targets i => ?_) ∅).trans ?_
  · split
    · next b hb =>
        rw [Std.TreeSet.contains_insert, Bool.or_eq_true, beq_iff_eq, Std.LawfulEqCmp.compare_eq_iff_eq, hb,
          Option.some_inj, or_comm]
    · next hnone => simp [hnone]
  · simp [JumpsTo, and_assoc]

/-- The line that announces the image. -/
def headerRow (i : Image) : List Char :=
  "; code ".toList ++ ((toString i.code.size).toList ++ ' ' ::
    ("bytes, data ".toList ++ ((toString i.dataSize.toInt).toList ++ ' ' ::
      ("words, entry ".toList ++ (toString i.entry.toInt).toList))))

/-- The line above an instruction that a jump leads to. -/
def targetRow : List Char :=
  List.replicate 6 ' ' ++ '┌' :: List.replicate 34 '─'

/-- The line of an instruction, with a mark if a jump leads there. -/
def row (marked : Bool) (i : Instruction) : List Char :=
  (Text.zeroPadded 4 i.pc).toList ++ ' ' :: (if marked then '►' else ' ') :: ' ' ::
    ((Text.spacePadded 12 i.op.name).toList ++ (operandText none i).toList)

/-- The lines that show one instruction among others. -/
def rows (is : List Instruction) (i : Instruction) : List (List Char) :=
  if JumpsTo is i.pc then [targetRow, row true i] else [row false i]

/-- The operands of an instruction that names no address. -/
def valuesText (xs : List Int) : String :=
  ", ".intercalate (xs.map toString)

theorem operandText_none (i : Instruction) : operandText none i =
    if i.op.hasTarget = true then targetText none i
    else valuesText i.operands := by
  unfold operandText Opcode.hasTarget valuesText
  split
  · next h => simp [h]
  · next h =>
      by_cases hjump : i.op.isJump = true
      · simp [hjump]
      · simp [hjump, h]

theorem valuesText_cons_cons (x y : Int) (xs : List Int) :
    (valuesText (x :: y :: xs)).toList = (toString x).toList ++ ',' :: ' ' :: (valuesText (y :: xs)).toList := by
  have htext : valuesText (x :: y :: xs) = toString x ++ ", " ++ valuesText (y :: xs) :=
    String.intercalate_cons_cons
  rw [htext, String.toList_append, String.toList_append, List.append_assoc]
  rfl

theorem valuesText_singleton (x : Int) : valuesText [x] = toString x :=
  String.intercalate_singleton

theorem valuesText_ne_nil (x : Int) (xs : List Int) : (valuesText (x :: xs)).toList ≠ [] := by
  cases xs with
  | nil => rw [valuesText_singleton]; exact toString_int_ne_nil x
  | cons y xs => rw [valuesText_cons_cons]; simp

/-- No operand ends in a blank. -/
theorem isBlank_of_getLast?_valuesText {xs : List Int} {c : Char} (h : c ∈ (valuesText xs).toList.getLast?) :
    Text.isBlank c = false := by
  induction xs with
  | nil => cases h
  | cons x xs ih =>
      cases xs with
      | nil =>
          rw [valuesText_singleton] at h
          exact isBlank_of_mem_toString (List.mem_of_getLast? h)
      | cons y xs =>
          have hne : ',' :: ' ' :: (valuesText (y :: xs)).toList ≠ [] := List.cons_ne_nil _ _
          rw [valuesText_cons_cons, List.getLast?_append_of_ne_nil _ hne,
            ← List.singleton_append, ← List.singleton_append (l := (valuesText (y :: xs)).toList),
            ← List.append_assoc, List.getLast?_append_of_ne_nil _ (valuesText_ne_nil y xs)] at h
          exact ih h

theorem valuesText_injective {xs ys : List Int} (hlength : xs.length = ys.length)
    (h : valuesText xs = valuesText ys) : xs = ys := by
  have hcomma {x : Int} : ',' ∉ (toString x).toList := fun hmem => by
    rcases mem_toString_int hmem with h | h <;> cases h
  induction xs generalizing ys with
  | nil => exact (List.eq_nil_of_length_eq_zero hlength.symm).symm
  | cons x xs ih =>
      obtain ⟨y, ys, rfl⟩ := List.exists_cons_of_length_eq_add_one hlength.symm
      have hlength := Nat.succ.inj hlength
      cases xs with
      | nil =>
          obtain rfl := List.eq_nil_of_length_eq_zero hlength.symm
          rw [valuesText_singleton, valuesText_singleton] at h
          rw [toString_int_injective h]
      | cons x' xs =>
          obtain ⟨y', ys, rfl⟩ := List.exists_cons_of_length_eq_add_one hlength.symm
          have hlist := congrArg String.toList h
          rw [valuesText_cons_cons, valuesText_cons_cons] at hlist
          obtain ⟨hfirst, hrest⟩ := List.eq_of_append_cons hcomma hcomma hlist
          rw [toString_int_injective (String.toList_inj.1 hfirst),
            ih hlength (String.toList_inj.1 (List.cons.inj hrest).2)]

theorem mem_valuesText {xs : List Int} {c : Char} (h : c ∈ (valuesText xs).toList) :
    c.isDigit = true ∨ c = '-' ∨ c = ',' ∨ c = ' ' := by
  induction xs with
  | nil => cases h
  | cons x xs ih =>
      cases xs with
      | nil =>
          rw [valuesText_singleton] at h
          exact (mem_toString_int h).imp_right .inl
      | cons y xs =>
          rw [valuesText_cons_cons, List.mem_append, List.mem_cons, List.mem_cons] at h
          rcases h with h | rfl | rfl | h
          · exact (mem_toString_int h).imp_right .inl
          · exact .inr (.inr (.inl rfl))
          · exact .inr (.inr (.inr rfl))
          · exact ih h

theorem toList_targetText (i : Instruction) : (targetText none i).toList =
    ['-', '>', ' '] ++ (addressText (i.target?.getD 0)).toList := by
  rw [targetText, String.toList_append]
  rfl

theorem newline_notMem_operandText (i : Instruction) : '\n' ∉ (operandText none i).toList := by
  rw [operandText_none]
  intro h
  split at h
  · rw [toList_targetText] at h
    simp only [List.mem_append, List.mem_cons, List.not_mem_nil, Char.reduceEq, or_false, false_or] at h
    exact absurd (Text.isDigit_of_mem_zeroPadded h) (by decide)
  · rcases mem_valuesText h with h | h | h | h <;> cases h

/-- Without names no operands end in a blank, so nothing is left out of them. -/
theorem trimEnd_operandText (i : Instruction) : Text.trimEnd (operandText none i) = operandText none i := by
  refine Text.trimEnd_eq_self fun c hc => ?_
  rw [operandText_none] at hc
  split at hc
  · have hne : (addressText (i.target?.getD 0)).toList ≠ [] := Text.zeroPadded_ne_nil 4 _
    have hlast : c ∈ (addressText (i.target?.getD 0)).toList.getLast? := by
      rwa [toList_targetText, List.getLast?_append_of_ne_nil _ hne] at hc
    exact isBlank_of_isDigit (Text.isDigit_of_mem_zeroPadded (List.mem_of_getLast? hlast))
  · exact isBlank_of_getLast?_valuesText hc

theorem addressText_injective (ha : -9223372036854775808 ≤ a ∧ a < 9223372036854775808)
    (hb : -9223372036854775808 ≤ b ∧ b < 9223372036854775808) (h : addressText a = addressText b) : a = b := by
  have hwrap := Text.zeroPadded_injective 4 (congrArg String.toList h)
  have hcount : addressCount = 18446744073709551616 := rfl
  rw [hcount] at hwrap
  omega

theorem immediates_of_hasTarget {op : Opcode} (h : op.hasTarget = true) : op.immediates = [.offset] := by
  cases op <;> first | rfl | cases h

/-- A jump or call has one operand, an address that is not far away. -/
theorem exists_target (h : i.Kept) (hop : i.op.hasTarget = true) : ∃ a : Int, i.operands = [a] ∧
    i.target? = some a ∧ Emitter.isFar (a - i.pc) = false := by
  have hkeeps : List.Forall₂ (fun form x => Immediate.Keeps i.pc x form) i.op.immediates i.operands := h
  rw [immediates_of_hasTarget hop] at hkeeps
  generalize hoperands : i.operands = xs at hkeeps
  cases hkeeps with
  | cons ha hrest =>
      cases hrest
      exact ⟨_, rfl, by rw [Instruction.target?, if_pos hop, hoperands]; rfl, ha⟩

/-- The text behind an operation tells its operands. -/
theorem operands_eq_of_operandText (hi : i.Kept) (hj : j.Kept) (hop : i.op = j.op)
    (hpci : i.pc < 2 ^ 31) (hpcj : j.pc < 2 ^ 31) (h : operandText none i = operandText none j) :
    i.operands = j.operands := by
  rw [operandText_none, operandText_none, ← hop] at h
  by_cases htarget : i.op.hasTarget = true
  · obtain ⟨a, hoperands, ha, hnear⟩ := exists_target hi htarget
    obtain ⟨b, hoperands', hb, hnear'⟩ := exists_target hj (hop ▸ htarget)
    rw [if_pos htarget, if_pos htarget] at h
    have hlist := congrArg String.toList h
    rw [toList_targetText, toList_targetText, ha, hb, Option.getD_some, Option.getD_some] at hlist
    have haddress : addressText a = addressText b :=
      String.toList_inj.1 (List.append_cancel_left hlist)
    simp only [Emitter.isFar, Bool.or_eq_false_iff, decide_eq_false_iff_not] at hnear hnear'
    rw [hoperands, hoperands', addressText_injective (by omega) (by omega) haddress]
  · rw [if_neg htarget, if_neg htarget] at h
    refine valuesText_injective ?_ h
    rw [← hi.length_eq, ← hj.length_eq, hop]

/-! ### The lines of a listing -/

theorem toList_spacePadded_name (op : Opcode) : (Text.spacePadded 12 op.name).toList =
    op.name.toList ++ ' ' :: List.replicate (11 - op.name.length) ' ' := by
  have hlength : 12 - op.name.length = (11 - op.name.length) + 1 := by
    have := op.name_fits.1
    omega
  rw [Text.spacePadded, String.toList_append, String.toList_ofList, hlength, List.replicate_succ]

theorem newline_notMem_row (marked : Bool) (i : Instruction) : '\n' ∉ row marked i := by
  intro h
  rw [row, toList_spacePadded_name] at h
  simp only [List.mem_append, List.mem_cons, Char.reduceEq, false_or, List.mem_replicate, and_false,
    i.op.name_fits.2.2, newline_notMem_operandText] at h
  rcases h with h | h | h
  · exact absurd (Text.isDigit_of_mem_zeroPadded h) (by decide)
  · cases marked <;> cases h
  · exact h

theorem newline_notMem_targetRow : '\n' ∉ targetRow := by
  simp [targetRow]

theorem toList_targetLine : targetLine.toList = targetRow ++ ['\n'] := by
  unfold targetLine
  simp [targetRow]

theorem toList_header (image : Image) : (header image).toList = headerRow image ++ ['\n'] := by
  unfold header headerRow
  simp

theorem newline_notMem_rows {cs : List Char} (h : cs ∈ rows is i) : '\n' ∉ cs := by
  rw [rows] at h
  split at h
  · rw [List.mem_pair] at h
    rcases h with h | h
    · exact h ▸ newline_notMem_targetRow
    · exact h ▸ newline_notMem_row true i
  · rw [List.mem_singleton] at h
    exact h ▸ newline_notMem_row false i

theorem newline_notMem_headerRow (image : Image) : '\n' ∉ headerRow image := by
  have hsize : '\n' ∉ (toString image.code.size).toList := fun h =>
    absurd (isDigit_of_mem_digits (toList_toString_nat _ ▸ h)) (by decide)
  have hint (x : Int) : '\n' ∉ (toString x).toList := fun h => by
    rcases mem_toString_int h with h | h <;> cases h
  unfold headerRow
  simp only [List.mem_append, List.mem_cons, not_or]
  refine ⟨?_, hsize, ?_, ?_, hint _, ?_, ?_, hint _⟩ <;> simp

/-- An instruction is shown by its lines. -/
theorem toList_instructionText (is : List Instruction) (i : Instruction) :
    (instructionText none (jumpTargets is) i).toList = (rows is i).flatMap (· ++ ['\n']) := by
  unfold instructionText rows row
  by_cases h : JumpsTo is i.pc
  · have hcontains : (jumpTargets is).contains (i.pc : Int) = true := contains_jumpTargets_iff.2 h
    simp only [hcontains, h, if_true, Option.bind_none, trimEnd_operandText, String.toList_append,
      toList_targetLine, List.flatMap_cons, List.flatMap_nil]
    simp
  · have hcontains : (jumpTargets is).contains (i.pc : Int) = false :=
      Bool.eq_false_iff.2 (mt contains_jumpTargets_iff.1 h)
    simp only [hcontains, h, if_false, Option.bind_none, trimEnd_operandText, String.toList_append,
      List.flatMap_cons, List.flatMap_nil]
    simp

/-- The listing of an image is the line that announces it, and then the lines of its instructions. -/
theorem splitOn_ofImage {image : Image} {is : Array Instruction} {text : String}
    (hdecode : Instruction.decode image.code.toList = .ok is) (h : ofImage image none = .ok text) :
    text.toList.splitOn '\n' = headerRow image :: (is.toList.flatMap (rows is.toList) ++ [[]]) := by
  have htext : text.toList =
      (headerRow image :: is.toList.flatMap (rows is.toList)).flatMap (· ++ ['\n']) := by
    rw [ofImage_eq hdecode] at h
    have hlines : (is.toList.map (instructionText none (jumpTargets is.toList))).flatMap String.toList =
        (is.toList.flatMap (rows is.toList)).flatMap (· ++ ['\n']) := by
      rw [List.flatMap_map, List.flatMap_assoc]
      exact List.flatMap_congr fun i _ => toList_instructionText is.toList i
    rw [← Except.ok.inj h, String.toList_append, String.toList_join, hlines, toList_header, List.flatMap_cons]
  have hjoin : ∀ ls : List (List Char), ls.flatMap (· ++ ['\n']) = ['\n'].intercalate (ls ++ [[]]) := by
    intro ls
    induction ls with
    | nil => rfl
    | cons l ls ih =>
        rw [List.flatMap_cons, ih]
        cases ls with
        | nil => simp
        | cons l' ls => simp
  have hclean : ∀ l ∈ headerRow image :: is.toList.flatMap (rows is.toList) ++ [[]], '\n' ∉ l := by
    intro l hl
    rw [List.mem_append, List.mem_cons, List.mem_flatMap, List.mem_singleton] at hl
    rcases hl with (rfl | ⟨i, -, hi⟩) | rfl
    · exact newline_notMem_headerRow image
    · exact newline_notMem_rows hi
    · simp
  rw [htext, hjoin, List.splitOn_intercalate _ hclean (List.append_ne_nil_of_left_ne_nil (List.cons_ne_nil _ _) _)]
  rfl

/-! ### What the lines tell -/

/-- The line that announces an image tells its words. -/
theorem words_eq_of_headerRow {image image' : Image} (h : headerRow image = headerRow image') :
    image.dataSize = image'.dataSize ∧ image.entry = image'.entry := by
  have hnat (n : Nat) : ' ' ∉ (toString n).toList := fun h =>
    absurd (isDigit_of_mem_digits (toList_toString_nat n ▸ h)) (by decide)
  have hint (x : Int) : ' ' ∉ (toString x).toList := fun h => by
    rcases mem_toString_int h with h | h <;> cases h
  unfold headerRow at h
  obtain ⟨-, hrest⟩ := List.eq_of_append_cons (hnat _) (hnat _) (List.append_cancel_left h)
  obtain ⟨hdata, hrest⟩ := List.eq_of_append_cons (hint _) (hint _) (List.append_cancel_left hrest)
  have hentry := List.append_cancel_left hrest
  exact ⟨Int32.toInt_inj.1 (toString_int_injective (String.toList_inj.1 hdata)),
    Int32.toInt_inj.1 (toString_int_injective (String.toList_inj.1 hentry))⟩

theorem exists_decode {image : Image} {text : String} (h : ofImage image none = .ok text) :
    ∃ is, Instruction.decode image.code.toList = .ok is := by
  cases hdecode : Instruction.decode image.code.toList with
  | ok is => exact ⟨is, rfl⟩
  | error e =>
      rw [ofImage, hdecode] at h
      cases h

/-- The line of an instruction tells the instruction. -/
theorem row_injective {m m' : Bool} (hi : i.Kept) (hj : j.Kept) (hpci : i.pc < 2 ^ 31) (hpcj : j.pc < 2 ^ 31)
    (h : row m i = row m' j) : i = j := by
  have hblank (n : Nat) : ' ' ∉ (Text.zeroPadded 4 n).toList := fun h =>
    absurd (Text.isDigit_of_mem_zeroPadded h) (by decide)
  unfold row at h
  obtain ⟨haddress, hrest⟩ := List.eq_of_append_cons (hblank _) (hblank _) h
  have hpc : i.pc = j.pc := Text.zeroPadded_injective 4 haddress
  have hrest := (List.cons.inj (List.cons.inj hrest).2).2
  rw [toList_spacePadded_name, toList_spacePadded_name, List.append_assoc, List.append_assoc, List.cons_append,
    List.cons_append] at hrest
  obtain ⟨hname, hrest⟩ := List.eq_of_append_cons i.op.name_fits.2.1 j.op.name_fits.2.1 hrest
  have hop : i.op = j.op := Opcode.name_injective (String.toList_inj.1 hname)
  rw [hop] at hrest
  have hoperands := operands_eq_of_operandText hi hj hop hpci hpcj
    (String.toList_inj.1 (List.append_cancel_left hrest))
  cases i
  cases j
  cases hpc
  cases hop
  cases hoperands
  rfl

/-- The lines of instructions are those that begin with a digit. -/
def IsRow (cs : List Char) : Bool :=
  cs.head?.any Char.isDigit

theorem isRow_row (marked : Bool) (i : Instruction) : IsRow (row marked i) = true := by
  unfold row
  obtain ⟨c, cs, hcs⟩ := List.exists_cons_of_ne_nil (Text.zeroPadded_ne_nil 4 i.pc)
  have hc : c.isDigit = true := Text.isDigit_of_mem_zeroPadded (hcs ▸ List.mem_cons_self)
  rw [hcs]
  simpa [IsRow] using hc

theorem filter_rows (is js : List Instruction) : (js.flatMap (rows is)).filter IsRow =
    js.map fun i => row (decide (JumpsTo is i.pc)) i := by
  have htarget : IsRow targetRow = false := rfl
  induction js with
  | nil => rfl
  | cons i js ih =>
      rw [List.flatMap_cons, List.filter_append, ih, List.map_cons, rows]
      split
      · next h => simp only [List.filter_cons, htarget, isRow_row, h]; rfl
      · next h => simp only [List.filter_cons, isRow_row, h]; rfl

theorem List.eq_of_map_eq {α β : Type} {f g : α → β} {as bs : List α}
    (hinj : ∀ a ∈ as, ∀ b ∈ bs, f a = g b → a = b) (h : as.map f = bs.map g) : as = bs := by
  induction as generalizing bs with
  | nil => exact (List.map_eq_nil_iff.1 h.symm).symm
  | cons a as ih =>
      obtain ⟨b, bs, rfl, hb, htail⟩ := List.map_eq_cons_iff.1 h.symm
      rw [hinj a List.mem_cons_self b List.mem_cons_self hb.symm, ih (fun a ha b hb =>
        hinj a (List.mem_cons_of_mem _ ha) b (List.mem_cons_of_mem _ hb)) htail.symm]

/-- Two images with the same listing are the same. -/
theorem ofImage_injective {image image' : Image} {text : String} (hsize : image.code.size < 2 ^ 31)
    (hsize' : image'.code.size < 2 ^ 31) (h : ofImage image none = .ok text)
    (h' : ofImage image' none = .ok text) : image = image' := by
  obtain ⟨is, hdecode⟩ := exists_decode h
  obtain ⟨js, hdecode'⟩ := exists_decode h'
  have hlines := (splitOn_ofImage hdecode h).symm.trans (splitOn_ofImage hdecode' h')
  obtain ⟨hheader, hrows⟩ := List.cons.inj hlines
  obtain ⟨hdata, hentry⟩ := words_eq_of_headerRow hheader
  obtain ⟨hc, hk, hcode⟩ := Instruction.decode_eq_ok_iff.1 hdecode
  obtain ⟨hc', hk', hcode'⟩ := Instruction.decode_eq_ok_iff.1 hdecode'
  have hsame : is.toList = js.toList := by
    have hfilter := congrArg (List.filter IsRow) (List.append_cancel_right hrows)
    rw [filter_rows, filter_rows] at hfilter
    refine List.eq_of_map_eq (fun i hi j hj hij => row_injective ?_ ?_ ?_ ?_ hij) hfilter
    · exact hk i (Array.mem_toList_iff.1 hi)
    · exact hk' j (Array.mem_toList_iff.1 hj)
    · have := hc.pc_lt (by simpa using hk) hi
      rw [hcode, Array.length_toList] at this
      omega
    · have := hc'.pc_lt (by simpa using hk') hj
      rw [hcode', Array.length_toList] at this
      omega
  rw [hsame, hcode'] at hcode
  cases image
  cases image'
  cases hdata
  cases hentry
  cases Array.toList_inj.1 hcode
  rfl

/-- A listing without names loses nothing. Its lines are the one that announces the image and then, in the order
of their addresses, one for each instruction of the code. A line has a mark, and a line above it, if and only if
a jump leads to its instruction. No other image has this listing. -/
theorem ofImage_lossless {image : Image} {text : String} (hsize : image.code.size < 2 ^ 31 - 2 ^ 15)
    (h : ofImage image none = .ok text) :
    (∃ is, Instruction.decode image.code.toList = .ok is ∧
      is.toList.Pairwise (·.pc < ·.pc) ∧
      text.toList.splitOn '\n' = headerRow image :: (is.toList.flatMap (rows is.toList) ++ [[]]) ∧
      (text.toList.splitOn '\n').filter IsRow =
        is.toList.map fun i => row (decide (JumpsTo is.toList i.pc)) i) ∧
    ∀ image' : Image, image'.code.size < 2 ^ 31 - 2 ^ 15 → ofImage image' none = .ok text →
      image' = image := by
  obtain ⟨is, hdecode⟩ := exists_decode h
  obtain ⟨hc, -, -⟩ := Instruction.decode_eq_ok_iff.1 hdecode
  have hlines := splitOn_ofImage hdecode h
  refine ⟨⟨is, hdecode, hc.pairwise, hlines, ?_⟩, fun image' hsize' h' => ?_⟩
  · have hheader : IsRow (headerRow image) = false := by
      unfold headerRow
      simp [IsRow]
    have hend : IsRow [] = false := rfl
    rw [hlines, List.filter_cons_of_neg (by simp [hheader]), List.filter_append, filter_rows,
      List.filter_cons_of_neg (by simp [hend]), List.filter_nil, List.append_nil]
  · exact ofImage_injective (by omega) (by omega) h' h

/-- A code with a jump back to its beginning. -/
def jumpsBack : Image where
  dataSize := 0
  entry := -1
  code := #[Opcode.nop.byte, Opcode.jmp.byte, 0xFF, 0xFF]

/-- The first of its two lines has the mark. -/
theorem ofImage_lossless_jumpsBack : ∃ text, ofImage jumpsBack none = .ok text ∧
    jumpsBack.code.size < 2 ^ 31 - 2 ^ 15 ∧
    (text.toList.splitOn '\n').filter IsRow = [row true ⟨0, .nop, []⟩, row false ⟨1, .jmp, [0]⟩] ∧
    ∀ image' : Image, image'.code.size < 2 ^ 31 - 2 ^ 15 → ofImage image' none = .ok text →
      image' = jumpsBack := by
  have hkept : ∀ i ∈ #[(⟨0, .nop, []⟩ : Instruction), ⟨1, .jmp, [0]⟩], i.Kept := by
    intro i hi
    rw [← Array.mem_toList_iff, List.mem_pair] at hi
    rcases hi with rfl | rfl
    · exact .nil
    · exact .cons (by decide : Emitter.isFar (0 - 1) = false) .nil
  have hdecode : Instruction.decode jumpsBack.code.toList = .ok #[⟨0, .nop, []⟩, ⟨1, .jmp, [0]⟩] :=
    Instruction.decode_eq_ok_iff.2 ⟨⟨rfl, rfl, trivial⟩, hkept, rfl⟩
  have hsize : jumpsBack.code.size < 2 ^ 31 - 2 ^ 15 := by decide
  obtain ⟨⟨is, his, -, -, hrows⟩, hunique⟩ := ofImage_lossless hsize (ofImage_eq hdecode none)
  cases hdecode.symm.trans his
  exact ⟨_, ofImage_eq hdecode none, hsize, hrows, hunique⟩

end Listing

end MicroJava
