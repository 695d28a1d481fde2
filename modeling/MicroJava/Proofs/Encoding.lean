import Mathlib.Data.List.Induction
import MicroJava.Proofs.Ranges

/-!
# Encoding is the inverse of decoding

A code is decoded to the instructions that are written as this code, each of them where the one before
it ends and with operands that its bytes keep. So instructions are decoded from the bytes that are put
for them, and the bytes of a decoded code are those that are put for its instructions. A code that is
not decoded is read up to the first address at which no whole instruction stands, and the fault names
this address (`Instruction.decode_iff`).
-/

namespace MicroJava

/-- The words of the machine have 32 bits, one of them for the sign. -/
theorem isWord_iff {n : Int} : IsWord n ↔ -2147483648 ≤ n ∧ n ≤ 2147483647 := by
  have low : -(((4294967296 : Nat) : Int) / 2) ≤ wrapWord n := Int.le_bmod (by decide)
  have high : wrapWord n < ((4294967296 : Nat) + 1 : Int) / 2 := Int.bmod_lt (by decide)
  constructor
  · intro h
    rw [IsWord] at h
    omega
  · intro h
    exact Int.bmod_eq_of_le (by omega) (by omega)

/-! ### Operands -/

namespace BigEndian

/-- Bytes are the digits of the number that they stand for. -/
theorem bytes_natValue (bs : List UInt8) : bytes bs.length (natValue bs) = bs := by
  induction bs using List.reverseRecOn with
  | nil => rfl
  | append_singleton bs b ih =>
      have hb : b.toNat < 256 := b.toNat_lt
      have hdiv : ((natValue bs * 256 + b.toNat : Nat) : Int) / 256 = natValue bs := by omega
      have hlow : lowByte ((natValue bs * 256 + b.toNat : Nat) : Int) = b := by
        refine UInt8.toNat_inj.1 (Int.ofNat.inj ((toNat_lowByte _).trans ?_))
        change _ = (b.toNat : Int)
        omega
      rw [natValue_append_singleton, List.length_append, List.length_singleton, bytes, hdiv, hlow, ih]

/-- Higher digits are lost. -/
theorem bytes_emod (n : Nat) (x : Int) : bytes n (x % range n) = bytes n x := by
  have h := bytes_natValue (bytes n x)
  rwa [length_bytes, natValue_bytes] at h

theorem bytes_intValue (bs : List UInt8) : bytes bs.length (intValue bs) = bs := by
  rw [← bytes_emod, intValue, Int.bmod_emod, bytes_emod, bytes_natValue]

theorem natValue_lt (bs : List UInt8) : natValue bs < range bs.length := by
  have hpos : (0 : Int) < range bs.length := by
    induction bs with
    | nil => decide
    | cons b bs ih =>
        have hrange : (range (b :: bs).length : Int) = 256 * range bs.length :=
          Int.natCast_mul 256 (range bs.length)
        omega
  have h := natValue_bytes bs.length (natValue bs)
  rw [bytes_natValue] at h
  have hlt := Int.emod_lt_of_pos (natValue bs : Int) hpos
  omega

end BigEndian

theorem Bytes.split?_eq_none_iff {n : Nat} {bs : Bytes} : Bytes.split? n bs = none ↔ bs.length < n := by
  simp only [Bytes.split?, List.length_take, ite_eq_right_iff, reduceCtorEq, imp_false]
  omega

namespace Immediate

variable {form : Immediate} {bs : Bytes}

/-- The bytes of an operand are those that it was read from. -/
theorem bytes_value (pc : Nat) (h : bs.length = form.width) : form.bytes pc (form.value pc bs) = bs := by
  cases form with
  | byte | word => exact (congrArg (BigEndian.bytes · _) h.symm).trans (BigEndian.bytes_natValue bs)
  | signedByte | constant =>
      exact (congrArg (BigEndian.bytes · _) h.symm).trans (BigEndian.bytes_intValue bs)
  | offset =>
      change BigEndian.bytes 2 (pc + BigEndian.intValue bs - pc) = bs
      rw [Int.add_comm, Int.add_sub_cancel]
      exact (congrArg (BigEndian.bytes · _) h.symm).trans (BigEndian.bytes_intValue bs)

/-- The bytes of an operand keep what was read from them. -/
theorem keeps_value (pc : Nat) (h : bs.length = form.width) : form.Keeps pc (form.value pc bs) := by
  have hlt := BigEndian.natValue_lt bs
  have hvalue : BigEndian.intValue bs = (BigEndian.natValue bs : Int).bmod (BigEndian.range form.width) := by
    rw [BigEndian.intValue, h]
  have low := Int.le_bmod (x := BigEndian.natValue bs) (m := BigEndian.range form.width)
  have high := Int.bmod_lt (x := BigEndian.natValue bs) (m := BigEndian.range form.width)
  rw [← hvalue] at low high
  rw [h] at hlt
  cases form with
  | byte | word => exact ⟨Int.natCast_nonneg _, Int.ofNat_lt.2 hlt⟩
  | signedByte =>
      have hrange : BigEndian.range (width signedByte) = 256 := rfl
      rw [hrange] at low high
      change -128 ≤ BigEndian.intValue bs ∧ BigEndian.intValue bs ≤ 127
      omega
  | constant =>
      change wrapWord (BigEndian.intValue bs) = BigEndian.intValue bs
      rw [hvalue]
      exact Int.bmod_bmod
  | offset =>
      have hrange : BigEndian.range (width offset) = 65536 := rfl
      rw [hrange] at low high
      change Emitter.isFar (pc + BigEndian.intValue bs - pc) = false
      simp only [Int.add_comm (pc : Int), Int.add_sub_cancel, Emitter.isFar, Bool.or_eq_false_iff, decide_eq_false_iff_not]
      omega

end Immediate

namespace Instruction

variable {pc : Nat} {forms : List Immediate} {xs : List Int} {bs rest : Bytes}

/-- Operands are read exactly from their bytes. -/
theorem operands?_eq_some_iff : operands? pc forms bs = some (xs, rest) ↔
    List.Forall₂ (fun form x => Immediate.Keeps pc x form) forms xs ∧
      bs = (List.zipWith (fun form x => form.bytes pc x) forms xs).flatten ++ rest := by
  constructor
  · intro h
    induction forms generalizing bs xs with
    | nil =>
        obtain ⟨rfl, rfl⟩ := Prod.mk.inj (Option.some.inj h)
        exact ⟨.nil, rfl⟩
    | cons form forms ih =>
        rw [operands?] at h
        split at h
        · cases h
        · next front back hsplit =>
            obtain ⟨⟨ys, tail⟩, hys, heq⟩ := Option.map_eq_some_iff.1 h
            obtain ⟨rfl, rfl⟩ := Prod.mk.inj heq
            obtain ⟨rfl, hfront⟩ := Bytes.split?_eq_some_iff.1 hsplit
            obtain ⟨hkeeps, rfl⟩ := ih hys
            refine ⟨.cons (Immediate.keeps_value pc hfront) hkeeps, ?_⟩
            rw [List.zipWith_cons_cons, List.flatten_cons, Immediate.bytes_value pc hfront,
              List.append_assoc]
  · rintro ⟨hkeeps, rfl⟩
    rw [operands?_append hkeeps.length_eq.symm, readOperands_eq hkeeps]

/-- Operands are not read if there are too few bytes. -/
theorem operands?_eq_none_iff : operands? pc forms bs = none ↔ bs.length < Immediate.totalWidth forms := by
  induction forms generalizing bs with
  | nil => simp [operands?, Immediate.totalWidth]
  | cons form forms ih =>
      rw [operands?, Immediate.totalWidth]
      split
      · next hsplit =>
          have hshort := Bytes.split?_eq_none_iff.1 hsplit
          exact ⟨fun _ => by omega, fun _ => rfl⟩
      · next front back hsplit =>
          have hlength := Bytes.length_of_split? hsplit
          rw [Option.map_eq_none_iff, ih]
          omega

/-- What is left behind the operands. -/
theorem drop_of_operands? (h : operands? pc forms bs = some (xs, rest)) :
    bs.drop (Immediate.totalWidth forms) = rest := by
  have hlength := length_of_operands? h
  obtain ⟨-, hbs⟩ := operands?_eq_some_iff.1 h
  rw [hbs, List.length_append] at hlength
  rw [hbs]
  exact List.drop_left' (by omega)

/-! ### Instructions that are written -/

/-- Each instruction stands where the one before it ends, and the first one at `pc`. -/
def Consecutive : Nat → List Instruction → Prop
  | _, [] => True
  | pc, i :: is => i.pc = pc ∧ Consecutive (pc + i.op.size) is

/-- The operands of an instruction are those that its bytes keep. -/
def Kept (i : Instruction) : Prop := Operation.Keeps i.pc (i.op, i.operands)

end Instruction

namespace Emitter

/-- Puts an instruction: its operation, and then its operands one by one. Of the address that a jump or
call leads to the way there is put. -/
def putInstruction (e : Emitter) (i : Instruction) : Emitter :=
  (i.op.immediates.zip i.operands).foldl
    (fun e' o => e'.putInt o.1.width (if o.1 = .offset then o.2 - e.pc else o.2)) (e.put i.op)

theorem toList_code_foldl_putInt (e : Emitter) (f : Immediate × Int → Int)
    (os : List (Immediate × Int)) :
    (os.foldl (fun e' o => e'.putInt o.1.width (f o)) e).code.toList =
      e.code.toList ++ os.flatMap fun o => BigEndian.bytes o.1.width (f o) := by
  induction os generalizing e with
  | nil => simp
  | cons o os ih =>
      rw [List.foldl_cons, ih]
      simp [putInt, append]

theorem toList_code_putInstruction {e : Emitter} {i : Instruction} (h : i.pc = e.pc) :
    (e.putInstruction i).code.toList = e.code.toList ++ i.encode := by
  have hbytes : (i.op.immediates.zip i.operands).flatMap (fun o =>
        BigEndian.bytes o.1.width (if o.1 = .offset then o.2 - e.pc else o.2)) =
      (List.zipWith (fun form x => form.bytes i.pc x) i.op.immediates i.operands).flatten := by
    rw [← List.map_uncurry_zip_eq_zipWith, List.flatMap, h]
    rfl
  rw [putInstruction, toList_code_foldl_putInt, hbytes, Instruction.encode]
  simp [put]

end Emitter

namespace Instruction

variable {pc : Nat} {bs code : Bytes}

/-- What is put for instructions are their bytes, one instruction after the other. -/
theorem toList_code_foldl_putInstruction {is : List Instruction} {e : Emitter}
    (hc : Consecutive e.pc is) (hk : ∀ i ∈ is, i.Kept) :
    (is.foldl Emitter.putInstruction e).code.toList = e.code.toList ++ is.flatMap encode := by
  induction is generalizing e with
  | nil => simp
  | cons i is ih =>
      obtain ⟨hpc, hc⟩ := hc
      obtain ⟨hi, hk⟩ := List.forall_mem_cons.1 hk
      have hcode := Emitter.toList_code_putInstruction hpc
      have hnext : (e.putInstruction i).pc = e.pc + i.op.size := by
        have := congrArg List.length hcode
        rwa [List.length_append, length_encode hi.length_eq.symm] at this
      rw [List.foldl_cons, ih (hnext ▸ hc) hk, hcode, List.flatMap_cons, List.append_assoc]

theorem decodeFrom_flatMap {is : List Instruction} (hc : Consecutive pc is) (hk : ∀ i ∈ is, i.Kept)
    (acc : Array Instruction) : decodeFrom pc (is.flatMap encode) acc = .ok (acc ++ is.toArray) := by
  induction is generalizing pc acc with
  | nil => simp [decodeFrom]
  | cons i is ih =>
      obtain ⟨rfl, hc⟩ := hc
      obtain ⟨hi, hk⟩ := List.forall_mem_cons.1 hk
      rw [List.flatMap_cons, decodeFrom_encode hi.length_eq.symm, readBack_eq hi, ih hc hk]
      simp

theorem exists_of_decodeFrom {acc is : Array Instruction} (h : decodeFrom pc bs acc = .ok is) :
    ∃ js, is = acc ++ js.toArray ∧ Consecutive pc js ∧ (∀ j ∈ js, j.Kept) ∧ js.flatMap encode = bs := by
  fun_induction decodeFrom pc bs acc with
  | case1 => exact ⟨[], by cases h; simp, trivial, by simp, rfl⟩
  | case2 => cases h
  | case3 => cases h
  | case4 pc acc b bs op hop xs rest hxs ih =>
      obtain ⟨js, rfl, hc, hk, rfl⟩ := ih h
      obtain ⟨hkeeps, rfl⟩ := operands?_eq_some_iff.1 hxs
      refine ⟨⟨pc, op, xs⟩ :: js, by simp, ⟨rfl, hc⟩, List.forall_mem_cons.2 ⟨hkeeps, hk⟩, ?_⟩
      rw [List.flatMap_cons, encode, Opcode.byte_of_ofByte? hop, List.cons_append]

/-- A code is decoded to the instructions that it is the bytes of. -/
theorem decode_eq_ok_iff {is : Array Instruction} : decode code = .ok is ↔
    Consecutive 0 is.toList ∧ (∀ i ∈ is, i.Kept) ∧ is.toList.flatMap encode = code := by
  constructor
  · intro h
    obtain ⟨js, rfl, hc, hk, hcode⟩ := exists_of_decodeFrom h
    exact ⟨by simpa using hc, by simpa using hk, by simpa using hcode⟩
  · rintro ⟨hc, hk, rfl⟩
    rw [decode, decodeFrom_flatMap hc (by simpa using hk)]
    simp

/-! ### Codes that are not decoded -/

/-- Instructions are read at this address: it is the first one, or the one behind an instruction that
is read and does not run past the end. -/
inductive Reaches (code : Bytes) : Nat → Prop
  | start : Reaches code 0
  | next {pc : Nat} {b : UInt8} {op : Opcode} (h : Reaches code pc) (hb : code[pc]? = some b)
      (hop : Opcode.ofByte? b = some op) (hsize : pc + op.size ≤ code.length) :
      Reaches code (pc + op.size)

/-- No instruction can be read at this address: there is a byte that is no operation, or the
instruction runs past the end. -/
inductive Stops (code : Bytes) (pc : Nat) : ImageError → Prop
  | unknownOpcode {b : UInt8} (hb : code[pc]? = some b) (hop : Opcode.ofByte? b = none) :
      Stops code pc (.unknownOpcode b pc)
  | truncated {b : UInt8} {op : Opcode} (hb : code[pc]? = some b) (hop : Opcode.ofByte? b = some op)
      (hsize : code.length < pc + op.size) : Stops code pc (.truncatedInstruction op pc)

/-- The operands of the instruction at an address run past the end if the instruction does. -/
theorem operands?_drop_eq_none_iff {op : Opcode} {b : UInt8} (hb : code[pc]? = some b) :
    operands? pc op.immediates (code.drop (pc + 1)) = none ↔ code.length < pc + op.size := by
  obtain ⟨hlt, -⟩ := List.getElem?_eq_some_iff.1 hb
  rw [operands?_eq_none_iff, List.length_drop, Opcode.size]
  omega

theorem drop_eq_cons {b : UInt8} (hb : code[pc]? = some b) :
    code.drop pc = b :: code.drop (pc + 1) := by
  obtain ⟨hlt, rfl⟩ := List.getElem?_eq_some_iff.1 hb
  exact List.drop_eq_getElem_cons hlt

/-- An instruction that is read leaves what stands behind it. -/
theorem exists_decodeFrom_next {b : UInt8} {op : Opcode} (hb : code[pc]? = some b)
    (hop : Opcode.ofByte? b = some op) (hsize : pc + op.size ≤ code.length) (acc : Array Instruction) :
    ∃ acc', decodeFrom pc (code.drop pc) acc =
      decodeFrom (pc + op.size) (code.drop (pc + op.size)) acc' := by
  have hsome : operands? pc op.immediates (code.drop (pc + 1)) ≠ none :=
    mt (operands?_drop_eq_none_iff hb).1 (Nat.not_lt.2 hsize)
  obtain ⟨⟨xs, rest⟩, hxs⟩ := Option.ne_none_iff_exists'.1 hsome
  have hrest : rest = code.drop (pc + op.size) := by
    rw [← drop_of_operands? hxs, List.drop_drop, Opcode.size, Nat.add_assoc]
  refine ⟨acc.push ⟨pc, op, xs⟩, ?_⟩
  rw [drop_eq_cons hb, decodeFrom, hop]
  simp only
  split
  · next hnone => simp [hxs] at hnone
  · next ys rest' hsome =>
      obtain ⟨rfl, rfl⟩ := Prod.mk.inj (Option.some.inj (hxs.symm.trans hsome))
      rw [hrest]

/-- What is decoded from an address that is reached decides what the whole code is decoded to. -/
theorem Reaches.exists_decode_eq (h : Reaches code pc) :
    ∃ acc, decode code = decodeFrom pc (code.drop pc) acc := by
  induction h with
  | start => exact ⟨#[], rfl⟩
  | next _ hb hop hsize ih =>
      obtain ⟨acc, hacc⟩ := ih
      obtain ⟨acc', hacc'⟩ := exists_decodeFrom_next hb hop hsize acc
      exact ⟨acc', hacc.trans hacc'⟩

/-- Where no instruction can be read, the code is refused. -/
theorem Reaches.decode_eq_error {e : ImageError} (h : Reaches code pc) (hstops : Stops code pc e) :
    decode code = .error e := by
  obtain ⟨acc, hacc⟩ := h.exists_decode_eq
  rw [hacc]
  cases hstops with
  | unknownOpcode hb hop => rw [drop_eq_cons hb, decodeFrom, hop]
  | truncated hb hop hsize =>
      rw [drop_eq_cons hb, decodeFrom, hop]
      simp only
      split
      · rfl
      · next ys rest' hsome => simp [(operands?_drop_eq_none_iff hb).2 hsize] at hsome

/-- A code is refused where no instruction can be read. -/
theorem Reaches.exists_stops {e : ImageError} {acc : Array Instruction} (h : Reaches code pc)
    (herror : decodeFrom pc bs acc = .error e) (hbs : bs = code.drop pc) :
    ∃ q, Reaches code q ∧ Stops code q e := by
  have head {pc : Nat} {b : UInt8} {bs : Bytes} (hbs : b :: bs = code.drop pc) :
      code[pc]? = some b ∧ bs = code.drop (pc + 1) := by
    have hb : code[pc]? = some b := by
      have := congrArg List.head? hbs
      rw [List.head?_drop] at this
      exact this.symm
    exact ⟨hb, (List.cons.inj (hbs.trans (drop_eq_cons hb))).2⟩
  fun_induction decodeFrom pc bs acc with
  | case1 => cases herror
  | case2 pc acc b bs hop =>
      cases herror
      exact ⟨pc, h, .unknownOpcode (head hbs).1 hop⟩
  | case3 pc acc b bs op hop hnone =>
      cases herror
      obtain ⟨hb, rfl⟩ := head hbs
      exact ⟨pc, h, .truncated hb hop ((operands?_drop_eq_none_iff hb).1 hnone)⟩
  | case4 pc acc b bs op hop xs rest hxs ih =>
      obtain ⟨hb, rfl⟩ := head hbs
      have hsize : pc + op.size ≤ code.length :=
        Nat.not_lt.1 (mt (operands?_drop_eq_none_iff hb).2 (by simp [hxs]))
      refine ih (h.next hb hop hsize) herror ?_
      rw [← drop_of_operands? hxs, List.drop_drop, Opcode.size, Nat.add_assoc]

/-- A code is refused at no more than one address. -/
theorem Reaches.stops_unique {q : Nat} {e e' : ImageError} (h : Reaches code pc) (he : Stops code pc e)
    (h' : Reaches code q) (he' : Stops code q e') : pc = q := by
  have heq := (h.decode_eq_error he).symm.trans (h'.decode_eq_error he')
  cases he <;> cases he' <;> cases heq <;> rfl

/-- Decoding is the inverse of putting instructions, one where the one before it ends, with operands that
their bytes keep. A code is refused for the first address at which no instruction can be read. -/
theorem decode_iff (code : Bytes) :
    (∀ is, decode code = .ok is ↔ Consecutive 0 is.toList ∧ (∀ i ∈ is, i.Kept) ∧
      (is.toList.foldl Emitter.putInstruction .empty).code.toList = code) ∧
    ∀ e, decode code = .error e ↔ ∃ pc, Reaches code pc ∧ Stops code pc e ∧
      ∀ q e', Reaches code q → Stops code q e' → pc ≤ q := by
  refine ⟨fun is => ?_, fun e => ⟨fun h => ?_, fun ⟨pc, hreaches, hstops, _⟩ =>
    hreaches.decode_eq_error hstops⟩⟩
  · rw [decode_eq_ok_iff]
    refine and_congr_right fun hc => and_congr_right fun hk => ?_
    have hcode := toList_code_foldl_putInstruction (e := .empty) hc (by simpa using hk)
    rw [hcode]
    rfl
  · obtain ⟨pc, hreaches, hstops⟩ := Reaches.exists_stops .start h rfl
    exact ⟨pc, hreaches, hstops, fun q e' hq he' => (hreaches.stops_unique hstops hq he').le⟩

end Instruction

end MicroJava
