import MicroJava.Proofs.Assembly

/-!
# Code is decoded to what was written

The bytes of several instructions, one after the other, are decoded to as many instructions of the
same operations at the same addresses (`Instruction.decode_bytes`). What is read of an operand is
what its bytes keep of it; of the way to a target they keep everything unless it is too far
(`Instruction.target?_readBack`).
-/

namespace MicroJava

namespace Instruction

/-- The operands as they are read from the code of an instruction. -/
def readOperands (pc : Nat) (forms : List Immediate) (xs : List Int) : List Int :=
  List.zipWith (fun form x => form.value pc (form.bytes pc x)) forms xs

/-- An instruction as it is read from its code. -/
def readBack (i : Instruction) : Instruction :=
  { i with operands := readOperands i.pc i.op.immediates i.operands }

theorem operands?_append {pc : Nat} {forms : List Immediate} {xs : List Int}
    (h : xs.length = forms.length) (rest : Bytes) :
    operands? pc forms
        ((List.zipWith (fun form x => form.bytes pc x) forms xs).flatten ++ rest) =
      some (readOperands pc forms xs, rest) := by
  induction forms generalizing xs with
  | nil =>
      rw [List.length_eq_zero_iff.1 h]
      rfl
  | cons form forms ih =>
      cases xs with
      | nil => cases h
      | cons x xs =>
          have hsplit : ∀ back, Bytes.split? form.width (form.bytes pc x ++ back) =
              some (form.bytes pc x, back) := by
            have hlen : (form.bytes pc x).length = form.width := BigEndian.length_bytes _ _
            have happend := Bytes.split?_append (form.bytes pc x)
            rwa [hlen] at happend
          rw [List.zipWith_cons_cons, List.flatten_cons, List.append_assoc, operands?, hsplit]
          simp only [ih (Nat.succ.inj h), Option.map_some]
          rfl

/-- One instruction more is decoded. -/
theorem decodeFrom_encode {i : Instruction} (h : i.operands.length = i.op.immediates.length)
    (rest : Bytes) (acc : Array Instruction) :
    decodeFrom i.pc (i.encode ++ rest) acc =
      decodeFrom (i.pc + i.op.size) rest (acc.push i.readBack) := by
  rw [encode, List.cons_append, decodeFrom, Opcode.ofByte?_byte]
  simp only
  split
  · next hnone =>
      rw [operands?_append h] at hnone
      cases hnone
  · next operands rest' hsome =>
      rw [operands?_append h] at hsome
      rcases Prod.mk.inj (Option.some.inj hsome) with ⟨rfl, rfl⟩
      rfl

theorem decodeFrom_bytes {target : Nat → Label → Int} {pc : Nat} {is : List Item}
    (h : ∀ i ∈ is, i.WellFormed) (acc : Array Instruction) :
    decodeFrom pc (Item.bytes target pc is) acc =
      .ok (acc ++ ((Item.instructions target pc is).map readBack).toArray) := by
  induction is generalizing pc acc with
  | nil => simp [Item.instructions, decodeFrom]
  | cons i is ih =>
      have hi := h i List.mem_cons_self
      have ih : ∀ acc, decodeFrom (pc + i.size) (Item.bytes target (pc + i.size) is) acc = _ :=
        ih fun j hj => h j (List.mem_cons_of_mem i hj)
      rw [Item.bytes_cons, Item.instructions_cons]
      cases i with
      | instruction op operands =>
          refine (decodeFrom_encode (i := ⟨pc, op, operands⟩) hi.2 _ _).trans ((ih _).trans ?_)
          simp [Item.instruction?]
      | jump op l =>
          have hlen := congrArg List.length (Opcode.immediates_of_isJump hi)
          refine (decodeFrom_encode (i := ⟨pc, op, [target pc l]⟩) hlen.symm _ _).trans
            ((ih _).trans ?_)
          simp [Item.instruction?]
      | call address =>
          refine (decodeFrom_encode (i := ⟨pc, .call, [address]⟩) rfl _ _).trans ((ih _).trans ?_)
          simp [Item.instruction?]
      | _ => exact ih acc

/-- The bytes of symbolic code are decoded to its instructions. -/
theorem decode_bytes {target : Nat → Label → Int} {is : List Item} (h : ∀ i ∈ is, i.WellFormed) :
    decode (Item.bytes target 0 is) =
      .ok ((Item.instructions target 0 is).map readBack).toArray := by
  rw [decode, decodeFrom_bytes h]
  simp

/-- The way to a target that is not too far is read back from the code. -/
theorem value_offset {pc : Nat} {t : Int} (h : Emitter.isFar (t - pc) = false) :
    Immediate.offset.value pc (Immediate.offset.bytes pc t) = t := by
  simp only [Emitter.isFar, Bool.or_eq_false_iff, decide_eq_false_iff_not, Int.not_lt] at h
  change (pc : Int) + BigEndian.intValue (BigEndian.bytes 2 (t - pc)) = t
  have hrange : (BigEndian.range 2 : Int) = 65536 := rfl
  rw [BigEndian.intValue_bytes (by omega) (by omega)]
  omega

theorem immediates_of_hasTarget {op : Opcode} (h : op.hasTarget = true) :
    op.immediates = [.offset] := by
  cases op <;> first | rfl | cases h

/-- A target that is not too far is read back from the code. -/
theorem target?_readBack {pc : Nat} {op : Opcode} {t : Int} (hop : op.hasTarget = true)
    (h : Emitter.isFar (t - pc) = false) :
    (readBack { pc, op, operands := [t] }).target? = some t := by
  change (if op.hasTarget then (readOperands pc op.immediates [t]).head? else none) = _
  rw [if_pos hop, immediates_of_hasTarget hop]
  exact congrArg some (value_offset h)

end Instruction

end MicroJava
