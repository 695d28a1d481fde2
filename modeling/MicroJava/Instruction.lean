import MicroJava.BigEndian
import MicroJava.Bytes
import MicroJava.ImageError

/-!
# Instructions in the code

An instruction has an address, an operation and the values of its immediate operands. The operand of
a jump or call is the address it leads to; in the code it is written as the way there from the
instruction. `Instruction.encode` writes one instruction and `Instruction.decode` reads a whole
code, from the first byte to the last.
-/

namespace MicroJava

namespace Immediate

/-- The value that the bytes of an operand stand for in the instruction at `pc`. -/
def value (pc : Nat) (bs : Bytes) : Immediate → Int
  | byte | word => BigEndian.natValue bs
  | signedByte | constant => BigEndian.intValue bs
  | offset => pc + BigEndian.intValue bs

/-- The bytes of an operand with the value `x` in the instruction at `pc`. -/
def bytes (pc : Nat) (x : Int) (form : Immediate) : Bytes :=
  BigEndian.bytes form.width (if form = offset then x - pc else x)

end Immediate

/-- An operation at an address, with the values of its immediate operands. -/
structure Instruction where
  pc : Nat
  op : Opcode
  operands : List Int
  deriving DecidableEq, Inhabited

namespace Instruction

/-- The address that a jump or call leads to. -/
def target? (i : Instruction) : Option Int :=
  if i.op.hasTarget then i.operands.head? else none

/-- The bytes of an instruction. -/
def encode (i : Instruction) : Bytes :=
  i.op.byte :: (List.zipWith (fun form x => form.bytes i.pc x) i.op.immediates i.operands).flatten

/-- The operands at the beginning of `bs` in the instruction at `pc`, and the bytes after them. -/
def operands? (pc : Nat) : List Immediate → Bytes → Option (List Int × Bytes)
  | [], bs => some ([], bs)
  | form :: forms, bs =>
    match Bytes.split? form.width bs with
    | none => none
    | some (front, rest) =>
      (operands? pc forms rest).map fun (xs, rest) => (form.value pc front :: xs, rest)

theorem length_of_operands? {pc : Nat} {forms : List Immediate} {bs rest : Bytes} {xs : List Int}
    (h : operands? pc forms bs = some (xs, rest)) :
    Immediate.totalWidth forms + rest.length = bs.length := by
  induction forms generalizing bs xs with
  | nil => simp_all [operands?, Immediate.totalWidth]
  | cons form forms ih =>
    rw [operands?] at h
    split at h
    · cases h
    · next front back hsplit =>
      obtain ⟨⟨ys, tail⟩, hys, heq⟩ := Option.map_eq_some_iff.1 h
      obtain ⟨-, rfl⟩ := Prod.mk.inj heq
      have hback := ih hys
      have hfront := Bytes.length_of_split? hsplit
      simp only [Immediate.totalWidth]
      omega

/-- The instructions of the code `bs`, which begins at `pc`, after those in `acc`. -/
def decodeFrom (pc : Nat) (bs : Bytes) (acc : Array Instruction) :
    Except ImageError (Array Instruction) :=
  match bs with
  | [] => .ok acc
  | b :: bs =>
    match Opcode.ofByte? b with
    | none => .error (.unknownOpcode b pc)
    | some op =>
      match _h : operands? pc op.immediates bs with
      | none => .error (.truncatedInstruction op pc)
      | some (operands, rest) => decodeFrom (pc + op.size) rest (acc.push { pc, op, operands })
termination_by bs.length
decreasing_by
  have := length_of_operands? ‹_›
  simp only [List.length_cons]
  omega

/-- The instructions of a code. -/
def decode (code : Bytes) : Except ImageError (Array Instruction) :=
  decodeFrom 0 code #[]

end Instruction

end MicroJava
