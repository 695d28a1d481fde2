import MicroJava.Emitter

/-!
# Symbolic code

Code is written as a sequence of items: instructions, jumps to labels and calls, and between them
the points where labels are made and placed and where statements begin. `Emitter.write` assembles
one item after the other; `Item.size` is the room that an item takes, wherever its label is placed.
-/

namespace MicroJava

/-- An item of symbolic code. An `instruction` names no address; a jump names a label and a call the
address of a method. The last three make no code. -/
inductive Item where
  | instruction (op : Opcode) (operands : List Int)
  | jump (op : Opcode) (l : Label)
  | call (address : Int)
  | label
  | place (l : Label)
  | statement
  deriving DecidableEq, Inhabited

/-- The number of bytes of an item. -/
def Item.size : Item → Nat
  | instruction op _ | jump op _ => op.size
  | call _ => Opcode.call.size
  | label | place _ | statement => 0

/-- Assembles an item. -/
def Emitter.write (e : Emitter) : Item → Emitter
  | .instruction op operands => e.emit op operands
  | .jump op l => e.jump op l
  | .call address => e.emitTo .call address
  | .label => e.addLabel
  | .place l => e.place l
  | .statement => e

end MicroJava
