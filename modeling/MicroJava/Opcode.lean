/-!
# Instructions of the machine

The operations of the stack machine with their names, their byte values and the immediate operands
that follow them in the code. `Opcode.all` lists them by byte value, counted from one, and
`Opcode.ofByte?` reads an operation back (`ofByte?_byte`); it accepts nothing else
(`byte_of_ofByte?`). A `Relation` is an operator that compares two numbers or references, with the
jump that is taken when it holds.
-/

namespace MicroJava

/-- The operations, in the order of their byte values. -/
inductive Opcode where
  | load | load0 | load1 | load2 | load3
  | store | store0 | store1 | store2 | store3
  | getStatic | putStatic | getField | putField
  | const0 | const1 | const2 | const3 | const4 | const5 | constM1 | const
  | add | sub | mul | div | rem | neg | shl | shr | inc
  | new | newArray | aload | astore | baload | bastore | arrayLength
  | pop | dup | dup2
  | jmp | jeq | jne | jlt | jle | jgt | jge
  | call | ret | enter | exit
  | read | print | bread | bprint
  | trap | nop
  deriving DecidableEq, Inhabited

/-- The forms of immediate operands. An `offset` leads from the operation to the target of a jump or
call. -/
inductive Immediate where
  | byte
  | signedByte
  | word
  | offset
  | constant
  deriving DecidableEq, Inhabited

/-- The number of bytes of an immediate operand. -/
def Immediate.width : Immediate → Nat
  | byte | signedByte => 1
  | word | offset => 2
  | constant => 4

/-- The number of bytes of all the immediate operands of an operation. -/
def Immediate.totalWidth : List Immediate → Nat
  | [] => 0
  | form :: forms => form.width + totalWidth forms

namespace Opcode

/-- All operations by byte value; the first one has the byte value one. -/
def all : Array Opcode :=
  #[load, load0, load1, load2, load3, store, store0, store1, store2, store3, getStatic, putStatic,
    getField, putField, const0, const1, const2, const3, const4, const5, constM1, const, add, sub,
    mul, div, rem, neg, shl, shr, inc, new, newArray, aload, astore, baload, bastore, arrayLength,
    pop, dup, dup2, jmp, jeq, jne, jlt, jle, jgt, jge, call, ret, enter, exit, read, print, bread,
    bprint, trap, nop]

/-- The byte value of an operation. -/
def byte (op : Opcode) : UInt8 :=
  UInt8.ofNat (op.ctorIdx + 1)

/-- The operation with the byte value `b`. -/
def ofByte? (b : UInt8) : Option Opcode :=
  if b = 0 then none else all[b.toNat - 1]?

/-- The immediate operands of an operation. -/
def immediates : Opcode → List Immediate
  | load | store | newArray | trap => [.byte]
  | inc => [.byte, .signedByte]
  | enter => [.byte, .byte]
  | getStatic | putStatic | getField | putField | new => [.word]
  | jmp | jeq | jne | jlt | jle | jgt | jge | call => [.offset]
  | const => [.constant]
  | _ => []

/-- The number of bytes of an instruction. -/
def size (op : Opcode) : Nat :=
  1 + Immediate.totalWidth op.immediates

/-- Whether an operation is a jump inside a method. -/
def isJump : Opcode → Bool
  | jmp | jeq | jne | jlt | jle | jgt | jge => true
  | _ => false

/-- Whether an operation names an address in the code. -/
def hasTarget (op : Opcode) : Bool :=
  op.isJump || op = call

/-- The name of an operation in a listing. -/
def name : Opcode → String
  | load => "load"
  | load0 => "load_0"
  | load1 => "load_1"
  | load2 => "load_2"
  | load3 => "load_3"
  | store => "store"
  | store0 => "store_0"
  | store1 => "store_1"
  | store2 => "store_2"
  | store3 => "store_3"
  | getStatic => "getstatic"
  | putStatic => "putstatic"
  | getField => "getfield"
  | putField => "putfield"
  | const0 => "const_0"
  | const1 => "const_1"
  | const2 => "const_2"
  | const3 => "const_3"
  | const4 => "const_4"
  | const5 => "const_5"
  | constM1 => "const_m1"
  | const => "const"
  | add => "add"
  | sub => "sub"
  | mul => "mul"
  | div => "div"
  | rem => "rem"
  | neg => "neg"
  | shl => "shl"
  | shr => "shr"
  | inc => "inc"
  | new => "new"
  | newArray => "newarray"
  | aload => "aload"
  | astore => "astore"
  | baload => "baload"
  | bastore => "bastore"
  | arrayLength => "arraylength"
  | pop => "pop"
  | dup => "dup"
  | dup2 => "dup2"
  | jmp => "jmp"
  | jeq => "jeq"
  | jne => "jne"
  | jlt => "jlt"
  | jle => "jle"
  | jgt => "jgt"
  | jge => "jge"
  | call => "call"
  | ret => "return"
  | enter => "enter"
  | exit => "exit"
  | read => "read"
  | print => "print"
  | bread => "bread"
  | bprint => "bprint"
  | trap => "trap"
  | nop => "nop"

/-- The operation that a listing calls `name`. -/
def ofName? (name : String) : Option Opcode :=
  all.find? (·.name == name)

theorem ofByte?_byte (op : Opcode) : ofByte? op.byte = some op := by
  cases op <;> rfl

theorem byte_of_ofByte? {b : UInt8} {op : Opcode} (h : ofByte? b = some op) : op.byte = b := by
  have key : ∀ n : Fin 256, ∀ op, ofByte? (UInt8.ofNat n.val) = some op →
      op.byte = UInt8.ofNat n.val := by
    decide +kernel
  simpa using key b.toFin op (by simpa using h)

end Opcode

/-- The operators that compare two operands. -/
inductive Relation where
  | eq
  | ne
  | lt
  | le
  | gt
  | ge
  deriving DecidableEq, Inhabited

namespace Relation

/-- The relation that holds exactly when the given one does not. -/
def negation : Relation → Relation
  | eq => ne
  | ne => eq
  | lt => ge
  | le => gt
  | gt => le
  | ge => lt

/-- The jump that is taken when the relation holds. -/
def jump : Relation → Opcode
  | eq => .jeq
  | ne => .jne
  | lt => .jlt
  | le => .jle
  | gt => .jgt
  | ge => .jge

/-- Whether a relation asks for equality only, and so applies to references. -/
def isEquality : Relation → Bool
  | eq | ne => true
  | _ => false

@[simp] theorem negation_negation (r : Relation) : r.negation.negation = r := by
  cases r <;> rfl

end Relation

end MicroJava
