import MicroJava.Emitter
import MicroJava.SymbolTable

/-!
# Operands

While an expression is compiled its value need not be on the stack of the machine: it may be a
constant, or stand in a variable, and only the operation that needs it decides whether it is loaded
or stored. An `Operand` says where a value is and what type it has. `Operand.loadCode?` and
`Operand.storeCode?` are the instructions that bring it to the stack and back; both are partial,
because a method is no value and a constant cannot be changed (`isSome_storeCode?`).
-/

namespace MicroJava

/-- Where a value is. The reference of the object that a field belongs to is on the stack, and so
are the reference and the index of an array element. A condition is a comparison whose outcome
decides between two labels. -/
inductive Location where
  | constant (value : Int)
  | localVar (slot : Int)
  | globalVar (address : Int)
  | stack
  | field (offset : Int)
  | element
  | method (id : SymbolId)
  | condition (relation : Relation) (whenTrue whenFalse : Label)
  deriving DecidableEq, Inhabited

/-- A value that is being worked with: where it is, and its type. -/
structure Operand where
  location : Location
  type : Ty
  deriving DecidableEq, Inhabited

/-- An operation with the values of its immediate operands. -/
abbrev Operation := Opcode × List Int

namespace Location

/-- How a message names what cannot be assigned to. -/
def describe : Location → String
  | constant _ => "constant"
  | localVar _ => "local variable"
  | globalVar _ => "global variable"
  | stack => "value"
  | field _ => "field"
  | element => "array element"
  | method _ => "method"
  | condition .. => "condition"

/-- Whether the value there can be changed. -/
def isAssignable : Location → Bool
  | localVar _ | globalVar _ | field _ | element => true
  | _ => false

/-- Whether it is a method. -/
def isMethod : Location → Bool
  | method _ => true
  | _ => false

end Location

/-- The shortest operation that pushes the integer `n`. -/
def pushConstant (n : Int) : Operation :=
  if n = -1 then (.constM1, [])
  else if n = 0 then (.const0, [])
  else if n = 1 then (.const1, [])
  else if n = 2 then (.const2, [])
  else if n = 3 then (.const3, [])
  else if n = 4 then (.const4, [])
  else if n = 5 then (.const5, [])
  else (.const, [n])

/-- The shortest operation that pushes the local variable in a slot. -/
def pushLocal (slot : Int) : Operation :=
  if slot = 0 then (.load0, [])
  else if slot = 1 then (.load1, [])
  else if slot = 2 then (.load2, [])
  else if slot = 3 then (.load3, [])
  else (.load, [slot])

/-- The shortest operation that pops a value into the local variable in a slot. -/
def popLocal (slot : Int) : Operation :=
  if slot = 0 then (.store0, [])
  else if slot = 1 then (.store1, [])
  else if slot = 2 then (.store2, [])
  else if slot = 3 then (.store3, [])
  else (.store, [slot])

namespace Operand

/-- A constant of the given type. -/
def constant (value : Int) (type : Ty) : Operand := ⟨.constant value, type⟩

/-- A value on the stack. -/
def stack (type : Ty) : Operand := ⟨.stack, type⟩

/-- The operand as it is after its value was pushed. -/
def onStack (x : Operand) : Operand := { x with location := .stack }

/-- The operand that a declared name stands for. Types and programs stand for none. -/
def ofSymbol? (s : Symbol) (id : SymbolId) : Option Operand :=
  match s.kind with
  | .constant => some ⟨.constant s.value, s.type⟩
  | .variable =>
    some ⟨if s.level = 0 then .globalVar s.address else .localVar s.address, s.type⟩
  | .method => some ⟨.method id, s.type⟩
  | .type | .program => none

/-- The instructions that push the value of an operand. -/
def loadCode? (x : Operand) : Option (List Operation) :=
  match x.location with
  | .constant n => some [pushConstant n]
  | .localVar slot => some [pushLocal slot]
  | .globalVar address => some [(.getStatic, [address])]
  | .stack => some []
  | .field offset => some [(.getField, [offset])]
  | .element => some [(if x.type = .char then .baload else .aload, [])]
  | .method _ | .condition .. => none

/-- The instructions that pop a value into the place of an operand. -/
def storeCode? (x : Operand) : Option (List Operation) :=
  match x.location with
  | .localVar slot => some [popLocal slot]
  | .globalVar address => some [(.putStatic, [address])]
  | .field offset => some [(.putField, [offset])]
  | .element => some [(if x.type = .char then .bastore else .astore, [])]
  | _ => none

/-- The instructions that push once more what is on the stack for the place of an operand, so that
the value there can be both read and changed. -/
def duplicateCode (x : Operand) : List Operation :=
  match x.location with
  | .field _ => [(.dup, [])]
  | .element => [(.dup2, [])]
  | _ => []

/-- A value can be stored exactly where it can be changed. -/
theorem isSome_storeCode? (x : Operand) : x.storeCode?.isSome = x.location.isAssignable := by
  rcases x with ⟨location, type⟩
  cases location <;> rfl

end Operand

end MicroJava
