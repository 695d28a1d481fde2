import MicroJava.Compiler.State

/-!
# Work with operands

Loading, storing and updating the value of an operand, and calling a method. A value is stored after
the stack was prepared for its place, so whatever an operand is, its reference and index are
computed once.
-/

namespace MicroJava.Compiler

/-- The operand that a declared name stands for. -/
def operandOf (id : SymbolId) : CompilerM Operand := do
  match Operand.ofSymbol? (← symbol id) id with
  | some x => return x
  | none => do
    fault .notOperand
    return Operand.constant 0 .void

/-- Pushes the value of an operand. -/
def load (x : Operand) : CompilerM Operand := do
  match x.loadCode? with
  | some operations => emitAll operations
  | none => fault .notValue
  return x.onStack

/-- Pops a value into the place of an operand. -/
def store (x : Operand) : CompilerM Unit :=
  match x.storeCode? with
  | some operations => emitAll operations
  | none => fault .notValue

/-- Assigns the value of `y` to `x`. -/
def assign (x y : Operand) : CompilerM Operand := do
  let y ← load y
  store x
  return y

/-- Pushes the value of `x` so that a new one can be stored there. -/
def prepareUpdate (x : Operand) : CompilerM Unit := do
  emitAll x.duplicateCode
  let _ ← load x

/-- Combines the value of `x`, which `prepareUpdate` has pushed, with that of `y` and stores the
outcome in `x`. -/
def update (x y : Operand) (op : Opcode) : CompilerM Operand := do
  let y ← load y
  emit op []
  store x
  return y

/-- Adds the number `n` to the value of `x`. -/
def increment (x : Operand) (n : Int) : CompilerM Unit := do
  let general : CompilerM Unit := do
    prepareUpdate x
    let _ ← update x (Operand.constant n .int) .add
  match x.location with
  | .localVar slot => if -128 ≤ n ∧ n ≤ 127 then emit .inc [slot, n] else general
  | _ => general

/-- Calls the method that an operand stands for; the arguments are on the stack. Conversions between
numbers and characters need no code. -/
def call (x : Operand) : CompilerM Unit := do
  match x.location with
  | .method id =>
    if id = SymbolTable.ordId ∨ id = SymbolTable.chrId then pure ()
    else if id = SymbolTable.lenId then emit .arrayLength []
    else
      let address := (← symbol id).address
      write (.call address)
  | _ => pure ()

end MicroJava.Compiler
