import MicroJava.Compiler.Operand
import MicroJava.Tree.Expr

/-!
# Compiling expressions

The code of an expression is written while its tree is walked from the left to the right, and each
step checks the types of what it combines. A value is pushed as late as possible: what is left of
an expression is an operand, which its user loads, stores to or calls.

A condition leaves a comparison whose outcome is not yet acted upon. When a conjunction goes on, the
comparison before jumps to the label for falsehood unless it holds; when a disjunction goes on, the
one before jumps to the label for truth if it holds, and the label for falsehood of what was before
is placed there.
-/

namespace MicroJava

open Compiler

/-- The greatest exponent. -/
def maxExponent : Int := 255

/-- The instructions that raise the value on the stack to the power `k`. -/
def powerCode (k : Int) : List Operation :=
  if k = 0 then [(.pop, []), (.const1, [])]
  else
    let n := (k - 1).toNat
    List.replicate n (.dup, []) ++ List.replicate n (.mul, [])

/-- The types of the parameters of what is called. -/
def formalTypes (x : Operand) : CompilerM (List Ty) := do
  match x.location with
  | .method id =>
    let parameters ← symbols (← symbol id).parameters
    return (parameters.map Symbol.type).toList
  | _ =>
    fault .notMethod
    return []

/-- The type that a name stands for; any other name is a fault. -/
def findType (name : String) : CompilerM Ty := do
  let s ← symbol (← find name)
  faultIf (s.kind ≠ .type) .notType
  return s.type

/-- Both operands of an arithmetic operation must be numbers. -/
def requireInts (x y : Operand) : CompilerM Unit :=
  faultIf (x.type ≠ .int || y.type ≠ .int) .notInt

/-- Checks an argument that was pushed against the parameters that are left. -/
def passArgument (x : Operand) : List Ty → CompilerM (List Ty)
  | formal :: formals => do
    inspect [x.type, formal]
    faultIf (!x.type.assignable formal) .argumentMismatch
    return formals
  | [] => do
    fault .tooManyArguments
    return []

/-- Compiles a call of what an operand stands for, from the opening parenthesis on. The step `pass`
compiles the arguments for parameters of the given types, and yields the types of the parameters
that got none. -/
def passArguments (x : Operand) (pass : List Ty → CompilerM (List Ty)) (closed : Bool) :
    CompilerM Unit := do
  shift
  let left ← pass (← formalTypes x)
  faultIf (!left.isEmpty) .tooFewArguments
  expect .rightParen closed

/-- The integer that a word of the machine holds for `n`. -/
def wrapWord (n : Int) : Int :=
  n.bmod 4294967296

/-- The negation of a number that is an operand. That of a constant is known. -/
def negate (x : Operand) : CompilerM Operand :=
  match x.location with
  | .constant n => pure { x with location := .constant (wrapWord (-n)) }
  | _ => do
    let x ← load x
    emit .neg []
    return x

namespace Tree

mutual

/-- Compiles a sum. -/
def Expr.compile : Expr → CompilerM Operand
  | .term t => t.compile
  | .neg t => do
    shift
    let x ← t.compile
    faultIf (x.type ≠ .int) .notInt
    negate x
  | .add e op t => do
    let x ← e.compile
    shift
    let x ← load x
    let y ← load (← t.compile)
    requireInts x y
    emit op.opcode []
    return x

/-- Compiles a product. -/
def Term.compile : Term → CompilerM Operand
  | .factor f => f.compile
  | .mul t op f => do
    let x ← t.compile
    shift
    let x ← load x
    let y ← load (← f.compile)
    requireInts x y
    emit op.opcode []
    return x
  | .power t exponent => do
    let x ← t.compile
    shift
    let k ← expectNumber 1 exponent
    faultIf (x.type ≠ .int) .notInt
    faultIf (maxExponent < k) .exponentTooLarge
    let x ← load x
    emitAll (powerCode (if maxExponent < k then 1 else k))
    return x

/-- Compiles a factor. -/
def Factor.compile : Factor → CompilerM Operand
  | .designator d => d.compile
  | .call d arguments closed => do
    let x ← d.compile
    passArguments x (fun formals => compileArguments true arguments formals) closed
    faultIf (x.location.isMethod && x.type = .void) .voidInExpression
    call x
    return x.onStack
  | .number n => do
    shift
    return Operand.constant n .int
  | .char n => do
    shift
    return Operand.constant n .char
  | .newObject name => do
    shift
    let type ← findType (← expectName name)
    inspect [type]
    faultIf (type.shape ≠ .object) .notClass
    emit .new [(← fields type).size]
    return Operand.stack type
  | .newArray name size closed => do
    shift
    let element ← findType (← expectName name)
    shift
    let n ← size.compile
    faultIf (n.type ≠ .int) .sizeNotInt
    let _ ← load n
    emit .newArray [if element = .char then 0 else 1]
    expect .rightBracket closed
    return Operand.stack (← newArray element)
  | .group e closed => do
    shift
    let x ← e.compile
    expect .rightParen closed
    return x
  | .missing => do
    fault .invalidFactor
    return Operand.stack .void

/-- Compiles a designator. -/
def Designator.compile : Designator → CompilerM Operand
  | .name n => do
    operandOf (← find (← expectName n))
  | .field d n => do
    let x ← d.compile
    inspect [x.type]
    faultIf (x.type.shape ≠ .object) .notObject
    shift
    let x ← load x
    let f ← symbol (← findField x.type (← expectName n))
    return ⟨.field f.address, f.type⟩
  | .element d index closed => do
    let x ← d.compile
    shift
    let x ← load x
    inspect [x.type]
    faultIf (x.type.shape ≠ .array) .notArray
    let i ← index.compile
    faultIf (i.type ≠ .int) .indexNotInt
    let _ ← load i
    expect .rightBracket closed
    return ⟨.element, x.type.element⟩

/-- Compiles arguments for parameters of the given types, and yields the types of the parameters
that got none. A comma stands before each argument but the first one. -/
def compileArguments (first : Bool) : List Expr → List Ty → CompilerM (List Ty)
  | [], formals => pure formals
  | e :: es, formals => do
    shiftUnless first
    let x ← load (← e.compile)
    let formals ← passArgument x formals
    compileArguments false es formals

end

/-- Passes the operator of a comparison. Equality stands in for one that is not there. -/
def compileRelation : Option Relation → CompilerM Relation
  | some r => do
    shift
    return r
  | none => do
    fault .missingRelation
    return .eq

/-- Compiles a comparison, and yields the relation it asks for. -/
def Comparison.compile (c : Comparison) : CompilerM Relation := do
  let x ← load (← c.left.compile)
  let relation ← compileRelation c.relation
  let y ← load (← c.right.compile)
  inspect [x.type, y.type]
  faultIf (!x.type.compatible y.type) .incompatible
  faultIf ((x.type.isReference || y.type.isReference) && !relation.isEquality) .onlyEquality
  return relation

/-- Compiles a conjunction whose label for falsehood is `whenFalse`, and yields the relation of its
last comparison. -/
def Conjunction.compile (whenFalse : Label) : Conjunction → CompilerM Relation
  | .comparison c => c.compile
  | .and cs c => do
    let r ← cs.compile whenFalse
    jumpUnless r whenFalse
    shift
    c.compile

/-- Compiles a condition whose label for truth is `whenTrue` and whose first label for falsehood is
`whenFalse`. Yields the relation of its last comparison and its last label for falsehood. -/
def Condition.compileWith (whenTrue whenFalse : Label) : Condition → CompilerM (Relation × Label)
  | .conjunction c => do
    let r ← c.compile whenFalse
    return (r, whenFalse)
  | .or cs c => do
    let (r, f) ← cs.compileWith whenTrue whenFalse
    jumpIf r whenTrue
    shift
    place f
    let f ← newLabel
    let r ← c.compile f
    return (r, f)

/-- Compiles a condition. Yields the relation of its last comparison and its labels for truth and
for falsehood. -/
def Condition.compile (c : Condition) : CompilerM (Relation × Label × Label) := do
  let whenTrue ← newLabel
  let whenFalse ← newLabel
  let (r, f) ← c.compileWith whenTrue whenFalse
  return (r, whenTrue, f)

end Tree

end MicroJava
