import MicroJava.Compiler.Expr
import MicroJava.Tree.Statement

/-!
# Compiling statements

A statement is compiled for the label behind the innermost loop, which `break` jumps to, and for the
type of the value that the method returns. Every label that a statement makes is placed by the same
statement.
-/

namespace MicroJava

open Compiler

/-- What cannot be changed must not be assigned to. -/
def requireAssignable (x : Operand) : CompilerM Unit :=
  faultIf (!x.location.isAssignable) (.notAssignable x.location.describe)

/-- The operation that prints a value of the given type. -/
def printOpcode? : Ty → Option Opcode
  | .int => some .print
  | .char => some .bprint
  | _ => none

/-- The operation that reads a value of the given type. -/
def readOpcode? : Ty → Option Opcode
  | .int => some .read
  | .char => some .bread
  | _ => none

/-- Compiles `++` and `--` after the designator, as the addition of `n`. -/
def compileStep (x : Operand) (n : Int) : CompilerM Unit := do
  faultIf (x.type ≠ .int) .notInt
  requireAssignable x
  shift
  increment x n

namespace Tree

/-- Compiles the assignment of a value, or of what an operator makes of it and the value before. -/
def compileAssignment (x : Operand) (op : AssignOp) (value : Expr) : CompilerM Unit := do
  match op.opcode? with
  | none =>
    let y ← value.compile
    inspect [y.type, x.type]
    faultIf (!y.type.assignable x.type) .incompatible
    let _ ← Compiler.assign x y
  | some operation =>
    prepareUpdate x
    let y ← value.compile
    requireInts x y
    let _ ← update x y operation

/-- Compiles what happens to a designator. -/
def Action.compile (x : Operand) : Action → CompilerM Unit
  | .assign op value => do
    requireAssignable x
    shift
    compileAssignment x op value
  | .call arguments closed => do
    passArguments x (compileArguments true arguments) closed
    Compiler.call x
    if x.location.isMethod && x.type ≠ .void then emit .pop []
  | .increment => compileStep x 1
  | .decrement => compileStep x (-1)
  | .missing => fault .missingAction

/-- Compiles the condition of a statement in its parentheses, and jumps to the label for falsehood
unless it holds. Yields that label. -/
def compileGuard (opened : Bool) (condition : Condition) (closed : Bool) : CompilerM Label := do
  expect .leftParen opened
  let (r, whenTrue, whenFalse) ← condition.compile
  jumpUnless r whenFalse
  place whenTrue
  expect .rightParen closed
  return whenFalse

/-- Compiles a jump behind the innermost loop. -/
def compileBreak : Option Label → CompilerM Unit
  | some l => jump l
  | none => fault .breakOutsideLoop

/-- Compiles the value that a method of the given type returns. -/
def compileReturned (result : Ty) : Option Expr → CompilerM Unit
  | some e => do
    faultIf (result = .void) .valueInVoid
    let x ← e.compile
    inspect [x.type, result]
    faultIf (!x.type.assignable result) .resultMismatch
    let _ ← load x
  | none => faultIf (result ≠ .void) .valueMissing

/-- Reads a value of the given type onto the stack. -/
def readValue (type : Ty) : CompilerM Unit :=
  match readOpcode? type with
  | some op => emit op []
  | none => fault .unreadable

/-- The width of a printed value; it is zero unless one is given. -/
def compileWidth : Option (Option Int) → CompilerM Int
  | some n => do
    shift
    expectNumber 0 n
  | none => return 0

mutual

/-- Compiles a statement, and marks where it begins. -/
def Statement.compile (behindLoop : Option Label) (result : Ty) (s : Statement) :
    CompilerM Unit := do
  write .statement
  match s with
  | .action d a ended => do
    let x ← d.compile
    a.compile x
    expect .semicolon ended
  | .ifThen opened condition closed body => do
    shift
    let whenFalse ← compileGuard opened condition closed
    body.compile behindLoop result
    place whenFalse
  | .ifThenElse opened condition closed body other => do
    shift
    let whenFalse ← compileGuard opened condition closed
    body.compile behindLoop result
    shift
    let behind ← newLabel
    jump behind
    place whenFalse
    other.compile behindLoop result
    place behind
  | .whileDo opened condition closed body => do
    shift
    let top ← newLabel
    place top
    let whenFalse ← compileGuard opened condition closed
    body.compile (some whenFalse) result
    jump top
    place whenFalse
  | .leave ended => do
    shift
    compileBreak behindLoop
    expect .semicolon ended
  | .give value ended => do
    shift
    compileReturned result value
    emit .exit []
    emit .ret []
    expect .semicolon ended
  | .read opened d closed ended => do
    shift
    expect .leftParen opened
    let x ← d.compile
    requireAssignable x
    readValue x.type
    let _ ← Compiler.assign x (Operand.stack x.type)
    expect .rightParen closed
    expect .semicolon ended
  | .print opened value width closed ended => do
    shift
    expect .leftParen opened
    let x ← value.compile
    let op := printOpcode? x.type
    faultIf op.isNone .unprintable
    let _ ← load x
    let n ← compileWidth width
    emitAll [pushConstant n, (op.getD .print, [])]
    expect .rightParen closed
    expect .semicolon ended
  | .block statements closed => do
    shift
    compileStatements behindLoop result statements
    expect .rightBrace closed
  | .empty => shift
  | .missing => fault .invalidStatement
  | .skipped more => skip .invalidStatement more

/-- Compiles statements one after the other. -/
def compileStatements (behindLoop : Option Label) (result : Ty) :
    List Statement → CompilerM Unit
  | [] => pure ()
  | s :: ss => do
    s.compile behindLoop result
    compileStatements behindLoop result ss

end

end Tree

end MicroJava
