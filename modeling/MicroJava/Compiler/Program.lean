import MicroJava.Compiler.Statement
import MicroJava.Tree.Program

/-!
# Compiling programs

Declarations make symbols, and methods make code as well. A method begins with `enter` and ends with
`exit` and `return`, or with a trap if it must return a value and its end is reached all the same.
Execution begins at the method called `main`.
-/

namespace MicroJava

open Compiler

/-- The greatest number of global variables of a program. -/
def maxGlobals : Nat := 32767

/-- The greatest number of fields of a class. -/
def maxFields : Nat := 32767

/-- The greatest number of variables of a method, parameters included. -/
def maxLocals : Nat := 127

/-- The name of the method where execution begins. -/
def mainName : String := "main"

namespace Tree

/-- Compiles a mention of a type. -/
def TypeName.compile (t : TypeName) : CompilerM Ty := do
  let type ← findType (← expectName t.name)
  match t.array with
  | none => return type
  | some closed => do
    shift
    expect .rightBracket closed
    newArray type

/-- Declares a variable of the given type. -/
def declareVariable (type : Ty) (name : Option String) : CompilerM Unit := do
  let _ ← declare .variable (← expectName name) type

/-- Declares variables of one type. -/
def VariableDecl.compile (d : VariableDecl) : CompilerM Unit := do
  let type ← d.type.compile
  declareVariable type d.first
  d.others.forM fun name => do
    shift
    declareVariable type name
  expect .semicolon d.ended

/-- The value of a constant of the given type is passed, or is not there. -/
def ConstantValue.compile (type : Ty) (id : SymbolId) : ConstantValue → CompilerM Unit
  | .number value => take .int value
  | .char value => take .char value
  | .missing => fault .missingConstant
where
  take (shape : TyShape) (value : Int) : CompilerM Unit := do
    inspect [type]
    faultIf (type.shape ≠ shape) .constantMismatch
    shift
    modifySymbol id ({ · with value })

/-- Declares a constant. -/
def ConstantDecl.compile (d : ConstantDecl) : CompilerM Unit := do
  shift
  let type ← d.type.compile
  let id ← declare .constant (← expectName d.name) type
  expect .assign d.assigned
  d.value.compile type id
  expect .semicolon d.ended

/-- Declares fields in a scope of their own, and yields them. -/
def compileFields (fields : List VariableDecl) : CompilerM (Array SymbolId) := do
  openScope
  fields.forM VariableDecl.compile
  faultIf (maxFields < (← variableCount)) .tooManyFields
  let declared ← currentLocals
  closeScope
  return declared

/-- Declares a class. -/
def ClassDecl.compile (d : ClassDecl) : CompilerM Unit := do
  shift
  let name ← expectName d.name
  let type ← newObject
  let _ ← declare .type name type
  expect .leftBrace d.opened
  setFields type (← compileFields d.fields)
  expect .rightBrace d.closed

/-- Compiles a declaration. -/
def Declaration.compile : Declaration → CompilerM Unit
  | .constant d => d.compile
  | .globals d => d.compile
  | .object d => d.compile
  | .skipped more => skip .invalidDeclaration more

/-- Declares parameters. A comma stands before each but the first one. -/
def compileParameters (first : Bool) : List Parameter → CompilerM Unit
  | [] => pure ()
  | p :: ps => do
    shiftUnless first
    let type ← p.type.compile
    declareVariable type p.name
    compileParameters false ps

/-- The type of the value that a method returns. -/
def compileResult : Option TypeName → CompilerM Ty
  | some t => do
    let type ← t.compile
    inspect [type]
    faultIf type.isReference .referenceResult
    return type
  | none => do
    shift
    return .void

/-- Takes note of the method where execution begins. -/
def noteMain (name : String) (result : Ty) (entry parameterCount : Nat) : CompilerM Unit := do
  if name = mainName then
    modifyCode ({ · with entry := some entry })
    faultIf (result ≠ .void) .mainNotVoid
    faultIf (parameterCount ≠ 0) .mainWithParameters

/-- How a method of the given type ends. Its end must not be reached if it returns a value. -/
def endCode (result : Ty) : List Operation :=
  if result = .void then [(.exit, []), (.ret, [])] else [(.trap, [1])]

/-- A method that was declared: its symbol, name, result, address and number of parameters. -/
structure Signature where
  id : SymbolId
  name : String
  result : Ty
  entry : Nat
  parameterCount : Nat := 0
  deriving Inhabited

/-- Declares a method. -/
def MethodDecl.declare (d : MethodDecl) : CompilerM Signature := do
  let result ← compileResult d.type
  let name ← expectName d.name
  let id ← Compiler.declare .method name result
  let entry ← pc
  modifySymbol id ({ · with address := entry })
  return { id, name, result, entry }

/-- Compiles a method up to its parameters, and leaves its scope open. -/
def MethodDecl.compileSignature (d : MethodDecl) : CompilerM Signature := do
  let m ← d.declare
  expect .leftParen d.opened
  openScope
  compileParameters true d.parameters
  let parameterCount ← variableCount
  modifySymbol m.id ({ · with parameterCount })
  expect .rightParen d.closed
  noteMain m.name m.result m.entry parameterCount
  return { m with parameterCount }

/-- The debug information about a method. -/
def Signature.info (m : Signature) (localCount : Nat) : MethodInfo where
  name := m.name
  entry := UInt32.ofNat m.entry
  parameterCount := UInt32.ofNat m.parameterCount
  localCount := UInt32.ofNat localCount

/-- Compiles a method up to its statements. -/
def MethodDecl.compileHead (d : MethodDecl) : CompilerM Signature := do
  let m ← d.compileSignature
  d.locals.forM VariableDecl.compile
  let localCount ← variableCount
  faultIf (maxLocals < localCount) .tooManyLocals
  emit .enter [m.parameterCount, localCount]
  let locals ← currentLocals
  modifySymbol m.id ({ · with locals })
  let info := m.info localCount
  modify fun s => { s with debug := { s.debug with methods := s.debug.methods.push info } }
  expect .leftBrace d.bodyOpened
  return m

/-- Compiles the end of a method, after its statements. -/
def MethodDecl.compileTail (d : MethodDecl) (result : Ty) : CompilerM Unit := do
  expect .rightBrace d.bodyClosed
  closeScope
  let far ← takeFarCount
  faultIf (far ≠ 0) .methodTooLarge
  emitAll (endCode result)

/-- Compiles a method. -/
def MethodDecl.compile (d : MethodDecl) : CompilerM Unit := do
  let m ← d.compileHead
  compileStatements none m.result d.body
  d.compileTail m.result

/-- Compiles a method of a program, or passes over what is none. -/
def Member.compile : Member → CompilerM Unit
  | .method d => d.compile
  | .skipped more => skip .invalidMethod more

/-- The global variables are known: their number and their names are noted. -/
def noteGlobals : CompilerM Unit := do
  let count ← variableCount
  faultIf (maxGlobals < count) .tooManyGlobals
  let declared ← symbols (← currentLocals)
  let globals := (declared.filter (·.kind = .variable)).map Symbol.name
  modify fun s =>
    { s with code := { s.code with dataSize := count }, debug := { s.debug with globals } }

/-- Compiles a program up to its methods, and yields the number of its symbol. -/
def Program.compileHead (p : Program) : CompilerM SymbolId := do
  shift
  expect .kwProgram p.announced
  let name ← expectName p.name
  let id ← declare .program name .void
  modify fun s => { s with debug := { s.debug with program := name } }
  openScope
  p.declarations.forM Declaration.compile
  noteGlobals
  expect .leftBrace p.opened
  return id

/-- Compiles the end of a program, after its methods. -/
def Program.compileTail (p : Program) (id : SymbolId) : CompilerM Unit := do
  expect .rightBrace p.closed
  let locals ← currentLocals
  modifySymbol id ({ · with locals })
  closeScope
  faultIf (← get).code.entry.isNone (.missingMethod mainName)
  expect .eof p.complete

/-- Compiles a program. -/
def Program.compile (p : Program) : CompilerM Unit := do
  let id ← p.compileHead
  p.members.forM Member.compile
  p.compileTail id

end Tree

end MicroJava
