import MicroJava.Compiler.Event
import MicroJava.DebugInfo
import MicroJava.Item
import MicroJava.Operand

/-!
# The state of a compilation

While a tree is compiled the symbol table, the code, the debug information and the log grow. The
steps that change one of them are defined here, each by a single change of the state; everything
else is put together from them.

Symbols, types, scopes and labels are referred to by their numbers, and room for a way by its offset. The
state remembers the first number that was used and had not been given out (`Compiler.refer`). The
history of the code is kept as symbolic code, from which `Emitter.write` makes the code. Neither
has an influence on what is compiled.
-/

namespace MicroJava

/-- What a step refers to by its number. -/
inductive Reference where
  | symbol (id : SymbolId)
  | type (id : TypeId)
  | scope (id : ScopeId)
  | label (l : Label)
  | byte (offset : Nat)
  deriving DecidableEq, Inhabited

/-- The symbol table, the code, the debug information and the log so far, with the symbolic code
that was assembled and the first reference that led nowhere. -/
structure Compiler where
  table : SymbolTable := .predeclared
  code : Emitter := .empty
  debug : DebugInfo := {}
  log : Array Event := #[]
  items : Array Item := #[]
  stray : Option Reference := none
  deriving Inhabited

/-- A step of a compilation. -/
abbrev CompilerM := StateM Compiler

namespace Compiler

/-- The state before anything was compiled. -/
def initial : Compiler := {}

/-- Whether there is what a reference names. -/
def knows (s : Compiler) : Reference → Bool
  | .symbol id => id < s.table.symbols.size
  | .type id => id < s.table.types.size
  | .scope id => id < s.table.scopeCount
  | .label l => l < s.code.labels.size
  | .byte offset => offset < s.code.code.size

/-- Things are referred to. The first reference that leads nowhere is remembered. -/
def refer (rs : List Reference) : CompilerM Unit :=
  modify fun s => { s with stray := s.stray.or (rs.find? fun r => !s.knows r) }

/-! ### The log -/

/-- Adds an entry to the log. -/
def record (e : Event) : CompilerM Unit :=
  modify fun s => { s with log := s.log.push e }

/-- There is a fault. -/
def fault (m : Message) : CompilerM Unit :=
  record (.fault m)

/-- There is a fault if the condition holds. -/
def faultIf (condition : Bool) (m : Message) : CompilerM Unit :=
  if condition then fault m else pure ()

/-- A token is passed. -/
def shift : CompilerM Unit :=
  record .shift

/-- The comma before each but the first one of several things is passed. -/
def shiftUnless (first : Bool) : CompilerM Unit :=
  if first then pure () else shift

/-- As many tokens are passed. -/
def shifts (n : Nat) : CompilerM Unit :=
  modify fun s => { s with log := s.log ++ Array.replicate n .shift }

/-- Reading resumes after tokens were passed over. -/
def resync : CompilerM Unit :=
  record .resync

/-- Tokens that begin nothing are passed over: one, and `more`. -/
def skip (m : Message) (more : Nat) : CompilerM Unit := do
  fault m
  shifts (more + 1)
  resync

/-- A token of the given kind is expected, and is passed if it was found. -/
def expect (kind : Kind) (found : Bool) : CompilerM Unit :=
  if found then shift else fault (.expected kind)

/-- A name is expected. The empty name stands in for one that is not there. -/
def expectName : Option String → CompilerM String
  | some name => do
    shift
    return name
  | none => do
    fault (.expected .ident)
    return ""

/-- A number is expected. The value `substitute` stands in for one that is not there. -/
def expectNumber (substitute : Int) : Option Int → CompilerM Int
  | some n => do
    shift
    return n
  | none => do
    fault (.expected .number)
    return substitute

/-! ### The symbol table -/

/-- Changes the symbol table. -/
def modifyTable (f : SymbolTable → SymbolTable) : CompilerM Unit :=
  modify fun s => { s with table := f s.table }

/-- The symbol numbered `id`. -/
def symbol (id : SymbolId) : CompilerM Symbol := do
  refer [.symbol id]
  return (← get).table.symbol id

/-- The symbols with the given numbers. -/
def symbols (ids : Array SymbolId) : CompilerM (Array Symbol) := do
  refer (ids.toList.map .symbol)
  let t := (← get).table
  return ids.map t.symbol

/-- Changes the symbol numbered `id`. -/
def modifySymbol (id : SymbolId) (f : Symbol → Symbol) : CompilerM Unit := do
  refer [.symbol id]
  modifyTable (·.modifySymbol id f)

/-- The innermost scope. -/
def scope : CompilerM Scope := do
  refer [.scope (← get).table.current.id]
  return (← get).table.current

/-- Opens a scope. -/
def openScope : CompilerM Unit :=
  modifyTable (·.openScope)

/-- Closes the innermost scope. -/
def closeScope : CompilerM Unit := do
  let _ ← scope
  modifyTable (·.closeScope)

/-- Declares a name in the innermost scope; a name that is taken there is a fault. -/
def declare (kind : SymbolKind) (name : String) (type : Ty) : CompilerM SymbolId := do
  faultIf ((← scope).declares name) (.duplicateName name)
  modifyGet fun s => (s.table.nextSymbol, { s with table := s.table.declare kind name type })

/-- The symbol that a name stands for. A name that is not declared is a fault. -/
def find (name : String) : CompilerM SymbolId := do
  refer ((← get).table.scopes.map fun scope => .scope scope.id)
  match (← get).table.lookup? name with
  | some id => return id
  | none => do
    fault (.unknownName name)
    return SymbolTable.noSymbolId

/-- Types are looked at. -/
def inspect (types : List Ty) : CompilerM Unit :=
  refer (types.flatMap fun type => type.ids.map .type)

/-- The fields of the values of a type. -/
def fields (type : Ty) : CompilerM (Array SymbolId) := do
  refer [.type type.id]
  return (← get).table.fields type

/-- Declares the fields of the values of a type. -/
def setFields (type : Ty) (fields : Array SymbolId) : CompilerM Unit := do
  refer [.type type.id]
  modifyTable (·.setFields type fields)

/-- The field of the values of a type. A field that they do not have is a fault. -/
def findField (type : Ty) (name : String) : CompilerM SymbolId := do
  refer ((← fields type).toList.map .symbol)
  match (← get).table.field? type name with
  | some id => return id
  | none => do
    fault (.unknownField name)
    return SymbolTable.noSymbolId

/-- A new type of arrays with the given elements. -/
def newArray (element : Ty) : CompilerM Ty :=
  modifyGet fun s =>
    let type := s.table.nextArray element
    (type, { s with table := s.table.addType type })

/-- A new class. -/
def newObject : CompilerM Ty :=
  modifyGet fun s =>
    let type := s.table.nextObject
    (type, { s with table := s.table.addType type })

/-- The symbols declared in the innermost scope, in order of declaration. -/
def currentLocals : CompilerM (Array SymbolId) := do
  return (← scope).locals

/-- The number of variables declared in the innermost scope. -/
def variableCount : CompilerM Nat := do
  return (← scope).variableCount

/-! ### The code -/

/-- Changes the code. -/
def modifyCode (f : Emitter → Emitter) : CompilerM Unit :=
  modify fun s => { s with code := f s.code }

/-- The number of ways that were too far since they were last counted. -/
def takeFarCount : CompilerM Nat := do
  let n := (← get).code.farCount
  modifyCode (·.resetFarCount)
  return n

/-- The address of the next instruction. -/
def pc : CompilerM Nat := do
  return (← get).code.pc

/-- Writes an item of symbolic code. -/
def write (i : Item) : CompilerM Unit :=
  modify fun s => { s with code := s.code.write i, items := s.items.push i }

/-- Writes an instruction. -/
def emit (op : Opcode) (operands : List Int) : CompilerM Unit :=
  write (.instruction op operands)

/-- Writes several instructions. -/
def emitAll (operations : List Operation) : CompilerM Unit :=
  operations.forM fun (op, operands) => emit op operands

/-- A new label. -/
def newLabel : CompilerM Label := do
  let l := (← get).code.nextLabel
  write .label
  return l

/-- The label stands for the address of the next instruction, and the ways to it are filled in. -/
def place (l : Label) : CompilerM Unit := do
  let sites := ((← get).code.label l).sites
  refer (.label l :: sites.map fun site => .byte (site + 1))
  write (.place l)

/-- Writes a jump to a label. -/
def jumpWith (op : Opcode) (l : Label) : CompilerM Unit := do
  refer [.label l]
  write (.jump op l)

/-- Jumps to a label. -/
def jump (l : Label) : CompilerM Unit :=
  jumpWith .jmp l

/-- Jumps to a label if the relation holds between the two values on the stack. -/
def jumpIf (r : Relation) (l : Label) : CompilerM Unit :=
  jumpWith r.jump l

/-- Jumps to a label unless the relation holds between the two values on the stack. -/
def jumpUnless (r : Relation) (l : Label) : CompilerM Unit :=
  jumpWith r.negation.jump l

end Compiler

end MicroJava
