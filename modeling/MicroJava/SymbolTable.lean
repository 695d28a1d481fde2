import MicroJava.Symbol

/-!
# The symbol table

The table keeps all symbols and types that were ever made, so a method keeps its variables and a
class its fields after their scope was closed, and a stack of open scopes. The outermost scope is
the universe with the predeclared names; it is never closed. A name is looked up from the innermost
scope outwards (`lookup?`), and what a scope declares is forgotten when it is closed
(`closeScope_openScope`).
-/

namespace MicroJava

/-- A type with the fields of its values, in order of declaration. -/
structure TypeEntry where
  type : Ty
  fields : Array SymbolId := #[]
  deriving Inhabited

/-- All symbols and types made so far, and the open scopes, the innermost one apart. Scopes are
numbered from the universe on, which has the number zero. -/
structure SymbolTable where
  symbols : Array Symbol
  types : Array TypeEntry
  current : Scope
  outer : List Scope
  scopeCount : Nat := 1
  deriving Inhabited

namespace SymbolTable

/-- The symbol that stands in for a name that is not declared. -/
def noSymbol : Symbol := { kind := .variable, name := "noObj", type := .void }

/-- The numbers of the predeclared symbols that are treated in a way of their own. -/
def noSymbolId : SymbolId := 0
def chrId : SymbolId := 4
def ordId : SymbolId := 6
def lenId : SymbolId := 8

/-- An array whose elements are unspecified, as `len` takes it. -/
def anyArray : Ty := .array 4 .void

/-- The table in which only the predeclared names are known. -/
def predeclared : SymbolTable where
  symbols :=
    #[noSymbol,
      { kind := .type, name := "int", type := .int },
      { kind := .type, name := "char", type := .char },
      { kind := .constant, name := "null", type := .null },
      { kind := .method, name := "chr", type := .char, parameterCount := 1, locals := #[5] },
      { kind := .variable, name := "i", type := .int, level := 1 },
      { kind := .method, name := "ord", type := .int, parameterCount := 1, locals := #[7] },
      { kind := .variable, name := "ch", type := .char, level := 1 },
      { kind := .method, name := "len", type := .int, parameterCount := 1, locals := #[9] },
      { kind := .variable, name := "arr", type := anyArray, level := 1 }]
  types := #[⟨.void, #[]⟩, ⟨.int, #[]⟩, ⟨.char, #[]⟩, ⟨.null, #[]⟩, ⟨anyArray, #[]⟩]
  current :=
    [("int", 1), ("char", 2), ("null", 3), ("chr", chrId), ("ord", ordId), ("len", lenId)].foldl
      (fun s (name, id) => s.insert name id false) Scope.empty
  outer := []

/-! ### Scopes -/

/-- The open scopes, the innermost one first. -/
def scopes (t : SymbolTable) : List Scope :=
  t.current :: t.outer

/-- The number of open scopes less two: -1 in the universe, 0 among the declarations of a program,
1 inside a method or class. -/
def level (t : SymbolTable) : Int :=
  (t.outer.length : Int) - 1

/-- Opens an empty scope inside the innermost one. -/
def openScope (t : SymbolTable) : SymbolTable :=
  { t with
    current := { Scope.empty with id := t.scopeCount }
    outer := t.current :: t.outer
    scopeCount := t.scopeCount + 1 }

/-- Closes the innermost scope. The universe stays open. -/
def closeScope (t : SymbolTable) : SymbolTable :=
  match t.outer with
  | [] => t
  | scope :: outer => { t with current := scope, outer }

@[simp] theorem closeScope_openScope (t : SymbolTable) :
    t.openScope.closeScope = { t with scopeCount := t.scopeCount + 1 } := rfl

@[simp] theorem level_openScope (t : SymbolTable) : t.openScope.level = t.level + 1 := by
  simp only [level, openScope, List.length_cons]
  omega

/-! ### Symbols -/

/-- The symbol numbered `id`. -/
def symbol (t : SymbolTable) (id : SymbolId) : Symbol :=
  t.symbols[id]?.getD noSymbol

/-- Changes the symbol numbered `id`. -/
def modifySymbol (t : SymbolTable) (id : SymbolId) (f : Symbol → Symbol) : SymbolTable :=
  { t with symbols := t.symbols.modify id f }

/-- The number that the next symbol will have. -/
def nextSymbol (t : SymbolTable) : SymbolId :=
  t.symbols.size

/-- Makes the symbol numbered `t.nextSymbol` and declares it in the innermost scope. A variable gets
the next free slot of the scope. If the name is taken there, the symbol is made all the same but
the name keeps its meaning. -/
def declare (t : SymbolTable) (kind : SymbolKind) (name : String) (type : Ty) : SymbolTable :=
  let isVariable : Bool := kind = .variable
  let id := t.nextSymbol
  let level := t.level
  let address : Int := t.current.variableCount
  let symbol : Symbol :=
    if isVariable then { kind, name, type, address, level } else { kind, name, type }
  { t with symbols := t.symbols.push symbol, current := t.current.insert name id isVariable }

/-- The symbol that `name` stands for, from the innermost scope outwards. -/
def lookup? (t : SymbolTable) (name : String) : Option SymbolId :=
  (t.current.find? name).or (t.outer.findSome? (·.find? name))

/-! ### Types -/

/-- The fields of the values of a type. -/
def fields (t : SymbolTable) (type : Ty) : Array SymbolId :=
  (t.types[type.id]?.map TypeEntry.fields).getD #[]

/-- The field `name` of the values of a type. -/
def field? (t : SymbolTable) (type : Ty) (name : String) : Option SymbolId :=
  (t.fields type).find? fun id => (t.symbol id).name == name

/-- Declares the fields of the values of a type. -/
def setFields (t : SymbolTable) (type : Ty) (fields : Array SymbolId) : SymbolTable :=
  { t with types := t.types.modify type.id fun entry => { entry with fields } }

/-- The type that the next array type with these elements will be. -/
def nextArray (t : SymbolTable) (element : Ty) : Ty :=
  .array t.types.size element

/-- The type that the next class will be. -/
def nextObject (t : SymbolTable) : Ty :=
  .object t.types.size

/-- Makes a type without fields. -/
def addType (t : SymbolTable) (type : Ty) : SymbolTable :=
  { t with types := t.types.push { type } }

end SymbolTable

end MicroJava
