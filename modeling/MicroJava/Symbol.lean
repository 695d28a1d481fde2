import MicroJava.Ty
import Std.Data.TreeMap

/-!
# Declared names

A symbol is what a declaration makes: a constant, a variable, a type, a method or the program. A
scope holds the symbols declared at one level, in order of declaration. The first declaration of a
name in a scope is the one that counts; `Scope.insert` changes nothing for a name that is taken.
-/

namespace MicroJava

/-- The number of a symbol in order of creation. -/
abbrev SymbolId := Nat

/-- What a name can be declared as. -/
inductive SymbolKind where
  | constant
  | variable
  | type
  | method
  | program
  deriving DecidableEq, Inhabited

/-- A declared name. `value` is that of a constant. `address` is the slot of a variable, the offset
of a field or the first instruction of a method. `level` tells the variables of a program (0) from
those of a method or class (1). `locals` are the parameters and variables of a method, in the order
of their slots, or the global declarations of a program. -/
structure Symbol where
  kind : SymbolKind
  name : String
  type : Ty
  value : Int := 0
  address : Int := 0
  level : Int := 0
  parameterCount : Nat := 0
  locals : Array SymbolId := #[]
  deriving DecidableEq, Inhabited

namespace Symbol

/-- The parameters of a method, in order of declaration. -/
def parameters (s : Symbol) : Array SymbolId :=
  s.locals.take s.parameterCount

end Symbol

/-- The number of a scope in order of creation. -/
abbrev ScopeId := Nat

/-- The names declared at one level, and the symbols they stand for in order of declaration. -/
structure Scope where
  id : ScopeId := 0
  names : Std.TreeMap String SymbolId := ∅
  locals : Array SymbolId := #[]
  variableCount : Nat := 0
  deriving Inhabited

namespace Scope

/-- The scope in which nothing is declared. -/
def empty : Scope := {}

/-- The symbol that `name` stands for in this scope. -/
def find? (s : Scope) (name : String) : Option SymbolId :=
  s.names[name]?

/-- Whether `name` is declared in this scope. -/
def declares (s : Scope) (name : String) : Bool :=
  (s.find? name).isSome

/-- Declares `name` as the symbol `id`, unless the name is taken. -/
def insert (s : Scope) (name : String) (id : SymbolId) (isVariable : Bool) : Scope :=
  if s.declares name then s
  else
    { s with
      names := s.names.insert name id
      locals := s.locals.push id
      variableCount := if isVariable then s.variableCount + 1 else s.variableCount }

theorem insert_of_declares {s : Scope} {name : String} (h : s.declares name = true)
    (id : SymbolId) (isVariable : Bool) : s.insert name id isVariable = s := if_pos h

theorem find?_insert (s : Scope) (name other : String) (id : SymbolId) (isVariable : Bool) :
    (s.insert name id isVariable).find? other =
      if other = name then some ((s.find? name).getD id) else s.find? other := by
  unfold insert
  by_cases h : s.declares name = true
  · obtain ⟨i, hi⟩ := Option.isSome_iff_exists.1 h
    by_cases ho : other = name <;> simp [h, ho, hi]
  · have hn : s.find? name = none := by simpa [declares] using h
    rw [if_neg h, hn, Option.getD_none]
    simp only [find?, Std.TreeMap.getElem?_insert, Std.LawfulEqCmp.compare_eq_iff_eq]
    simp only [eq_comm]

theorem locals_insert_of_not_declares {s : Scope} {name : String}
    (h : s.declares name = false) (id : SymbolId) (isVariable : Bool) :
    (s.insert name id isVariable).locals = s.locals.push id := by
  simp [insert, h]

end Scope

end MicroJava
