import Mathlib.Data.List.Forall2
import MicroJava.Proofs.Closed
import MicroJava.Proofs.ScopeHistory

/-!
# The symbol table as a stack of names

The open scopes are a stack, and what was declared in each of them is a list. `Names` is such a stack,
and an operation on the symbol table pushes a list, pops one or adds a naming to the innermost one
(`TableStep.names`). After any operations on a fresh table its scopes are what is left of the lists
(`TableStep.describes_run`), so names are found and declared as the lists tell, and closing a scope
restores what there was when it was opened (`TableStep.governs_run`).
-/

namespace MicroJava

/-- The names that were declared in the open scopes, the innermost scope first and its declarations in
order, and the number of the next symbol. -/
structure Names where
  current : List Naming
  outer : List (List Naming)
  next : SymbolId

namespace Names

/-- What was declared in each of the open scopes. -/
def scopes (a : Names) : List (List Naming) :=
  a.current :: a.outer

/-- The first declaration of a name in the innermost scope that declares it. -/
def lookup? (a : Names) (name : String) : Option SymbolId :=
  a.scopes.findSome? (Naming.earliest? name)

/-- What is declared in the innermost scope. Of several declarations of a name the first one counts. -/
def bound (a : Names) : List Naming :=
  firstsBy Naming.name a.current

/-- The predeclared names. -/
def predeclared : Names where
  current :=
    [("int", 1), ("char", 2), ("null", 3), ("chr", SymbolTable.chrId), ("ord", SymbolTable.ordId),
      ("len", SymbolTable.lenId)].map fun (name, id) => ⟨name, id, false⟩
  outer := []
  next := 10

/-- The scopes of a table are what is left of the declarations. -/
structure Describes (a : Names) (t : SymbolTable) : Prop where
  scopes : List.Forall₂ Scope.Holds t.scopes a.scopes
  next : t.nextSymbol = a.next

end Names

/-- The same names are known in two tables, and as many variables in the innermost scope. -/
structure SymbolTable.SameNames (t t' : SymbolTable) : Prop where
  lookup : ∀ name, t'.lookup? name = t.lookup? name
  locals : t'.current.locals = t.current.locals
  count : t'.current.variableCount = t.current.variableCount
  level : t'.level = t.level

/-- A symbol was made for a name. A variable has the slot behind the variables of its scope. If the name
is taken in the scope that is a fault, and nothing changes but that there is one symbol more. -/
structure Names.Declares (a : Names) (kind : SymbolKind) (name : String) (type : Ty) (s : Compiler)
    (result : SymbolId × Compiler) : Prop where
  id : result.1 = a.next
  next : result.2.table.nextSymbol = a.next + 1
  old : ∀ id < a.next, result.2.table.symbol id = s.table.symbol id
  new : result.2.table.symbol a.next =
    if kind = .variable then
      { kind, name, type, address := a.bound.countP Naming.isVariable, level := a.scopes.length - 2 }
    else { kind, name, type }
  log : result.2.log =
    if name ∈ a.current.map Naming.name then s.log.push (.fault (.duplicateName name)) else s.log
  taken : name ∈ a.current.map Naming.name → s.table.SameNames result.2.table

/-- What is found and declared in a state is told by what was declared before. -/
structure Names.Govern (a : Names) (s : Compiler) : Prop where
  next : s.table.nextSymbol = a.next
  level : s.table.level = (a.scopes.length : Int) - 2
  locals : s.table.current.locals.toList = a.bound.map Naming.id
  count : s.table.current.variableCount = a.bound.countP Naming.isVariable
  lookup : ∀ name, s.table.lookup? name = a.lookup? name
  found : ∀ name, (Compiler.find name s).1 = (a.lookup? name).getD SymbolTable.noSymbolId
  unchanged : ∀ name, (Compiler.find name s).2.table = s.table
  unknown : ∀ name, (Compiler.find name s).2.log =
    if (a.lookup? name).isSome then s.log else s.log.push (.fault (.unknownName name))
  declare : ∀ kind name type, a.Declares kind name type s (Compiler.declare kind name type s)

/-! ### Operations -/

/-- An operation on the symbol table. -/
inductive TableStep where
  | openScope
  | closeScope
  | declare (kind : SymbolKind) (name : String) (type : Ty)
  | newArray (element : Ty)
  | newObject

namespace TableStep

/-- The operation as a step of a compilation. -/
def act : TableStep → CompilerM Unit
  | openScope => Compiler.openScope
  | closeScope => Compiler.closeScope
  | declare kind name type => discard (Compiler.declare kind name type)
  | newArray element => discard (Compiler.newArray element)
  | newObject => discard Compiler.newObject

/-- What an operation does to the names of the open scopes. The universe is not closed. -/
def names (a : Names) : TableStep → Names
  | openScope => { a with current := [], outer := a.current :: a.outer }
  | closeScope =>
    match a.outer with
    | [] => a
    | ns :: outer => { a with current := ns, outer }
  | declare kind name _ =>
    { a with current := a.current ++ [⟨name, a.next, kind = .variable⟩], next := a.next + 1 }
  | newArray _ | newObject => a

/-- The state after several operations. -/
def runFrom (s : Compiler) (steps : List TableStep) : Compiler :=
  steps.foldl (fun s step => (step.act s).2) s

/-- The state after several operations on a fresh table. -/
def run (steps : List TableStep) : Compiler :=
  runFrom .initial steps

/-- The names after several operations on a fresh table. -/
def namesAfter (steps : List TableStep) : Names :=
  steps.foldl names .predeclared

/-- Operations that close the scopes they open, and no other ones. -/
inductive Matched : List TableStep → Prop
  | nil : Matched []
  | declare (kind : SymbolKind) (name : String) (type : Ty) {rest : List TableStep} :
    Matched rest → Matched (.declare kind name type :: rest)
  | newArray (element : Ty) {rest : List TableStep} : Matched rest → Matched (.newArray element :: rest)
  | newObject {rest : List TableStep} : Matched rest → Matched (.newObject :: rest)
  | nested {inner rest : List TableStep} :
    Matched inner → Matched rest → Matched (.openScope :: inner ++ .closeScope :: rest)

end TableStep

/-! ### One operation -/

theorem SymbolTable.SameNames.of_scopes {t t' : SymbolTable} (h : t'.scopes = t.scopes) :
    t.SameNames t' := by
  obtain ⟨hcurrent, houter⟩ := List.cons.inj h
  exact ⟨fun name => by rw [lookup?, lookup?, hcurrent, houter], by rw [hcurrent], by rw [hcurrent],
    by rw [SymbolTable.level, SymbolTable.level, houter]⟩

/-- Closing a scope leads back to the ones around it. -/
theorem SymbolTable.scopes_closeScope {t : SymbolTable} {c : Scope} {cs : List Scope}
    (h : t.outer = c :: cs) : t.closeScope.scopes = c :: cs := by
  rw [closeScope, h]
  rfl

namespace Names.Describes

variable {a : Names} {t : SymbolTable}

theorem current (h : a.Describes t) : t.current.Holds a.current :=
  (List.forall₂_cons.1 h.scopes).1

theorem outer (h : a.Describes t) : List.Forall₂ Scope.Holds t.outer a.outer :=
  (List.forall₂_cons.1 h.scopes).2

theorem predeclared : Names.predeclared.Describes .predeclared := by
  have hempty : Scope.empty.Holds [] := Scope.holds_empty 0
  refine ⟨.cons ?_ .nil, rfl⟩
  exact (((((hempty.insert ⟨"int", 1, false⟩).insert ⟨"char", 2, false⟩).insert
    ⟨"null", 3, false⟩).insert ⟨"chr", SymbolTable.chrId, false⟩).insert
    ⟨"ord", SymbolTable.ordId, false⟩).insert ⟨"len", SymbolTable.lenId, false⟩

theorem openScope (h : a.Describes t) : (TableStep.openScope.names a).Describes t.openScope :=
  ⟨.cons (Scope.holds_empty _) h.scopes, h.next⟩

theorem closeScope (h : a.Describes t) : (TableStep.closeScope.names a).Describes t.closeScope := by
  have houter := h.outer
  rw [TableStep.names, SymbolTable.closeScope]
  generalize hns : a.outer = nss at houter ⊢
  generalize hcs : t.outer = cs at houter ⊢
  cases houter with
  | nil => exact h
  | cons hcurrent houter => exact ⟨.cons hcurrent houter, h.next⟩

theorem declare (h : a.Describes t) (kind : SymbolKind) (name : String) (type : Ty) :
    ((TableStep.declare kind name type).names a).Describes (t.declare kind name type) := by
  refine ⟨.cons ?_ h.outer, ?_⟩
  · rw [TableStep.names, ← h.next]
    exact h.current.insert ⟨name, t.nextSymbol, kind = .variable⟩
  · exact (Array.size_push _).trans (congrArg (· + 1) h.next)

theorem addType (h : a.Describes t) (type : Ty) : a.Describes (t.addType type) :=
  ⟨h.scopes, h.next⟩

/-- A name is found in the table where it was declared. -/
theorem lookup?_eq (h : a.Describes t) (name : String) : t.lookup? name = a.lookup? name := by
  have hscopes : t.lookup? name = t.scopes.findSome? (·.find? name) := by
    rw [SymbolTable.lookup?, SymbolTable.scopes, List.findSome?_cons]
    cases t.current.find? name <;> rfl
  rw [hscopes, Names.lookup?]
  have hforall := h.scopes
  generalize t.scopes = cs, a.scopes = nss at hforall
  induction hforall with
  | nil => rfl
  | cons hc _ ih => rw [List.findSome?_cons, List.findSome?_cons, hc.find, ih]

/-- The level is the number of open scopes less two. -/
theorem level_eq (h : a.Describes t) : t.level = (a.scopes.length : Int) - 2 := by
  have hlength := h.outer.length_eq
  rw [SymbolTable.level, Names.scopes, List.length_cons, hlength]
  omega

/-- What is found and declared. -/
theorem govern {s : Compiler} (h : a.Describes s.table) : a.Govern s where
  next := h.next
  level := h.level_eq
  locals := h.current.locals
  count := h.current.count
  lookup := h.lookup?_eq
  found := fun name => h.lookup?_eq name ▸ (Compiler.find_eq name s).1
  unchanged := fun name => (Compiler.find_eq name s).2.1
  unknown := fun name => h.lookup?_eq name ▸ (Compiler.find_eq name s).2.2
  declare := fun kind name type => by
    have htable := Compiler.table_declare kind name type s
    refine ⟨(Compiler.fst_declare kind name type s).trans h.next, ?_, fun id hid => ?_, ?_, ?_,
      fun htaken => ?_⟩
    · rw [htable]
      exact (h.declare kind name type).next
    · rw [htable]
      exact SymbolTable.Closed.symbol_declare kind name type (hid.trans_eq h.next.symm)
    · rw [htable, ← h.next, SymbolTable.Closed.symbol_declare_self, h.level_eq, h.current.count]
      rfl
    · rw [Compiler.log_declare]
      simp only [h.current.declares_iff]
    · rw [htable]
      refine .of_scopes (congrArg (· :: s.table.outer) ?_)
      exact Scope.insert_of_declares (h.current.declares_iff.2 htaken) _ _

end Names.Describes

/-! ### Several operations -/

namespace TableStep

open Compiler

theorem table_act_declare (kind : SymbolKind) (name : String) (type : Ty) (s : Compiler) :
    ((declare kind name type).act s).2.table = s.table.declare kind name type :=
  table_declare kind name type s

theorem describes_act {a : Names} {s : Compiler} (h : a.Describes s.table) (step : TableStep) :
    (step.names a).Describes (step.act s).2.table := by
  cases step with
  | openScope => exact h.openScope
  | closeScope => exact h.closeScope
  | declare kind name type =>
      rw [table_act_declare]
      exact h.declare kind name type
  | newArray element => exact h.addType _
  | newObject => exact h.addType _

/-- The scopes of a table are what is left of the declarations that were made. -/
theorem describes_run (steps : List TableStep) : (namesAfter steps).Describes (run steps).table := by
  have hfrom {a : Names} {s : Compiler} (h : a.Describes s.table) :
      (steps.foldl names a).Describes (runFrom s steps).table := by
    induction steps generalizing a s with
    | nil => exact h
    | cons step steps ih => exact ih (describes_act h step)
  exact hfrom .predeclared

theorem runFrom_append (s : Compiler) (steps more : List TableStep) :
    runFrom s (steps ++ more) = runFrom (runFrom s steps) more :=
  List.foldl_append

theorem runFrom_nested (s : Compiler) (inner rest : List TableStep) :
    runFrom s (openScope :: inner ++ closeScope :: rest) =
      runFrom (closeScope.act (runFrom (openScope.act s).2 inner)).2 rest :=
  runFrom_append s (openScope :: inner) (closeScope :: rest)

theorem scopes_nested {s : Compiler} {inner : List TableStep}
    (h : (runFrom (openScope.act s).2 inner).table.outer = s.table.scopes) :
    (closeScope.act (runFrom (openScope.act s).2 inner)).2.table.scopes = s.table.scopes :=
  SymbolTable.scopes_closeScope h

theorem run_append (steps more : List TableStep) : run (steps ++ more) = runFrom (run steps) more :=
  runFrom_append .initial steps more

/-- The scopes around the innermost one are left alone by operations that close what they open. -/
theorem Matched.outer_runFrom {steps : List TableStep} (h : Matched steps) (s : Compiler) :
    (runFrom s steps).table.outer = s.table.outer := by
  induction h generalizing s with
  | nil => rfl
  | declare kind name type _ ih =>
      have htable := table_act_declare kind name type s
      exact (ih _).trans (by rw [htable]; rfl)
  | newArray _ _ ih => exact ih _
  | newObject _ ih => exact ih _
  | nested _ _ ihinner ihrest =>
      rw [runFrom_nested, ihrest]
      exact congrArg List.tail (scopes_nested (ihinner (openScope.act s).2))

/-- Closing a scope restores the scopes that were open before it was opened. -/
theorem Matched.scopes_runFrom {inner : List TableStep} (h : Matched inner) (s : Compiler) :
    (runFrom s (openScope :: inner ++ [closeScope])).table.scopes = s.table.scopes :=
  (congrArg (fun s => s.table.scopes) (runFrom_nested s inner [])).trans
    (scopes_nested (h.outer_runFrom _))

/-- Whatever was done with a fresh table, what is found and declared is told by the declarations in the
open scopes. Closing a scope brings back what was known when it was opened, and the universe is not
closed. -/
theorem governs_run (steps : List TableStep) :
    (namesAfter steps).Govern (run steps) ∧
      (∀ inner, Matched inner →
        (run steps).table.SameNames (run (steps ++ (openScope :: inner ++ [closeScope]))).table) ∧
      ((run steps).table.level = -1 →
        (run (steps ++ [closeScope])).table = (run steps).table) := by
  refine ⟨(describes_run steps).govern, fun inner h => ?_, fun h => ?_⟩
  · rw [run_append]
    exact .of_scopes (h.scopes_runFrom _)
  · have houter : (run steps).table.outer = [] := by
      refine List.eq_nil_of_length_eq_zero ?_
      rw [SymbolTable.level] at h
      omega
    rw [run_append]
    show (run steps).table.closeScope = _
    rw [SymbolTable.closeScope, houter]

end TableStep

end MicroJava
