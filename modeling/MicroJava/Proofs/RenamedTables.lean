import Mathlib.Data.List.Forall2
import MicroJava.Compiler.Program
import MicroJava.Proofs.Closed

/-!
# Tables with other names

A renaming of names is faithful if it tells names apart and keeps those that have a meaning from the
beginning (`Faithful`). Two symbol tables are the same up to a renaming (`SymbolTable.Renamed`) if they
differ in the names of their symbols only, a name stands in the one for what the renamed name stands for
in the other, and whatever is looked up by its name, in a scope or among fields, is called by the renamed
name. The last condition is not about all symbols: those that the predeclared methods take are listed
nowhere, so their names stay. Everything that a declaration does keeps two tables the same in this sense.
-/

namespace MicroJava

/-- The names that have a meaning before anything is declared, and the one that stands in for a missing
name. -/
def reservedNames : List String := ["int", "char", "null", "chr", "ord", "len", mainName, ""]

/-- A renaming that tells names apart and keeps the reserved ones. -/
structure Faithful (ρ : String → String) : Prop where
  injective : Function.Injective ρ
  reserved : ∀ n ∈ reservedNames, ρ n = n

variable {ρ : String → String}

/-! ### Symbols and scopes -/

/-- Two symbols that differ in their names only. -/
def Symbol.Alike (x x' : Symbol) : Prop := x' = { x with name := x'.name }

/-- Two scopes in which a name and the renamed one stand for the same symbol. -/
structure Scope.Renamed (ρ : String → String) (c c' : Scope) : Prop where
  id : c'.id = c.id
  locals : c'.locals = c.locals
  variableCount : c'.variableCount = c.variableCount
  find? : ∀ n, c'.find? (ρ n) = c.find? n

namespace Scope.Renamed

variable {c c' : Scope}

theorem empty (id : ScopeId) :
    Scope.Renamed ρ { Scope.empty with id } { Scope.empty with id } :=
  ⟨rfl, rfl, rfl, fun _ => by simp [Scope.find?, Scope.empty]⟩

theorem declares (h : c.Renamed ρ c') (n : String) : c'.declares (ρ n) = c.declares n := by
  rw [Scope.declares, Scope.declares, h.find?]

theorem insert (h : c.Renamed ρ c') (hρ : Function.Injective ρ) (n : String) (id : SymbolId)
    (isVariable : Bool) : (c.insert n id isVariable).Renamed ρ (c'.insert (ρ n) id isVariable) := by
  by_cases hd : c.declares n = true
  · rwa [insert_of_declares hd, insert_of_declares ((h.declares n).trans hd)]
  · have hd' : ¬c'.declares (ρ n) = true := by rwa [h.declares]
    refine ⟨?_, ?_, ?_, fun m => ?_⟩
    · rw [Scope.insert, Scope.insert, if_neg hd, if_neg hd']
      exact h.id
    · rw [Scope.insert, Scope.insert, if_neg hd, if_neg hd']
      exact congrArg (·.push id) h.locals
    · simp only [Scope.insert, if_neg hd, if_neg hd', h.variableCount]
    · simp only [find?_insert, h.find?, hρ.eq_iff]

theorem mem_locals_insert {n : String} {id i : SymbolId} {isVariable : Bool}
    (h : i ∈ (c.insert n id isVariable).locals) : i ∈ c.locals ∨ i = id ∧ c.declares n = false := by
  by_cases hd : c.declares n = true
  · rw [insert_of_declares hd] at h
    exact .inl h
  · rw [locals_insert_of_not_declares (by simpa using hd), Array.mem_push] at h
    exact h.imp_right fun h => ⟨h, by simpa using hd⟩

end Scope.Renamed

/-! ### Symbol tables -/

namespace SymbolTable

variable {t t' u u' : SymbolTable}

/-- The symbol is called by the renamed name in the second table. -/
def Calls (ρ : String → String) (t t' : SymbolTable) (id : SymbolId) : Prop :=
  id < t.symbols.size ∧ (t'.symbol id).name = ρ (t.symbol id).name

/-- Two symbol tables that are the same up to a renaming. -/
structure Renamed (ρ : String → String) (t t' : SymbolTable) : Prop where
  size : t'.symbols.size = t.symbols.size
  symbols : ∀ id < t.symbols.size, (t.symbol id).Alike (t'.symbol id)
  types : t'.types = t.types
  scopeCount : t'.scopeCount = t.scopeCount
  scopes : List.Forall₂ (Scope.Renamed ρ) t.scopes t'.scopes
  locals : ∀ c ∈ t.scopes, ∀ id ∈ c.locals, t.Calls ρ t' id
  fields : ∀ e ∈ t.types, ∀ id ∈ e.fields, t.Calls ρ t' id

/-- No symbol is lost and none is called by another name. -/
def CallsSame (t u : SymbolTable) : Prop :=
  t.symbols.size ≤ u.symbols.size ∧ ∀ id < t.symbols.size, (u.symbol id).name = (t.symbol id).name

theorem Calls.mono {id : SymbolId} (h : t.Calls ρ t' id) (hsize : t'.symbols.size = t.symbols.size)
    (hu : t.CallsSame u) (hu' : t'.CallsSame u') : u.Calls ρ u' id :=
  ⟨Nat.lt_of_lt_of_le h.1 hu.1, by rw [hu'.2 id (hsize ▸ h.1), hu.2 id h.1, h.2]⟩

theorem callsSame_declare (kind : SymbolKind) (n : String) (type : Ty) :
    t.CallsSame (t.declare kind n type) :=
  ⟨(Closed.below_declare t kind n type).symbols, fun _ hid => by rw [Closed.symbol_declare kind n type hid]⟩

theorem callsSame_modifySymbol (id : SymbolId) {f : Symbol → Symbol}
    (hf : ∀ x n, f { x with name := n } = { f x with name := n }) : t.CallsSame (t.modifySymbol id f) := by
  refine ⟨(Closed.below_modifySymbol t id f).symbols, fun i hi => ?_⟩
  by_cases hid : i = id
  · subst hid
    rw [Closed.symbol_modifySymbol_self hi]
    rw [show f (t.symbol i) = { f (t.symbol i) with name := (t.symbol i).name } from
      hf (t.symbol i) (t.symbol i).name]
  · rw [Closed.symbol_modifySymbol hid]

theorem callsSame_closeScope : t.CallsSame t.closeScope := by
  unfold closeScope
  split <;> exact ⟨Nat.le_refl _, fun _ _ => rfl⟩

namespace Renamed

theorem current (h : t.Renamed ρ t') : t.current.Renamed ρ t'.current :=
  (List.forall₂_cons.1 h.scopes).1

theorem outer (h : t.Renamed ρ t') : List.Forall₂ (Scope.Renamed ρ) t.outer t'.outer :=
  (List.forall₂_cons.1 h.scopes).2

/-- Symbols that are not there are alike as well. -/
theorem symbol (h : t.Renamed ρ t') (id : SymbolId) : (t.symbol id).Alike (t'.symbol id) := by
  by_cases hid : id < t.symbols.size
  · exact h.symbols id hid
  · have hid' : ¬id < t'.symbols.size := by rwa [h.size]
    simp only [SymbolTable.symbol, Array.getElem?_eq_none (Nat.le_of_not_lt hid),
      Array.getElem?_eq_none (Nat.le_of_not_lt hid')]
    rfl

theorem level (h : t.Renamed ρ t') : t'.level = t.level := by
  rw [SymbolTable.level, SymbolTable.level, h.outer.length_eq]

theorem lookup? (h : t.Renamed ρ t') (n : String) : t'.lookup? (ρ n) = t.lookup? n := by
  have houter : t'.outer.findSome? (·.find? (ρ n)) = t.outer.findSome? (·.find? n) := by
    have hs := h.outer
    generalize t.outer = outer, t'.outer = outer' at hs
    induction hs with
    | nil => rfl
    | cons hc _ ih => rw [List.findSome?_cons, List.findSome?_cons, hc.find?, ih]
  rw [SymbolTable.lookup?, SymbolTable.lookup?, h.current.find?, houter]

theorem fields_eq (h : t.Renamed ρ t') (type : Ty) : t'.fields type = t.fields type := by
  rw [SymbolTable.fields, SymbolTable.fields, h.types]

theorem calls_of_mem_fields (h : t.Renamed ρ t') {type : Ty} {id : SymbolId}
    (hid : id ∈ t.fields type) : t.Calls ρ t' id := by
  rw [SymbolTable.fields] at hid
  cases hentry : t.types[type.id]? with
  | none => simp [hentry] at hid
  | some e =>
      rw [hentry] at hid
      exact h.fields e (Array.mem_of_getElem? hentry) id hid

theorem field? (h : t.Renamed ρ t') (hρ : Function.Injective ρ) (type : Ty) (n : String) :
    t'.field? type (ρ n) = t.field? type n := by
  have hcalls (id : SymbolId) (hid : id ∈ (t.fields type).toList) :
      ((t'.symbol id).name == ρ n) = ((t.symbol id).name == n) := by
    rw [(h.calls_of_mem_fields (Array.mem_toList_iff.1 hid)).2]
    exact Bool.eq_iff_iff.2 (by simp only [beq_iff_eq, hρ.eq_iff])
  rw [SymbolTable.field?, SymbolTable.field?, h.fields_eq, ← Array.find?_toList, ← Array.find?_toList]
  generalize (t.fields type).toList = ids at hcalls ⊢
  induction ids with
  | nil => rfl
  | cons id ids ih =>
      rw [List.find?_cons, List.find?_cons, hcalls id List.mem_cons_self,
        ih fun i hi => hcalls i (List.mem_cons_of_mem _ hi)]

/-! ### What declarations do -/

theorem openScope (h : t.Renamed ρ t') : t.openScope.Renamed ρ t'.openScope where
  size := h.size
  symbols := h.symbols
  types := h.types
  scopeCount := congrArg (· + 1) h.scopeCount
  scopes := by
    refine .cons ?_ h.scopes
    rw [SymbolTable.openScope, SymbolTable.openScope, h.scopeCount]
    exact .empty _
  locals := by
    intro c hc id hid
    rcases List.mem_cons.1 hc with rfl | hc
    · exact absurd hid (Array.not_mem_empty id)
    · exact h.locals c hc id hid
  fields := h.fields

theorem closeScope (h : t.Renamed ρ t') : t.closeScope.Renamed ρ t'.closeScope := by
  have houter := h.outer
  rcases ho : t.outer with _ | ⟨c, cs⟩ <;> rcases ho' : t'.outer with _ | ⟨c', cs'⟩ <;>
    rw [ho, ho'] at houter
  · rwa [SymbolTable.closeScope, SymbolTable.closeScope, ho, ho']
  · cases houter
  · cases houter
  · rw [SymbolTable.closeScope, SymbolTable.closeScope, ho, ho']
    exact ⟨h.size, h.symbols, h.types, h.scopeCount, houter,
      fun d hd id hid => h.locals d (List.mem_cons_of_mem _ (ho ▸ hd)) id hid, h.fields⟩

theorem declare (h : t.Renamed ρ t') (hρ : Function.Injective ρ) (kind : SymbolKind) (n : String)
    (type : Ty) : (t.declare kind n type).Renamed ρ (t'.declare kind (ρ n) type) := by
  have hkeep := callsSame_declare (t := t) kind n type
  have hkeep' := callsSame_declare (t := t') kind (ρ n) type
  have hnext : t'.nextSymbol = t.nextSymbol := h.size
  have hself := Closed.symbol_declare_self t kind n type
  have hself' := Closed.symbol_declare_self t' kind (ρ n) type
  rw [hnext, h.current.variableCount, h.level] at hself'
  have hsize : (t.declare kind n type).symbols.size = t.symbols.size + 1 := by simp [SymbolTable.declare]
  have hnew : (t.declare kind n type).Calls ρ (t'.declare kind (ρ n) type) t.nextSymbol := by
    refine ⟨by rw [hsize]; exact Nat.lt_succ_self _, ?_⟩
    rw [hself, hself']
    split <;> rfl
  refine ⟨?_, fun id hid => ?_, h.types, h.scopeCount, ?_, fun c hc id hid => ?_, fun e he id hid => ?_⟩
  · simp [SymbolTable.declare, h.size]
  · rw [hsize] at hid
    rcases Nat.lt_succ_iff_lt_or_eq.1 hid with hid | rfl
    · rw [Closed.symbol_declare kind n type hid, Closed.symbol_declare kind (ρ n) type (h.size ▸ hid)]
      exact h.symbols id hid
    · change ((t.declare kind n type).symbol t.nextSymbol).Alike
        ((t'.declare kind (ρ n) type).symbol t.nextSymbol)
      rw [hself, hself']
      split <;> rfl
  · refine .cons ?_ h.outer
    rw [SymbolTable.declare, SymbolTable.declare, hnext]
    exact h.current.insert hρ n _ _
  · rcases List.mem_cons.1 hc with rfl | hc
    · rcases Scope.Renamed.mem_locals_insert hid with hid | ⟨rfl, -⟩
      · exact (h.locals _ List.mem_cons_self id hid).mono h.size hkeep hkeep'
      · exact hnew
    · exact (h.locals c (List.mem_cons_of_mem _ hc) id hid).mono h.size hkeep hkeep'
  · exact (h.fields e he id hid).mono h.size hkeep hkeep'

theorem modifySymbol (h : t.Renamed ρ t') (id : SymbolId) {f : Symbol → Symbol}
    (hf : ∀ x n, f { x with name := n } = { f x with name := n }) :
    (t.modifySymbol id f).Renamed ρ (t'.modifySymbol id f) := by
  have hkeep := callsSame_modifySymbol (t := t) id hf
  have hkeep' := callsSame_modifySymbol (t := t') id hf
  have hsize : (t.modifySymbol id f).symbols.size = t.symbols.size := by simp [SymbolTable.modifySymbol]
  refine ⟨?_, fun i hi => ?_, h.types, h.scopeCount, h.scopes, fun c hc i hi => ?_, fun e he i hi => ?_⟩
  · simp [SymbolTable.modifySymbol, h.size]
  · rw [hsize] at hi
    by_cases hid : i = id
    · subst hid
      have hname := hkeep'.2 i (h.size ▸ hi)
      rw [Closed.symbol_modifySymbol_self hi, Closed.symbol_modifySymbol_self (h.size ▸ hi)] at *
      rw [Symbol.Alike, hname, ← hf, ← h.symbols i hi]
    · rw [Closed.symbol_modifySymbol hid, Closed.symbol_modifySymbol hid]
      exact h.symbols i hi
  · exact (h.locals c hc i hi).mono h.size hkeep hkeep'
  · exact (h.fields e he i hi).mono h.size hkeep hkeep'

theorem addType (h : t.Renamed ρ t') (type : Ty) : (t.addType type).Renamed ρ (t'.addType type) where
  size := h.size
  symbols := h.symbols
  types := congrArg (·.push { type }) h.types
  scopeCount := h.scopeCount
  scopes := h.scopes
  locals := h.locals
  fields := by
    intro e he id hid
    rcases Array.mem_push.1 he with he | rfl
    · exact h.fields e he id hid
    · simp at hid

/-- The fields of a type are declared, if they are called by the renamed names. -/
theorem setFields (h : t.Renamed ρ t') (type : Ty) {ids : Array SymbolId}
    (hids : ∀ id ∈ ids, t.Calls ρ t' id) : (t.setFields type ids).Renamed ρ (t'.setFields type ids) where
  size := h.size
  symbols := h.symbols
  types := by
    simp only [SymbolTable.setFields]
    rw [h.types]
  scopeCount := h.scopeCount
  scopes := h.scopes
  locals := h.locals
  fields := by
    intro e he id hid
    have hmodified : e ∈ t.types.modify type.id fun entry => { entry with fields := ids } := he
    rcases Array.mem_of_mem_modify hmodified with he | ⟨e, he, rfl⟩
    · exact h.fields e he id hid
    · exact hids id hid

end Renamed

/-- Before anything is declared, the reserved names are known under their own names. -/
theorem renamed_predeclared (hρ : Faithful ρ) : predeclared.Renamed ρ predeclared := by
  have hkept : ∀ n ∈ ["int", "char", "null", "chr", "ord", "len"], ρ n = n := fun n hn =>
    hρ.reserved n (List.mem_append_left [mainName, ""] hn)
  refine ⟨rfl, fun id _ => rfl, rfl, rfl, .cons ?_ .nil, ?_, ?_⟩
  · have hinsert (c : Scope) (h : c.Renamed ρ c) (n : String) (id : SymbolId)
        (hn : n ∈ ["int", "char", "null", "chr", "ord", "len"]) :
        (c.insert n id false).Renamed ρ (c.insert n id false) := by
      have := h.insert hρ.injective n id false
      rwa [hkept n hn] at this
    exact hinsert _ (hinsert _ (hinsert _ (hinsert _ (hinsert _ (hinsert _ (.empty 0) "int" 1 (by decide))
      "char" 2 (by decide)) "null" 3 (by decide)) "chr" 4 (by decide)) "ord" 6 (by decide)) "len" 8
      (by decide)
  · have hlocals : predeclared.current.locals = #[1, 2, 3, 4, 6, 8] := by decide +kernel
    have hnames : ∀ id ∈ #[1, 2, 3, 4, 6, 8], (predeclared.symbol id).name ∈ reservedNames := by decide
    intro c hc id hid
    obtain rfl : c = predeclared.current := by simpa [scopes, predeclared] using hc
    rw [hlocals] at hid
    have hlt : ∀ id ∈ #[1, 2, 3, 4, 6, 8], id < predeclared.symbols.size := by decide
    exact ⟨hlt id hid, (hρ.reserved _ (hnames id hid)).symm⟩
  · have hnone : ∀ e ∈ predeclared.types, e.fields = #[] := by simp [predeclared]
    intro e he id hid
    simp [hnone e he] at hid

end SymbolTable

end MicroJava
