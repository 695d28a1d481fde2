import Mathlib.Data.Nat.Basic
import Mathlib.Order.Basic
import MicroJava.SymbolTable

/-!
# Tables that mention nothing they do not have

A symbol table is closed if every symbol, type and scope that is mentioned in it by its number is in
it. The predeclared table is closed (`SymbolTable.closed_predeclared`), and everything a declaration
does to a table keeps it closed.
-/

namespace MicroJava

theorem Array.mem_of_mem_modify {α : Type} {xs : Array α} {i : Nat} {f : α → α} {x : α}
    (h : x ∈ xs.modify i f) : x ∈ xs ∨ ∃ y ∈ xs, x = f y := by
  rcases Array.getElem_of_mem h with ⟨j, hj, rfl⟩
  rw [Array.getElem_modify]
  rw [Array.size_modify] at hj
  split
  · exact .inr ⟨_, Array.getElem_mem hj, rfl⟩
  · exact .inl (Array.getElem_mem hj)

/-- Whatever has a number in `t` has one in `t'`. -/
structure SymbolTable.Below (t t' : SymbolTable) : Prop where
  symbols : t.symbols.size ≤ t'.symbols.size
  types : t.types.size ≤ t'.types.size
  scopes : t.scopeCount ≤ t'.scopeCount

/-- A type and its elements are in a table. -/
def Ty.In (type : Ty) (t : SymbolTable) : Prop := ∀ id ∈ type.ids, id < t.types.size

/-- What a symbol mentions is in a table, and the name of a type stands for a type with values. -/
structure Symbol.In (s : Symbol) (t : SymbolTable) : Prop where
  type : s.type.In t
  locals : ∀ id ∈ s.locals, id < t.symbols.size
  typed : s.kind = .type → s.type ≠ .void

/-- A scope and the symbols that it declares are in a table, and its variables are among them. -/
structure Scope.In (c : Scope) (t : SymbolTable) : Prop where
  id : c.id < t.scopeCount
  count : c.variableCount ≤ c.locals.size
  names : ∀ name id, c.find? name = some id → id < t.symbols.size
  locals : ∀ id ∈ c.locals, id < t.symbols.size

section Below

variable {t t' : SymbolTable}

theorem Ty.In.mono {type : Ty} (h : type.In t) (hb : t.Below t') : type.In t' :=
  fun id hid => (h id hid).trans_le hb.types

theorem Symbol.In.mono {s : Symbol} (h : s.In t) (hb : t.Below t') : s.In t' :=
  ⟨h.type.mono hb, fun id hid => (h.locals id hid).trans_le hb.symbols, h.typed⟩

theorem Symbol.In.parameters {s : Symbol} (h : s.In t) : ∀ id ∈ s.parameters, id < t.symbols.size := by
  intro id hid
  rw [Symbol.parameters, Array.take_eq_extract, Array.mem_extract_iff_getElem] at hid
  rcases hid with ⟨k, hk, rfl⟩
  exact h.locals _ (Array.getElem_mem _)

theorem Scope.In.mono {c : Scope} (h : c.In t) (hb : t.Below t') : c.In t' :=
  ⟨h.id.trans_le hb.scopes, h.count, fun name id hid => (h.names name id hid).trans_le hb.symbols,
    fun id hid => (h.locals id hid).trans_le hb.symbols⟩

theorem Ty.id_mem_ids (type : Ty) : type.id ∈ type.ids := by
  cases type <;> simp [Ty.id, Ty.ids]

theorem Ty.In.id_lt {type : Ty} (h : type.In t) : type.id < t.types.size :=
  h _ type.id_mem_ids

theorem Ty.In.element {type : Ty} (h : type.In t) (hvoid : Ty.void.In t) : type.element.In t := by
  cases type with
  | array id e => exact fun i hi => h i (List.mem_cons_of_mem id hi)
  | _ => exact hvoid

/-- Declaring one name more. -/
theorem Scope.In.insert {c : Scope} (h : c.In t) (name : String) {id : SymbolId}
    (hid : id < t.symbols.size) (isVariable : Bool) : (c.insert name id isVariable).In t := by
  by_cases hd : c.declares name = true
  · rwa [Scope.insert_of_declares hd]
  · refine ⟨?_, ?_, ?_, ?_⟩
    · rw [Scope.insert, if_neg hd]
      exact h.id
    · have := h.count
      rw [Scope.insert, if_neg hd]
      dsimp only
      rw [Array.size_push]
      split <;> omega
    · intro other i hi
      have hname : c.find? name = none := by simpa [Scope.declares] using hd
      rw [Scope.find?_insert, hname] at hi
      split at hi
      · exact Option.some.inj hi ▸ hid
      · exact h.names other i hi
    · intro i hi
      rw [Scope.locals_insert_of_not_declares (by simpa using hd), Array.mem_push] at hi
      rcases hi with hi | rfl
      · exact h.locals i hi
      · exact hid

end Below

namespace SymbolTable

variable {t : SymbolTable}

/-- Everything that a table mentions is in it, and the predeclared symbols are what they were. -/
structure Closed (t : SymbolTable) : Prop where
  size : predeclared.symbols.size ≤ t.symbols.size
  same : ∀ id < predeclared.symbols.size, t.symbol id = predeclared.symbol id
  basic : 4 ≤ t.types.size
  scopes : ∀ c ∈ t.scopes, c.In t
  symbols : ∀ s ∈ t.symbols, s.In t
  fields : ∀ e ∈ t.types, ∀ id ∈ e.fields, id < t.symbols.size

theorem Scope.in_empty {c : ScopeId} (h : c < t.scopeCount) :
    ({ Scope.empty with id := c } : Scope).In t :=
  ⟨h, le_rfl, by simp [Scope.empty, Scope.find?], by simp [Scope.empty]⟩

theorem closed_predeclared : predeclared.Closed where
  size := le_rfl
  same := fun _ _ => rfl
  basic := by decide
  scopes := by
    intro c hc
    obtain rfl : c = predeclared.current := by simpa [scopes, predeclared] using hc
    have h : (Scope.empty).In predeclared := Scope.in_empty (by decide)
    exact (((((h.insert "int" (by decide) _).insert "char" (by decide) _).insert "null"
      (by decide) _).insert "chr" (by decide) _).insert "ord" (by decide) _).insert "len"
      (by decide) _
  symbols := by
    intro s hs
    have htype : ∀ s ∈ predeclared.symbols, ∀ id ∈ s.type.ids, id < predeclared.types.size := by
      decide
    have hlocals : ∀ s ∈ predeclared.symbols, ∀ id ∈ s.locals, id < predeclared.symbols.size := by
      decide
    have htyped : ∀ s ∈ predeclared.symbols, s.kind = .type → s.type ≠ .void := by decide
    exact ⟨htype s hs, hlocals s hs, htyped s hs⟩
  fields := by
    intro e he
    have hnone : ∀ e ∈ predeclared.types, e.fields = #[] := by simp [predeclared]
    simp [hnone e he]

namespace Closed

theorem symbols_pos (h : t.Closed) : 0 < t.symbols.size :=
  Nat.lt_of_lt_of_le (by decide) h.size

theorem basic_in (h : t.Closed) {type : Ty} (hid : ∀ id ∈ type.ids, id < 4) : type.In t :=
  fun id hi => (hid id hi).trans_le h.basic

theorem void_in (h : t.Closed) : Ty.void.In t := h.basic_in (by decide)

theorem int_in (h : t.Closed) : Ty.int.In t := h.basic_in (by decide)

theorem char_in (h : t.Closed) : Ty.char.In t := h.basic_in (by decide)

theorem noSymbol_in (h : t.Closed) : noSymbol.In t := ⟨h.void_in, by simp [noSymbol], by simp [noSymbol]⟩

theorem symbol_in (h : t.Closed) (id : SymbolId) : (t.symbol id).In t := by
  unfold symbol
  cases hs : t.symbols[id]? with
  | none => exact h.noSymbol_in
  | some s => exact h.symbols s (Array.mem_of_getElem? hs)

theorem lookup_lt (h : t.Closed) {name : String} {id : SymbolId} (hid : t.lookup? name = some id) :
    id < t.symbols.size := by
  rcases Option.or_eq_some_iff.1 hid with hc | ⟨-, ho⟩
  · exact (h.scopes _ List.mem_cons_self).names name id hc
  · rcases List.exists_of_findSome?_eq_some ho with ⟨c, hc, hname⟩
    exact (h.scopes c (List.mem_cons_of_mem _ hc)).names name id hname

theorem fields_lt (h : t.Closed) (type : Ty) : ∀ id ∈ t.fields type, id < t.symbols.size := by
  unfold SymbolTable.fields
  cases he : t.types[type.id]? with
  | none => simp
  | some e => exact h.fields e (Array.mem_of_getElem? he)

theorem field_lt (h : t.Closed) {type : Ty} {name : String} {id : SymbolId}
    (hid : t.field? type name = some id) : id < t.symbols.size :=
  h.fields_lt type id (Array.mem_of_find?_eq_some hid)

/-- The predeclared methods take one value and leave another one. -/
theorem convert (h : t.Closed) {id : SymbolId} (hid : (id = ordId ∨ id = chrId) ∨ id = lenId) :
    (t.symbol id).parameters.size = 1 ∧ (t.symbol id).type ≠ .void := by
  have hpredeclared : ∀ id < predeclared.symbols.size,
      (id = ordId ∨ id = chrId) ∨ id = lenId →
        (predeclared.symbol id).parameters.size = 1 ∧ (predeclared.symbol id).type ≠ .void := by
    decide
  have hlt : id < predeclared.symbols.size := by
    rcases hid with (rfl | rfl) | rfl <;> decide
  rw [h.same id hlt]
  exact hpredeclared id hlt hid

/-! ### What declarations do -/

theorem below_addType (t : SymbolTable) (type : Ty) : t.Below (t.addType type) :=
  ⟨le_rfl, by simp [addType], le_rfl⟩

theorem addType (h : t.Closed) (type : Ty) : (t.addType type).Closed where
  size := h.size
  same := h.same
  basic := h.basic.trans (below_addType t type).types
  scopes := fun c hc => (h.scopes c hc).mono (below_addType t type)
  symbols := fun s hs => (h.symbols s hs).mono (below_addType t type)
  fields := by
    intro e he
    rcases Array.mem_push.1 he with he | rfl
    · exact h.fields e he
    · simp

theorem nextArray_in {element : Ty} (h : element.In t) :
    (t.nextArray element).In (t.addType (t.nextArray element)) := by
  intro id hid
  rcases List.mem_cons.1 hid with rfl | hid
  · simp [SymbolTable.addType]
  · exact (h id hid).trans_le (below_addType t _).types

theorem nextObject_in (t : SymbolTable) : t.nextObject.In (t.addType t.nextObject) := by
  intro id hid
  obtain rfl : id = t.types.size := by simpa [nextObject, Ty.ids, Ty.id] using hid
  simp [SymbolTable.addType]

theorem below_declare (t : SymbolTable) (kind : SymbolKind) (name : String) (type : Ty) :
    t.Below (t.declare kind name type) :=
  ⟨by simp [declare], le_rfl, le_rfl⟩

/-- Declaring a name changes no symbol. -/
theorem symbol_declare (kind : SymbolKind) (name : String) (type : Ty) {id : SymbolId}
    (hid : id < t.symbols.size) : (t.declare kind name type).symbol id = t.symbol id := by
  simp [symbol, SymbolTable.declare, Array.getElem?_push, hid.ne]

/-- A variable gets the next slot of its scope. -/
theorem symbol_declare_self (t : SymbolTable) (kind : SymbolKind) (name : String) (type : Ty) :
    (t.declare kind name type).symbol t.nextSymbol =
      if kind = .variable then { kind, name, type, address := t.current.variableCount, level := t.level }
      else { kind, name, type } := by
  simp [symbol, SymbolTable.declare, nextSymbol]

theorem declare (h : t.Closed) {kind : SymbolKind} (name : String) {type : Ty} (htype : type.In t)
    (htyped : kind = .type → type ≠ .void) : (t.declare kind name type).Closed where
  size := h.size.trans (below_declare t kind name type).symbols
  same := fun id hid => (symbol_declare kind name type (hid.trans_le h.size)).trans (h.same id hid)
  basic := h.basic
  scopes := by
    intro c hc
    have hnew : t.nextSymbol < (t.declare kind name type).symbols.size := by
      simp [SymbolTable.declare, nextSymbol]
    rcases List.mem_cons.1 hc with rfl | hc
    · exact ((h.scopes _ List.mem_cons_self).mono (below_declare t kind name type)).insert name hnew _
    · exact (h.scopes c (List.mem_cons_of_mem _ hc)).mono (below_declare t kind name type)
  symbols := by
    intro s hs
    rcases Array.mem_push.1 hs with hs | rfl
    · exact (h.symbols s hs).mono (below_declare t kind name type)
    · split <;> exact ⟨htype, by simp, htyped⟩
  fields := fun e he id hid => (h.fields e he id hid).trans_le (below_declare t kind name type).symbols

theorem below_modifySymbol (t : SymbolTable) (id : SymbolId) (f : Symbol → Symbol) :
    t.Below (t.modifySymbol id f) :=
  ⟨by simp [modifySymbol], le_rfl, le_rfl⟩

/-- Changing a symbol changes no other one. -/
theorem symbol_modifySymbol {id i : SymbolId} (hid : i ≠ id) (f : Symbol → Symbol) :
    (t.modifySymbol id f).symbol i = t.symbol i := by
  simp [symbol, SymbolTable.modifySymbol, Array.getElem?_modify, Ne.symm hid]

theorem symbol_modifySymbol_self {id : SymbolId} (hid : id < t.symbols.size) (f : Symbol → Symbol) :
    (t.modifySymbol id f).symbol id = f (t.symbol id) := by
  simp [symbol, SymbolTable.modifySymbol, Array.getElem_modify, hid]

theorem modifySymbol (h : t.Closed) {id : SymbolId} (hid : predeclared.symbols.size ≤ id)
    {f : Symbol → Symbol} (hf : ∀ s : Symbol, s.In t → (f s).In t) :
    (t.modifySymbol id f).Closed where
  size := h.size.trans (below_modifySymbol t id f).symbols
  same := fun i hi =>
    (symbol_modifySymbol (hi.trans_le hid).ne f).trans (h.same i hi)
  basic := h.basic
  scopes := fun c hc => (h.scopes c hc).mono (below_modifySymbol t id f)
  symbols := by
    intro s hs
    refine Symbol.In.mono ?_ (below_modifySymbol t id f)
    rcases Array.mem_of_mem_modify hs with hold | ⟨s', hold, rfl⟩
    · exact h.symbols s hold
    · exact hf s' (h.symbols s' hold)
  fields := fun e he i hi => (h.fields e he i hi).trans_le (below_modifySymbol t id f).symbols

theorem below_openScope (t : SymbolTable) : t.Below t.openScope :=
  ⟨le_rfl, le_rfl, Nat.le_succ _⟩

theorem openScope (h : t.Closed) : t.openScope.Closed where
  size := h.size
  same := h.same
  basic := h.basic
  scopes := by
    intro c hc
    rcases List.mem_cons.1 hc with rfl | hc
    · exact Scope.in_empty (Nat.lt_succ_self _)
    · exact (h.scopes c hc).mono (below_openScope t)
  symbols := fun s hs => (h.symbols s hs).mono (below_openScope t)
  fields := h.fields

theorem below_closeScope (t : SymbolTable) : t.Below t.closeScope := by
  unfold SymbolTable.closeScope
  split <;> exact ⟨le_rfl, le_rfl, le_rfl⟩

theorem closeScope (h : t.Closed) : t.closeScope.Closed := by
  unfold SymbolTable.closeScope
  split
  · exact h
  · next scope outer ho =>
      have hmem : ∀ c ∈ scope :: outer, c ∈ t.scopes := by
        intro c hc
        rw [SymbolTable.scopes, ho]
        exact List.mem_cons_of_mem _ hc
      have hbelow : t.Below { t with current := scope, outer } := ⟨le_rfl, le_rfl, le_rfl⟩
      exact ⟨h.size, h.same, h.basic, fun c hc => (h.scopes c (hmem c hc)).mono hbelow,
        fun s hs => (h.symbols s hs).mono hbelow, h.fields⟩

theorem below_setFields (t : SymbolTable) (type : Ty) (fields : Array SymbolId) :
    t.Below (t.setFields type fields) :=
  ⟨le_rfl, by simp [setFields], le_rfl⟩

theorem setFields (h : t.Closed) (type : Ty) {fields : Array SymbolId}
    (hf : ∀ id ∈ fields, id < t.symbols.size) : (t.setFields type fields).Closed where
  size := h.size
  same := h.same
  basic := h.basic.trans (below_setFields t type fields).types
  scopes := fun c hc => (h.scopes c hc).mono (below_setFields t type fields)
  symbols := fun s hs => (h.symbols s hs).mono (below_setFields t type fields)
  fields := by
    intro e (he : e ∈ t.types.modify type.id fun entry => { entry with fields })
    rcases Array.mem_of_mem_modify he with hold | ⟨e', hold, rfl⟩
    · exact h.fields e hold
    · exact hf

end Closed

end SymbolTable

end MicroJava
