import MicroJava.Proofs.Slots

/-!
# The classes of a table

A name stands for a symbol that has this name. `SymbolTable.Classed R t` says so of a table, and that
`R` relates the number of the type of each class, its name and the number of its fields. Declarations
keep it for any `R`; only where a class gets its fields, `R` changes for the type of this class
(`SymbolTable.Classed.setFields`). So if `R` says which classes a program declares, `new` makes objects
of one of these, with all its fields (`SymbolTable.Classed.fields_of_type?`).
-/

namespace MicroJava

namespace SymbolTable

/-- Names stand for symbols of this name, and `R` relates the number of the type of each class, its name
and the number of its fields. -/
structure Classed (R : TypeId → String → Nat → Prop) (t : SymbolTable) : Prop where
  names : ∀ c ∈ t.scopes, ∀ name id, c.find? name = some id →
    id < t.symbols.size ∧ (t.symbol id).name = name
  classes : ∀ id, (t.symbol id).kind = .type → (t.symbol id).type.shape = .object →
    (t.symbol id).type.id < t.types.size ∧
      R (t.symbol id).type.id (t.symbol id).name (t.fields (t.symbol id).type).size

variable {t : SymbolTable}

/-- A type of the table gets the fields. -/
theorem fields_setFields {type other : Ty} (hid : other.id = type.id) (hlt : type.id < t.types.size)
    (fields : Array SymbolId) : (t.setFields type fields).fields other = fields := by
  simp [SymbolTable.fields, SymbolTable.setFields, Array.getElem_modify, hid, hlt]

theorem fields_setFields_of_ne {type other : Ty} (hid : other.id ≠ type.id) {fields : Array SymbolId} :
    (t.setFields type fields).fields other = t.fields other := by
  simp [SymbolTable.fields, SymbolTable.setFields, Array.getElem?_modify, hid.symm]

namespace Classed

variable {R R' : TypeId → String → Nat → Prop} {t' : SymbolTable}

theorem mono (h : t.Classed R) (hR : ∀ k < t.types.size, ∀ name n, R k name n → R' k name n) :
    t.Classed R' :=
  ⟨h.names, fun id hkind hshape =>
    ⟨(h.classes id hkind hshape).1, hR _ (h.classes id hkind hshape).1 _ _ (h.classes id hkind hshape).2⟩⟩

/-- Only the scopes changed, and all of them are scopes that were there or declare nothing. -/
theorem of_scopes (h : t.Classed R) (hsymbols : t'.symbols = t.symbols) (htypes : t'.types = t.types)
    (hscopes : ∀ c ∈ t'.scopes, c ∈ t.scopes ∨ ∀ name, c.find? name = none) : t'.Classed R := by
  have hsymbol : ∀ id, t'.symbol id = t.symbol id := fun id => by simp only [symbol, hsymbols]
  refine ⟨fun c hc name id hid => ?_, fun id => ?_⟩
  · rw [hsymbols, hsymbol]
    rcases hscopes c hc with hold | hnone
    · exact h.names c hold name id hid
    · rw [hnone] at hid
      cases hid
  · simp only [hsymbol, SymbolTable.fields, htypes]
    exact h.classes id

theorem openScope (h : t.Classed R) : t.openScope.Classed R := by
  refine h.of_scopes rfl rfl fun c hc => ?_
  rcases List.mem_cons.1 hc with rfl | hc
  · exact .inr fun name => by simp [SymbolTable.openScope, Scope.find?, Scope.empty]
  · exact .inl hc

theorem closeScope (h : t.Classed R) : t.closeScope.Classed R := by
  unfold SymbolTable.closeScope
  split
  · exact h
  · next scope outer ho =>
      refine h.of_scopes rfl rfl fun c hc => .inl ?_
      rw [scopes, ho]
      exact List.mem_cons_of_mem _ hc

/-- A type is made that no class has yet. -/
theorem addType (h : t.Classed R) (type : Ty) : (t.addType type).Classed R := by
  refine ⟨h.names, fun id hkind hshape => ?_⟩
  obtain ⟨hlt, hr⟩ := h.classes id hkind hshape
  refine ⟨hlt.trans_le (by simp [SymbolTable.addType]), ?_⟩
  have hfields : (t.addType type).fields (t.symbol id).type = t.fields (t.symbol id).type := by
    simp [SymbolTable.fields, SymbolTable.addType, Array.getElem?_push, hlt.ne]
  rw [← hfields] at hr
  exact hr

theorem names_declare (h : t.Classed R) (kind : SymbolKind) (name : String) (type : Ty) :
    ∀ c ∈ (t.declare kind name type).scopes, ∀ other id, c.find? other = some id →
      id < (t.declare kind name type).symbols.size ∧
        ((t.declare kind name type).symbol id).name = other := by
  have hsize : (t.declare kind name type).symbols.size = t.symbols.size + 1 := by
    simp [SymbolTable.declare]
  have hold {c : Scope} (hc : c ∈ t.scopes) {other : String} {id : SymbolId} (hid : c.find? other = some id) :
      id < (t.declare kind name type).symbols.size ∧
        ((t.declare kind name type).symbol id).name = other := by
    obtain ⟨hlt, hname⟩ := h.names c hc other id hid
    rw [Closed.symbol_declare kind name type hlt]
    exact ⟨hsize ▸ hlt.trans (Nat.lt_succ_self _), hname⟩
  intro c hc other id hid
  rcases List.mem_cons.1 hc with rfl | hc
  · change (t.current.insert name t.nextSymbol _).find? other = some id at hid
    rw [Scope.find?_insert] at hid
    split at hid
    · next heq =>
        cases hfound : t.current.find? name with
        | some i =>
            rw [hfound] at hid
            obtain rfl : i = id := Option.some.inj hid
            exact hold List.mem_cons_self (heq ▸ hfound)
        | none =>
            rw [hfound] at hid
            obtain rfl : t.nextSymbol = id := Option.some.inj hid
            rw [Closed.symbol_declare_self]
            refine ⟨by rw [hsize]; exact Nat.lt_succ_self _, ?_⟩
            split <;> exact heq.symm
    · exact hold List.mem_cons_self hid
  · exact hold (List.mem_cons_of_mem _ hc) hid

/-- A class that is declared has the name and the fields that `R` wants. -/
theorem declare (h : t.Classed R) (kind : SymbolKind) (name : String) (type : Ty)
    (hnew : kind = .type → type.shape = .object →
      type.id < t.types.size ∧ R type.id name (t.fields type).size) :
    (t.declare kind name type).Classed R := by
  refine ⟨h.names_declare kind name type, fun id => ?_⟩
  rcases Nat.lt_trichotomy id t.symbols.size with hlt | rfl | hlt
  · rw [Closed.symbol_declare kind name type hlt]
    exact h.classes id
  · have hself := Closed.symbol_declare_self t kind name type
    have hkind : ((t.declare kind name type).symbol t.nextSymbol).kind = kind := by
      rw [hself]
      split <;> rfl
    have hname : ((t.declare kind name type).symbol t.nextSymbol).name = name := by
      rw [hself]
      split <;> rfl
    have htype : ((t.declare kind name type).symbol t.nextSymbol).type = type := by
      rw [hself]
      split <;> rfl
    change ((t.declare kind name type).symbol t.nextSymbol).kind = .type → _
    intro hk hshape
    change ((t.declare kind name type).symbol t.nextSymbol).type.id < t.types.size ∧
      R ((t.declare kind name type).symbol t.nextSymbol).type.id
        ((t.declare kind name type).symbol t.nextSymbol).name
        (t.fields ((t.declare kind name type).symbol t.nextSymbol).type).size
    rw [hname, htype]
    exact hnew (hkind.symm.trans hk) (htype ▸ hshape)
  · rw [Slotted.symbol_declare_of_size_lt kind name type hlt]
    exact fun hkind => SymbolKind.noConfusion hkind

theorem modifySymbol (h : t.Classed R) (id : SymbolId) {f : Symbol → Symbol}
    (hf : ∀ s : Symbol, (f s).kind = s.kind ∧ (f s).name = s.name ∧ (f s).type = s.type) :
    (t.modifySymbol id f).Classed R := by
  have hsame (i : SymbolId) : ((t.modifySymbol id f).symbol i).kind = (t.symbol i).kind ∧
      ((t.modifySymbol id f).symbol i).name = (t.symbol i).name ∧
      ((t.modifySymbol id f).symbol i).type = (t.symbol i).type := by
    rcases eq_or_ne i id with rfl | hne
    · by_cases hlt : i < t.symbols.size
      · rw [Closed.symbol_modifySymbol_self hlt]
        exact hf _
      · have hsame : (t.modifySymbol i f).symbol i = t.symbol i := by
          simp [symbol, SymbolTable.modifySymbol, Nat.le_of_not_lt hlt]
        rw [hsame]
        exact ⟨rfl, rfl, rfl⟩
    · rw [Closed.symbol_modifySymbol hne]
      exact ⟨rfl, rfl, rfl⟩
  refine ⟨fun c hc name i hi => ?_, fun i => ?_⟩
  · rw [(hsame i).2.1]
    exact ⟨by simpa [SymbolTable.modifySymbol] using (h.names c hc name i hi).1,
      (h.names c hc name i hi).2⟩
  · rw [(hsame i).1, (hsame i).2.1, (hsame i).2.2]
    exact h.classes i

/-- A type gets its fields. -/
theorem setFields (h : t.Classed R) (type : Ty) (fields : Array SymbolId)
    (hother : ∀ k name n, k ≠ type.id → R k name n → R' k name n)
    (hself : ∀ name n, R type.id name n → R' type.id name fields.size) :
    (t.setFields type fields).Classed R' := by
  refine ⟨h.names, fun id hkind hshape => ?_⟩
  obtain ⟨hlt, hr⟩ := h.classes id hkind hshape
  have hsize : (t.setFields type fields).types.size = t.types.size := by simp [SymbolTable.setFields]
  refine ⟨hsize ▸ hlt, ?_⟩
  change R' (t.symbol id).type.id (t.symbol id).name ((t.setFields type fields).fields (t.symbol id).type).size
  by_cases heq : (t.symbol id).type.id = type.id
  · rw [fields_setFields heq (heq ▸ hlt), heq]
    exact hself _ _ (heq ▸ hr)
  · rw [fields_setFields_of_ne heq]
    exact hother _ _ _ heq hr

/-- No class is predeclared. -/
theorem predeclared : SymbolTable.predeclared.Classed R := by
  refine ⟨fun c hc name id hid => ?_, fun id hkind hshape => ?_⟩
  · obtain rfl := List.mem_singleton.1 hc
    obtain ⟨hlt, -, hname⟩ := Slotted.names_predeclared hid
    exact ⟨hlt, hname⟩
  · have hnone : ∀ s ∈ SymbolTable.predeclared.symbols, s.kind = .type → s.type.shape ≠ .object := by
      simp [SymbolTable.predeclared, noSymbol, Ty.shape]
    unfold symbol at hkind hshape
    cases hs : SymbolTable.predeclared.symbols[id]? with
    | none =>
        rw [hs] at hkind
        cases hkind
    | some s =>
        rw [hs] at hkind hshape
        exact absurd hshape (hnone s (Array.mem_of_getElem? hs) hkind)

/-- What is looked up has this name. -/
theorem name_of_lookup? (h : t.Classed R) {name : String} {id : SymbolId} (hid : t.lookup? name = some id) :
    (t.symbol id).name = name := by
  rcases Option.or_eq_some_iff.1 hid with hid | ⟨-, hid⟩
  · exact (h.names _ List.mem_cons_self name id hid).2
  · obtain ⟨c, hc, hid⟩ := List.exists_of_findSome?_eq_some hid
    exact (h.names c (List.mem_cons_of_mem _ hc) name id hid).2

/-- What a name of a class stands for has the number of fields that `R` wants. -/
theorem fields_of_type? (h : t.Classed R) {name : Option String} {type : Ty}
    (htype : t.type? name = some type) (hshape : type.shape = .object) :
    ∃ n, name = some n ∧ R type.id n (t.fields type).size := by
  obtain ⟨n, hn, id, hid, hkind, rfl⟩ : ∃ n, name = some n ∧ ∃ id, t.lookup? n = some id ∧
      (t.symbol id).kind = .type ∧ (t.symbol id).type = type := by
    simpa [type?, Option.bind_eq_some_iff] using htype
  refine ⟨n, hn, ?_⟩
  rw [← h.name_of_lookup? hid]
  exact (h.classes id hkind hshape).2

end Classed

end SymbolTable

end MicroJava
