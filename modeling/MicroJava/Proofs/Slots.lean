import MicroJava.Proofs.ExpressionCode

/-!
# Where variables and fields are

A variable has the number of the variables before it in its scope for an address, and a field that of
the fields before it in its class. `SymbolTable.Slotted P t` says so of a table, and besides that `P`
holds of the values of all constants. Declarations keep it, whatever names are declared twice. So what
a name stands for inside a method is a variable of the method or of the program
(`SymbolTable.Slotted.fits_operand?`), and a field has its place among the fields of its class
(`SymbolTable.Slotted.exists_field`).
-/

namespace MicroJava

/-- The value of a constant is good, and a variable is one of so many of the method or of the
program. -/
def Location.Fits (P : Int → Prop) (localCount dataSize : Nat) : Location → Prop
  | constant n => P n
  | localVar slot => ∃ k : Nat, slot = k ∧ k < localCount
  | globalVar address => ∃ k : Nat, address = k ∧ k < dataSize
  | _ => True

namespace SymbolTable

/-- The symbols of an array are variables, numbered in order. -/
def Numbers (t : SymbolTable) (ids : Array SymbolId) : Prop :=
  ∀ (k : Nat) (id : SymbolId), ids[k]? = some id →
    id < t.symbols.size ∧ (t.symbol id).kind = .variable ∧ (t.symbol id).address = k

/-- The variables of a scope at the given level have addresses below their number. If nothing else is
declared in it, they are numbered in order. -/
structure Lays (t : SymbolTable) (level : Int) (c : Scope) : Prop where
  names : ∀ name id, c.find? name = some id → id < t.symbols.size ∧
    ((t.symbol id).kind = .variable → (t.symbol id).level = level ∧
      ∃ k : Nat, (t.symbol id).address = k ∧ k < c.variableCount)
  count : c.variableCount ≤ c.locals.size
  locals : c.locals.size = c.variableCount → t.Numbers c.locals

/-- Each of several scopes, the innermost one first, lays out its variables. -/
def LaysAll (t : SymbolTable) : List Scope → Prop
  | [] => True
  | c :: cs => t.Lays ((cs.length : Int) - 1) c ∧ t.LaysAll cs

/-- Variables and fields have addresses below their numbers, classes are not too large, and `P` holds
of the values of constants. -/
structure Slotted (P : Int → Prop) (t : SymbolTable) : Prop where
  scopes : t.LaysAll t.scopes
  fields : ∀ e ∈ t.types, t.Numbers e.fields ∧ e.fields.size ≤ maxFields
  values : ∀ id, P (t.symbol id).value

/-- The symbols that were there have the addresses that they had, if they are variables. -/
structure KeepsSlots (t t' : SymbolTable) : Prop where
  size : t.symbols.size ≤ t'.symbols.size
  kind : ∀ id < t.symbols.size, (t'.symbol id).kind = (t.symbol id).kind
  slot : ∀ id < t.symbols.size, (t.symbol id).kind = .variable →
    (t'.symbol id).level = (t.symbol id).level ∧ (t'.symbol id).address = (t.symbol id).address

variable {P : Int → Prop} {t t' t'' : SymbolTable}

namespace KeepsSlots

theorem of_symbols (h : t'.symbols = t.symbols) : t.KeepsSlots t' := by
  have hsymbol : ∀ id, t'.symbol id = t.symbol id := fun id => by simp only [symbol, h]
  exact ⟨by rw [h], fun id _ => by rw [hsymbol], fun id _ _ => by rw [hsymbol]; exact ⟨rfl, rfl⟩⟩

theorem refl (t : SymbolTable) : t.KeepsSlots t := of_symbols rfl

theorem trans (h : t.KeepsSlots t') (h' : t'.KeepsSlots t'') : t.KeepsSlots t'' := by
  refine ⟨h.size.trans h'.size, fun id hid => ?_, fun id hid hkind => ?_⟩
  · rw [h'.kind id (hid.trans_le h.size), h.kind id hid]
  · obtain ⟨hlevel, haddress⟩ := h'.slot id (hid.trans_le h.size) ((h.kind id hid).trans hkind)
    rw [hlevel, haddress]
    exact h.slot id hid hkind

theorem declare (t : SymbolTable) (kind : SymbolKind) (name : String) (type : Ty) :
    t.KeepsSlots (t.declare kind name type) := by
  refine ⟨(Closed.below_declare t kind name type).symbols, fun id hid => ?_, fun id hid _ => ?_⟩
  · rw [Closed.symbol_declare kind name type hid]
  · rw [Closed.symbol_declare kind name type hid]
    exact ⟨rfl, rfl⟩

/-- A variable that is changed keeps its address. -/
theorem modifySymbol {id : SymbolId} {f : Symbol → Symbol}
    (hkind : (f (t.symbol id)).kind = (t.symbol id).kind)
    (hslot : (t.symbol id).kind = .variable → (f (t.symbol id)).level = (t.symbol id).level ∧
      (f (t.symbol id)).address = (t.symbol id).address) :
    t.KeepsSlots (t.modifySymbol id f) := by
  refine ⟨(Closed.below_modifySymbol t id f).symbols, fun i hi => ?_, fun i hi hvariable => ?_⟩
  · rcases eq_or_ne i id with rfl | hne
    · rw [Closed.symbol_modifySymbol_self hi]
      exact hkind
    · rw [Closed.symbol_modifySymbol hne]
  · rcases eq_or_ne i id with rfl | hne
    · rw [Closed.symbol_modifySymbol_self hi]
      exact hslot hvariable
    · rw [Closed.symbol_modifySymbol hne]
      exact ⟨rfl, rfl⟩

end KeepsSlots

theorem Numbers.mono {ids : Array SymbolId} (h : t.Numbers ids) (hk : t.KeepsSlots t') :
    t'.Numbers ids := by
  intro k id hid
  obtain ⟨hlt, hkind, haddress⟩ := h k id hid
  exact ⟨hlt.trans_le hk.size, (hk.kind id hlt).trans hkind, (hk.slot id hlt hkind).2.trans haddress⟩

theorem Numbers.push {ids : Array SymbolId} {id : SymbolId} (h : t.Numbers ids)
    (hlt : id < t.symbols.size) (hkind : (t.symbol id).kind = .variable)
    (haddress : (t.symbol id).address = ids.size) : t.Numbers (ids.push id) := by
  intro k i hi
  rw [Array.getElem?_push] at hi
  split at hi
  · next hk =>
      obtain rfl := Option.some.inj hi
      exact ⟨hlt, hkind, by rw [haddress, hk]⟩
  · exact h k i hi

theorem Lays.mono {level : Int} {c : Scope} (h : t.Lays level c) (hk : t.KeepsSlots t') :
    t'.Lays level c := by
  refine ⟨fun name id hid => ?_, h.count, fun hsize => (h.locals hsize).mono hk⟩
  obtain ⟨hlt, hslot⟩ := h.names name id hid
  refine ⟨hlt.trans_le hk.size, fun hvariable => ?_⟩
  have hkind := (hk.kind id hlt).symm.trans hvariable
  rw [(hk.slot id hlt hkind).1, (hk.slot id hlt hkind).2]
  exact hslot hkind

theorem LaysAll.mono {cs : List Scope} (h : t.LaysAll cs) (hk : t.KeepsSlots t') :
    t'.LaysAll cs := by
  induction cs with
  | nil => trivial
  | cons c cs ih => exact ⟨h.1.mono hk, ih h.2⟩

/-! ### What declarations do -/

namespace Slotted

theorem fields_mono (h : t.Slotted P) (hk : t.KeepsSlots t') :
    ∀ e ∈ t.types, t'.Numbers e.fields ∧ e.fields.size ≤ maxFields :=
  fun e he => ⟨(h.fields e he).1.mono hk, (h.fields e he).2⟩

theorem symbol_declare_of_size_lt (kind : SymbolKind) (name : String) (type : Ty) {id : SymbolId}
    (hid : t.symbols.size < id) : (t.declare kind name type).symbol id = noSymbol := by
  simp [symbol, SymbolTable.declare, Array.getElem?_push, hid.ne', hid.le]

/-- A new variable is laid out behind those of its scope. -/
theorem lays_insert (h : t.Lays t.level t.current) (kind : SymbolKind) (name : String) (type : Ty) :
    (t.declare kind name type).Lays t.level
      (t.current.insert name t.nextSymbol (kind = .variable : Bool)) := by
  have hk := KeepsSlots.declare t kind name type
  by_cases hd : t.current.declares name = true
  · rw [Scope.insert_of_declares hd]
    exact h.mono hk
  have hnew := Closed.symbol_declare_self t kind name type
  have hlt : t.nextSymbol < (t.declare kind name type).symbols.size := by
    simp [SymbolTable.declare, nextSymbol]
  refine ⟨fun other id hid => ?_, ?_, fun hsize => ?_⟩
  · have hnone : t.current.find? name = none := by simpa [Scope.declares] using hd
    rw [Scope.find?_insert, hnone] at hid
    split at hid
    · obtain rfl : t.nextSymbol = id := Option.some.inj hid
      refine ⟨hlt, fun hvariable => ?_⟩
      have hkind : kind = .variable := by
        rw [hnew] at hvariable
        split at hvariable
        · assumption
        · exact hvariable
      rw [hnew, if_pos hkind]
      refine ⟨rfl, t.current.variableCount, rfl, ?_⟩
      simp [Scope.insert, hd, hkind]
    · obtain ⟨hlt', hslot⟩ := (h.mono hk).names other id hid
      refine ⟨hlt', fun hvariable => ?_⟩
      obtain ⟨hlevel, k, haddress, hlt⟩ := hslot hvariable
      refine ⟨hlevel, k, haddress, hlt.trans_le ?_⟩
      rw [Scope.insert, if_neg hd]
      dsimp only
      split <;> omega
  · have hcount := h.count
    rw [Scope.insert, if_neg hd]
    dsimp only
    rw [Array.size_push]
    split <;> omega
  · have hcount := h.count
    rw [Scope.insert, if_neg hd] at hsize ⊢
    dsimp only at hsize ⊢
    rw [Array.size_push] at hsize
    by_cases hkind : kind = .variable
    · rw [if_pos (by simpa using hkind)] at hsize
      have hsize := Nat.succ.inj hsize
      refine ((h.locals hsize).mono hk).push hlt ?_ ?_
      · rw [hnew, if_pos hkind]
        exact hkind
      · rw [hnew, if_pos hkind, hsize]
    · rw [if_neg (by simpa using hkind)] at hsize
      omega

theorem declare (h : t.Slotted P) (hzero : P 0) (kind : SymbolKind) (name : String) (type : Ty) :
    (t.declare kind name type).Slotted P where
  scopes := ⟨lays_insert h.scopes.1 kind name type, h.scopes.2.mono (.declare t kind name type)⟩
  fields := h.fields_mono (.declare t kind name type)
  values := fun id => by
    rcases Nat.lt_trichotomy id t.symbols.size with hlt | rfl | hlt
    · rw [Closed.symbol_declare kind name type hlt]
      exact h.values id
    · change P ((t.declare kind name type).symbol t.nextSymbol).value
      rw [Closed.symbol_declare_self]
      split <;> exact hzero
    · rw [symbol_declare_of_size_lt kind name type hlt]
      exact hzero

theorem modifySymbol (h : t.Slotted P) {id : SymbolId} {f : Symbol → Symbol}
    (hk : t.KeepsSlots (t.modifySymbol id f)) (hvalue : P (f (t.symbol id)).value) :
    (t.modifySymbol id f).Slotted P where
  scopes := LaysAll.mono h.scopes hk
  fields := h.fields_mono hk
  values := fun i => by
    rcases eq_or_ne i id with rfl | hne
    · by_cases hlt : i < t.symbols.size
      · rw [Closed.symbol_modifySymbol_self hlt]
        exact hvalue
      · have hsame : (t.modifySymbol i f).symbol i = t.symbol i := by
          simp [symbol, SymbolTable.modifySymbol, Nat.le_of_not_lt hlt]
        rw [hsame]
        exact h.values i
    · rw [Closed.symbol_modifySymbol hne]
      exact h.values i

theorem addType (h : t.Slotted P) (type : Ty) : (t.addType type).Slotted P where
  scopes := LaysAll.mono h.scopes (.of_symbols rfl)
  fields := by
    have hk : t.KeepsSlots (t.addType type) := .of_symbols rfl
    intro e he
    rcases Array.mem_push.1 he with he | rfl
    · exact h.fields_mono hk e he
    · exact ⟨fun k id hid => by simp at hid, Nat.zero_le _⟩
  values := h.values

theorem setFields (h : t.Slotted P) (type : Ty) {fields : Array SymbolId} (hfields : t.Numbers fields)
    (hsize : fields.size ≤ maxFields) : (t.setFields type fields).Slotted P where
  scopes := LaysAll.mono h.scopes (.of_symbols rfl)
  fields := by
    have hk : t.KeepsSlots (t.setFields type fields) := .of_symbols rfl
    intro e (he : e ∈ t.types.modify type.id fun entry => { entry with fields })
    rcases Array.mem_of_mem_modify he with hold | ⟨e', -, rfl⟩
    · exact h.fields_mono hk e hold
    · exact ⟨hfields.mono hk, hsize⟩
  values := h.values

theorem openScope (h : t.Slotted P) : t.openScope.Slotted P where
  scopes := by
    refine ⟨⟨fun name id hid => ?_, le_rfl, fun _ k id hid => ?_⟩,
      LaysAll.mono h.scopes (.of_symbols rfl)⟩
    · simp [SymbolTable.openScope, Scope.find?, Scope.empty] at hid
    · simp [SymbolTable.openScope, Scope.empty] at hid
  fields := h.fields_mono (.of_symbols rfl)
  values := h.values

theorem closeScope (h : t.Slotted P) : t.closeScope.Slotted P := by
  unfold SymbolTable.closeScope
  split
  · exact h
  · next scope outer ho =>
      have hscopes := h.scopes
      rw [SymbolTable.scopes, ho] at hscopes
      exact ⟨LaysAll.mono hscopes.2 (.of_symbols rfl), h.fields_mono (.of_symbols rfl), h.values⟩

theorem find?_foldl_insert (names : List (String × SymbolId)) {c : Scope} {name : String} {id : SymbolId}
    (h : (names.foldl (fun c (name, id) => c.insert name id false) c).find? name = some id) :
    (name, id) ∈ names ∨ c.find? name = some id := by
  induction names generalizing c with
  | nil => exact .inr h
  | cons entry names ih =>
      rcases ih h with hmem | hfirst
      · exact .inl (List.mem_cons_of_mem _ hmem)
      · rw [Scope.find?_insert] at hfirst
        split at hfirst
        · next heq =>
            cases hold : c.find? entry.1 with
            | none =>
                rw [hold] at hfirst
                obtain rfl : entry.2 = id := Option.some.inj hfirst
                exact .inl (List.mem_cons.2 (.inl (by rw [heq])))
            | some i =>
                rw [hold] at hfirst
                exact .inr (heq ▸ hold.trans hfirst)
        · exact .inr hfirst

/-- The predeclared names stand for symbols of this name, and for no variables. -/
theorem names_predeclared {name : String} {id : SymbolId}
    (h : SymbolTable.predeclared.current.find? name = some id) :
    id < SymbolTable.predeclared.symbols.size ∧
      (SymbolTable.predeclared.symbol id).kind ≠ .variable ∧
      (SymbolTable.predeclared.symbol id).name = name := by
  rcases find?_foldl_insert _ h with h | h
  · have hentries : ∀ entry ∈ [("int", 1), ("char", 2), ("null", 3), ("chr", chrId), ("ord", ordId),
        ("len", lenId)], entry.2 < SymbolTable.predeclared.symbols.size ∧
        (SymbolTable.predeclared.symbol entry.2).kind ≠ .variable ∧
        (SymbolTable.predeclared.symbol entry.2).name = entry.1 := by
      decide
    exact hentries (name, id) h
  · simp [Scope.find?, Scope.empty] at h

theorem predeclared (hzero : P 0) : SymbolTable.predeclared.Slotted P where
  scopes := by
    refine ⟨⟨fun name id hid => ?_, Nat.zero_le _, fun hsize => ?_⟩, trivial⟩
    · obtain ⟨hlt, hkind, -⟩ := names_predeclared hid
      exact ⟨hlt, fun h => absurd h hkind⟩
    · exact absurd hsize (by decide)
  fields := by
    intro e he
    have hnone : ∀ e ∈ SymbolTable.predeclared.types, e.fields = #[] := by simp [SymbolTable.predeclared]
    rw [hnone e he]
    exact ⟨fun k id hid => by simp at hid, Nat.zero_le _⟩
  values := by
    intro id
    have hvalues : ∀ s ∈ SymbolTable.predeclared.symbols, s.value = 0 := by
      simp [SymbolTable.predeclared, noSymbol]
    unfold symbol
    cases hs : SymbolTable.predeclared.symbols[id]? with
    | none => exact hzero
    | some s =>
        rw [Option.getD_some, hvalues s (Array.mem_of_getElem? hs)]
        exact hzero

end Slotted

/-! ### What names stand for inside a method -/

/-- The innermost scope is that of a method with so many variables, in a program with so many. -/
structure Inside (localCount dataSize : Nat) (t : SymbolTable) : Prop where
  current : t.current.variableCount = localCount
  outer : ∃ program base : Scope, t.outer = [program, base] ∧
    program.variableCount = dataSize ∧ base.variableCount = 0

variable {localCount dataSize : Nat}

namespace Slotted

theorem lookup?_cases (h : t.Slotted P) (hinside : t.Inside localCount dataSize) {name : String}
    {id : SymbolId} (hid : t.lookup? name = some id) (hkind : (t.symbol id).kind = .variable) :
    ∃ k : Nat, (t.symbol id).address = k ∧
      ((t.symbol id).level = 1 ∧ k < localCount ∨ (t.symbol id).level = 0 ∧ k < dataSize) := by
  obtain ⟨program, base, houter, hprogram, hbase⟩ := hinside.outer
  obtain ⟨hcurrent, hscopes⟩ := h.scopes
  rw [houter] at hcurrent hscopes
  obtain ⟨hlays, hlays', -⟩ := hscopes
  simp only [lookup?, houter, Option.or_eq_some_iff, List.findSome?_cons, List.findSome?_nil] at hid
  rcases hid with hid | ⟨-, hid⟩
  · obtain ⟨hlevel, k, haddress, hk⟩ := (hcurrent.names name id hid).2 hkind
    exact ⟨k, haddress, .inl ⟨hlevel, hinside.current ▸ hk⟩⟩
  · split at hid
    · next i hi =>
        obtain rfl := Option.some.inj hid
        obtain ⟨hlevel, k, haddress, hk⟩ := (hlays.names name i hi).2 hkind
        exact ⟨k, haddress, .inr ⟨hlevel, hprogram ▸ hk⟩⟩
    · split at hid
      · next i hi =>
          obtain rfl := Option.some.inj hid
          obtain ⟨-, k, -, hk⟩ := (hlays'.names name i hi).2 hkind
          omega
      · cases hid

/-- The variable or constant that a name stands for is one of the method or of the program. -/
theorem fits_operand? (h : t.Slotted P) (hinside : t.Inside localCount dataSize)
    {name : Option String} {x : Operand} (hx : t.operand? name = some x) :
    x.location.Fits P localCount dataSize := by
  obtain ⟨n, id, -, hid, hx⟩ := exists_of_operand? hx
  unfold Operand.ofSymbol? at hx
  split at hx
  · obtain rfl := Option.some.inj hx
    exact h.values id
  · next hkind =>
      obtain rfl := Option.some.inj hx
      obtain ⟨k, haddress, ⟨hlevel, hk⟩ | ⟨hlevel, hk⟩⟩ := h.lookup?_cases hinside hid hkind
      · rw [if_neg (by rw [hlevel]; decide)]
        exact ⟨k, haddress, hk⟩
      · rw [if_pos hlevel]
        exact ⟨k, haddress, hk⟩
  · obtain rfl := Option.some.inj hx
    trivial
  · cases hx
  · cases hx

/-- A field is one of the fields of its class. -/
theorem exists_field (h : t.Slotted P) {type : Ty} {name : Option String} {x : Operand}
    (hx : t.fieldOperand? type name = some x) :
    ∃ k : Nat, x.location = .field k ∧ k < (t.fields type).size ∧ (t.fields type).size ≤ maxFields := by
  obtain ⟨n, id, -, hid, rfl⟩ := exists_of_fieldOperand? hx
  have hmem : id ∈ t.fields type := Array.mem_of_find?_eq_some hid
  unfold SymbolTable.fields at hmem ⊢
  cases he : t.types[type.id]? with
  | none => simp [he] at hmem
  | some e =>
      rw [he] at hmem
      obtain ⟨hnumbers, hsize⟩ := h.fields e (Array.mem_of_getElem? he)
      obtain ⟨k, hk, rfl⟩ := Array.getElem_of_mem hmem
      obtain ⟨-, -, haddress⟩ := hnumbers k e.fields[k] (Array.getElem?_eq_getElem hk)
      exact ⟨k, congrArg Location.field haddress, hk, hsize⟩

theorem size_fields_le (h : t.Slotted P) (type : Ty) : (t.fields type).size ≤ maxFields := by
  unfold SymbolTable.fields
  cases he : t.types[type.id]? with
  | none => exact Nat.zero_le _
  | some e => exact (h.fields e (Array.mem_of_getElem? he)).2

end Slotted

end SymbolTable

end MicroJava
