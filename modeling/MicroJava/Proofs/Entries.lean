import MicroJava.Proofs.Allocation
import MicroJava.Proofs.ScopeHistory

/-!
# What a program declares

An `Entry` is a declaration at one place of a program, together with the names that are declared in a
scope of its own: the parameters and variables of a method, or the fields of a class. An entry makes one
symbol for itself and one for each of these names, also if a name is taken, so the symbols of a program
can be numbered from its tree alone (`Entry.number`).

`SymbolTable.Makes es t t'` is what is known of the tables before and after the entries `es` were made,
and `SymbolTable.Opens t c es t'` what is known inside the scope of the symbol `c`, when `es` were made
there. Of what a scope fills with, the first declarations of each name count, and the variables among
them have the slots from zero on (`SymbolTable.Fills`).
-/

namespace MicroJava

/-- A declaration at one place of a program, with the names that are declared in a scope of its own. -/
structure Entry where
  kind : SymbolKind
  name : String
  parameters : List String := []
  locals : List String := []

namespace Entry

/-- A variable with this name. -/
def ofVariable (name : String) : Entry := { kind := .variable, name }

/-- What is declared in the scope of a declaration. -/
def inner (e : Entry) : List Entry := (e.parameters ++ e.locals).map ofVariable

/-- The number of symbols that a declaration makes. -/
def size (e : Entry) : Nat := 1 + e.inner.length

/-- The number of symbols that several declarations make. -/
def total (es : List Entry) : Nat := (es.map size).sum

/-- Declarations with the numbers of their symbols, if the next symbol is numbered `id`. -/
def number (id : SymbolId) : List Entry → List (SymbolId × Entry)
  | [] => []
  | e :: es => (id, e) :: number (id + e.size) es

/-- Declarations as those of names in one scope. -/
def namings (id : SymbolId) (es : List Entry) : List Naming :=
  (number id es).map fun x => ⟨x.2.name, x.1, x.2.kind = .variable⟩

/-- The symbols that names stand for in the scope of these declarations, in order. -/
def bound (id : SymbolId) (es : List Entry) : List SymbolId :=
  (firstsBy Naming.name (namings id es)).map Naming.id

variable {es es' : List Entry} {id : SymbolId}

theorem total_append : total (es ++ es') = total es + total es' := by
  simp [total]

theorem total_map_ofVariable (names : List String) : total (names.map ofVariable) = names.length := by
  induction names with
  | nil => rfl
  | cons name names ih =>
      rw [List.length_cons, ← ih, total, List.map_cons, List.map_cons, List.sum_cons]
      exact Nat.add_comm _ _

theorem total_inner (e : Entry) : total e.inner = e.inner.length := by
  rw [inner, total_map_ofVariable, List.length_map]

theorem number_append : number id (es ++ es') = number id es ++ number (id + total es) es' := by
  induction es generalizing id with
  | nil => rfl
  | cons e es ih => simp [number, ih, total, Nat.add_assoc]

theorem namings_append : namings id (es ++ es') = namings id es ++ namings (id + total es) es' := by
  rw [namings, number_append, List.map_append]
  rfl

theorem snd_mem_of_mem_number {x : SymbolId × Entry} (h : x ∈ number id es) : x.2 ∈ es := by
  induction es generalizing id with
  | nil => exact absurd h List.not_mem_nil
  | cons e es ih =>
      rcases List.mem_cons.1 h with rfl | h
      · exact List.mem_cons_self
      · exact List.mem_cons_of_mem e (ih h)

theorem le_fst_of_mem_number {x : SymbolId × Entry} (h : x ∈ number id es) : id ≤ x.1 := by
  induction es generalizing id with
  | nil => exact absurd h List.not_mem_nil
  | cons e es ih =>
      rcases List.mem_cons.1 h with rfl | h
      · exact Nat.le_refl _
      · exact (Nat.le_add_right _ _).trans (ih h)

/-- In the scope of a declaration there are only variables. -/
theorem isVariable_of_mem_namings {names : List String} {n : Naming}
    (h : n ∈ namings id (names.map ofVariable)) : n.isVariable = true := by
  obtain ⟨x, hx, rfl⟩ := List.mem_map.1 h
  obtain ⟨name, -, hname⟩ := List.mem_map.1 (snd_mem_of_mem_number hx)
  simp [← hname, ofVariable]

end Entry

namespace SymbolTable

variable {t t' t'' : SymbolTable} {ns : List Naming} {es es' : List Entry}

/-! ### Symbols that stay -/

/-- The symbols that were there have the names and the kinds that they had, and variables have their
slots. -/
structure KeepsNames (t t' : SymbolTable) : Prop extends KeepsSlots t t' where
  name : ∀ id < t.symbols.size, (t'.symbol id).name = (t.symbol id).name

namespace KeepsNames

theorem of_old (hsize : t.symbols.size ≤ t'.symbols.size)
    (h : ∀ id < t.symbols.size, t'.symbol id = t.symbol id) : t.KeepsNames t' where
  size := hsize
  kind := fun id hid => by rw [h id hid]
  slot := fun id hid _ => by rw [h id hid]; exact ⟨rfl, rfl⟩
  name := fun id hid => by rw [h id hid]

theorem of_symbols (h : t'.symbols = t.symbols) : t.KeepsNames t' :=
  .of_old (by rw [h]) fun id _ => by simp only [symbol, h]

theorem trans (h : t.KeepsNames t') (h' : t'.KeepsNames t'') : t.KeepsNames t'' where
  toKeepsSlots := h.toKeepsSlots.trans h'.toKeepsSlots
  name := fun id hid => (h'.name id (hid.trans_le h.size)).trans (h.name id hid)

/-- What is no variable may get another address. -/
theorem modifySymbol {id : SymbolId} (hid : (t.symbol id).kind ≠ .variable) {f : Symbol → Symbol}
    (hf : ∀ c : Symbol, (f c).kind = c.kind ∧ (f c).name = c.name) :
    t.KeepsNames (t.modifySymbol id f) where
  toKeepsSlots := .modifySymbol (hf _).1 fun h => absurd h hid
  name := fun i hi => by
    rcases eq_or_ne i id with rfl | hne
    · rw [Closed.symbol_modifySymbol_self hi]
      exact (hf _).2
    · rw [Closed.symbol_modifySymbol hne]

end KeepsNames

/-! ### Scopes that are filled -/

/-- The innermost scope is what is left of the namings, whose symbols are as they were declared. Its
variables have the slots from zero on. -/
structure Fills (t : SymbolTable) (ns : List Naming) : Prop where
  holds : t.current.Holds ns
  symbols : ∀ n ∈ ns, n.id < t.symbols.size ∧ (t.symbol n.id).name = n.name ∧
    decide ((t.symbol n.id).kind = .variable) = n.isVariable
  slots : ∀ (k : Nat) (n : Naming), ((firstsBy Naming.name ns).filter Naming.isVariable)[k]? = some n →
    (t.symbol n.id).address = k ∧ (t.symbol n.id).level = t.level

/-- Variables of different names, numbered in order. -/
structure Frame (t : SymbolTable) (ids : Array SymbolId) : Prop where
  numbers : t.Numbers ids
  names : (ids.toList.map fun id => (t.symbol id).name).Nodup

namespace Fills

theorem mono (h : t.Fills ns) (hk : t.KeepsNames t') (hcurrent : t'.current = t.current)
    (hlevel : t'.level = t.level) : t'.Fills ns := by
  refine ⟨hcurrent ▸ h.holds, fun n hn => ?_, fun k n hn => ?_⟩
  · obtain ⟨hlt, hname, hkind⟩ := h.symbols n hn
    rw [hk.name n.id hlt, hk.kind n.id hlt]
    exact ⟨hlt.trans_le hk.size, hname, hkind⟩
  · obtain ⟨hmem, hvariable⟩ := List.mem_filter.1 (List.mem_of_getElem? hn)
    obtain ⟨hlt, -, hkind⟩ := h.symbols n (mem_of_mem_firstsBy hmem)
    obtain ⟨hlevel', haddress⟩ := hk.slot n.id hlt (of_decide_eq_true (hkind.trans hvariable))
    rw [hlevel', haddress, hlevel]
    exact h.slots k n hn

theorem openScope (t : SymbolTable) : t.openScope.Fills [] :=
  ⟨Scope.holds_empty _, by simp, by simp [firstsBy, List.eraseDupsBy, List.eraseDupsBy.loop]⟩

/-- A variable that is new in the scope has the next slot. -/
theorem declare (h : t.Fills ns) (kind : SymbolKind) (name : String) (type : Ty) :
    (t.declare kind name type).Fills (ns ++ [⟨name, t.nextSymbol, kind = .variable⟩]) := by
  have hsize : (t.declare kind name type).symbols.size = t.symbols.size + 1 := Array.size_push _
  have hnew := Closed.symbol_declare_self t kind name type
  have hold (n : Naming) (hn : n ∈ ns) :
      (t.declare kind name type).symbol n.id = t.symbol n.id :=
    Closed.symbol_declare kind name type (h.symbols n hn).1
  refine ⟨h.holds.insert ⟨name, t.nextSymbol, kind = .variable⟩, fun n hn => ?_, fun k n hn => ?_⟩
  · rcases List.mem_append.1 hn with hn | hn
    · rw [hold n hn, hsize]
      exact ⟨(h.symbols n hn).1.trans (Nat.lt_succ_self _), (h.symbols n hn).2⟩
    · rw [List.mem_singleton.1 hn, hnew, hsize]
      refine ⟨Nat.lt_succ_self _, ?_⟩
      split <;> exact ⟨rfl, rfl⟩
  · have hslots {n : Naming} (hn : ((firstsBy Naming.name ns).filter Naming.isVariable)[k]? = some n) :
        ((t.declare kind name type).symbol n.id).address = k ∧
          ((t.declare kind name type).symbol n.id).level = t.level := by
      rw [hold n (mem_of_mem_firstsBy (List.mem_filter.1 (List.mem_of_getElem? hn)).1)]
      exact h.slots k n hn
    rw [firstsBy_concat] at hn
    split at hn
    · exact hslots hn
    · rw [List.filter_append, List.getElem?_append] at hn
      split at hn
      · exact hslots hn
      · -- the last one is the new symbol, whose slot is the number of variables before it
        next hk =>
          by_cases hkind : kind = .variable
          · simp only [hkind, decide_true, List.filter_cons, List.filter_nil, if_true,
              List.getElem?_singleton] at hn
            split at hn
            · next hzero =>
                obtain rfl := Option.some.inj hn
                rw [hnew, if_pos hkind]
                refine ⟨?_, rfl⟩
                rw [h.holds.count, List.countP_eq_length_filter]
                dsimp only
                omega
            · cases hn
          · simp [hkind] at hn

/-- No name is listed twice. -/
theorem nodup_names (h : t.Fills ns) :
    (t.current.locals.toList.map fun id => (t.symbol id).name).Nodup := by
  have hnames : (firstsBy Naming.name ns).map (fun n => (t.symbol n.id).name) =
      (firstsBy Naming.name ns).map Naming.name :=
    List.map_congr_left fun n hn => (h.symbols n (mem_of_mem_firstsBy hn)).2.1
  rw [h.holds.locals, List.map_map]
  exact hnames ▸ nodup_map_firstsBy Naming.name ns

/-- The variables that are listed have the slots from zero on. -/
theorem slot (h : t.Fills ns) {k : Nat} {id : SymbolId}
    (hid : (t.current.locals.toList.filter fun id => (t.symbol id).kind = .variable)[k]? = some id) :
    (t.symbol id).address = k ∧ (t.symbol id).level = t.level := by
  have hfilter : (firstsBy Naming.name ns).filter (fun n => (t.symbol n.id).kind = .variable) =
      (firstsBy Naming.name ns).filter Naming.isVariable :=
    List.filter_congr fun n hn => (h.symbols n (mem_of_mem_firstsBy hn)).2.2
  rw [h.holds.locals, List.filter_map, List.getElem?_map, Option.map_eq_some_iff] at hid
  obtain ⟨n, hn, rfl⟩ := hid
  exact h.slots k n (hfilter ▸ hn)

/-- A scope with variables only is a frame. -/
theorem frame (h : t.Fills ns) (hns : ∀ n ∈ ns, n.isVariable = true) :
    t.Frame t.current.locals ∧ ∀ id ∈ t.current.locals, (t.symbol id).level = t.level := by
  have hvariable (n : Naming) (hn : n ∈ firstsBy Naming.name ns) :
      n.id < t.symbols.size ∧ (t.symbol n.id).kind = .variable := by
    obtain ⟨hlt, -, hkind⟩ := h.symbols n (mem_of_mem_firstsBy hn)
    exact ⟨hlt, of_decide_eq_true (hkind.trans (hns n (mem_of_mem_firstsBy hn)))⟩
  have hall : ((firstsBy Naming.name ns).filter Naming.isVariable) = firstsBy Naming.name ns :=
    List.filter_eq_self.2 fun n hn => hns n (mem_of_mem_firstsBy hn)
  have hslots := h.slots
  rw [hall] at hslots
  have hget {k : Nat} {id : SymbolId} (hid : t.current.locals[k]? = some id) :
      ∃ n, (firstsBy Naming.name ns)[k]? = some n ∧ n.id = id := by
    rwa [← Array.getElem?_toList, h.holds.locals, List.getElem?_map, Option.map_eq_some_iff] at hid
  refine ⟨⟨fun k id hid => ?_, h.nodup_names⟩, fun id hid => ?_⟩
  · obtain ⟨n, hn, rfl⟩ := hget hid
    obtain ⟨hlt, hkind⟩ := hvariable n (List.mem_of_getElem? hn)
    exact ⟨hlt, hkind, (hslots k n hn).1⟩
  · obtain ⟨k, hk⟩ := Array.getElem?_of_mem hid
    obtain ⟨n, hn, rfl⟩ := hget hk
    exact (hslots k n hn).2

theorem count (h : t.Fills ns) (hns : ∀ n ∈ ns, n.isVariable = true) :
    t.current.variableCount = (firstsBy Naming.name ns).length := by
  rw [h.holds.count, List.countP_eq_length]
  exact fun n hn => hns n (mem_of_mem_firstsBy hn)

end Fills

theorem Frame.mono {ids : Array SymbolId} (h : t.Frame ids) (hk : t.KeepsNames t') : t'.Frame ids := by
  refine ⟨h.numbers.mono hk.toKeepsSlots, ?_⟩
  have hnames : (ids.toList.map fun id => (t'.symbol id).name) =
      ids.toList.map fun id => (t.symbol id).name := by
    refine List.map_congr_left fun id hid => hk.name id ?_
    obtain ⟨k, hk⟩ := Array.getElem?_of_mem (Array.mem_toList_iff.1 hid)
    exact (h.numbers k id hk).1
  exact hnames ▸ h.names

/-! ### Entries in a table -/

/-- The symbol of a method has its parameters and variables, of which the first one of each name counts.
They are a frame. -/
structure HasLocals (t : SymbolTable) (id : SymbolId) (e : Entry) : Prop where
  parameters : (t.symbol id).parameters.toList =
    Entry.bound (id + 1) (e.parameters.map Entry.ofVariable)
  locals : (t.symbol id).locals.toList = Entry.bound (id + 1) e.inner
  frame : t.Frame (t.symbol id).locals
  level : ∀ i ∈ (t.symbol id).locals, (t.symbol i).level = 1

/-- The symbol of a class has a type with its fields, of which the first one of each name counts. -/
structure HasFields (t : SymbolTable) (id : SymbolId) (e : Entry) : Prop where
  known : (t.symbol id).type.id < t.types.size
  fields : (t.fields (t.symbol id).type).toList = Entry.bound (id + 1) e.inner
  frame : t.Frame (t.fields (t.symbol id).type)

/-- An entry was made, with the symbol numbered `id` for itself. -/
structure Records (t : SymbolTable) (id : SymbolId) (e : Entry) : Prop where
  inside : id + e.size ≤ t.symbols.size
  kind : (t.symbol id).kind = e.kind
  name : (t.symbol id).name = e.name
  method : e.kind = .method → t.HasLocals id e
  object : e.kind = .type → t.HasFields id e

theorem fields_setFields_of_le {type other : Ty} (hle : t.types.size ≤ other.id) {fields : Array SymbolId} :
    (t.setFields type fields).fields other = t.fields other := by
  simp [SymbolTable.fields, SymbolTable.setFields, hle]

/-- What was there is as it was. -/
structure Preserves (t t' : SymbolTable) : Prop where
  size : t.symbols.size ≤ t'.symbols.size
  old : ∀ id < t.symbols.size, t'.symbol id = t.symbol id
  types : t.types.size ≤ t'.types.size
  fields : ∀ type : Ty, type.id < t.types.size → t'.fields type = t.fields type

namespace Preserves

theorem of_eq (hsymbols : t'.symbols = t.symbols) (htypes : t'.types = t.types) : t.Preserves t' where
  size := by rw [hsymbols]
  old := fun id _ => by simp only [symbol, hsymbols]
  types := by rw [htypes]
  fields := fun type _ => by simp only [SymbolTable.fields, htypes]

theorem trans (h : t.Preserves t') (h' : t'.Preserves t'') : t.Preserves t'' where
  size := h.size.trans h'.size
  old := fun id hid => (h'.old id (hid.trans_le h.size)).trans (h.old id hid)
  types := h.types.trans h'.types
  fields := fun type htype => (h'.fields type (htype.trans_le h.types)).trans (h.fields type htype)

theorem keepsNames (h : t.Preserves t') : t.KeepsNames t' := .of_old h.size h.old

theorem declare (t : SymbolTable) (kind : SymbolKind) (name : String) (type : Ty) :
    t.Preserves (t.declare kind name type) where
  size := (Closed.below_declare t kind name type).symbols
  old := fun _ hid => Closed.symbol_declare kind name type hid
  types := Nat.le_refl _
  fields := fun _ _ => rfl

/-- A symbol is changed that was made since. -/
theorem modifySymbol (h : t.Preserves t') {id : SymbolId} (hid : t.symbols.size ≤ id)
    (f : Symbol → Symbol) : t.Preserves (t'.modifySymbol id f) where
  size := h.size.trans (Closed.below_modifySymbol t' id f).symbols
  old := fun i hi => (Closed.symbol_modifySymbol (hi.trans_le hid).ne f).trans (h.old i hi)
  types := h.types
  fields := h.fields

/-- A type that was made since gets its fields. -/
theorem setFields (h : t.Preserves t') {type : Ty} (htype : t.types.size ≤ type.id)
    (fields : Array SymbolId) : t.Preserves (t'.setFields type fields) where
  size := h.size
  old := h.old
  types := h.types.trans (Closed.below_setFields t' type fields).types
  fields := fun other hother =>
    (fields_setFields_of_ne (hother.trans_le htype).ne).trans (h.fields other hother)

end Preserves

namespace Records

variable {id : SymbolId} {e : Entry}

/-- An entry stays as long as its own symbol and the fields of its type do. -/
theorem mono (h : t.Records id e) (hk : t.KeepsNames t') (hsymbol : t'.symbol id = t.symbol id)
    (hfields : e.kind = .type → t.types.size ≤ t'.types.size ∧
      t'.fields (t.symbol id).type = t.fields (t.symbol id).type) : t'.Records id e := by
  refine ⟨h.inside.trans hk.size, hsymbol ▸ h.kind, hsymbol ▸ h.name, fun hkind => ?_, fun hkind => ?_⟩
  · have hm := h.method hkind
    refine ⟨hsymbol ▸ hm.parameters, hsymbol ▸ hm.locals, hsymbol ▸ hm.frame.mono hk, fun i hi => ?_⟩
    rw [hsymbol] at hi
    obtain ⟨k, hi'⟩ := Array.getElem?_of_mem hi
    obtain ⟨hlt, hvariable, -⟩ := hm.frame.numbers k i hi'
    exact (hk.slot i hlt hvariable).1.trans (hm.level i hi)
  · have ho := h.object hkind
    obtain ⟨htypes, hsame⟩ := hfields hkind
    refine ⟨?_, ?_, ?_⟩ <;> rw [hsymbol]
    · exact ho.known.trans_le htypes
    · rw [hsame]
      exact ho.fields
    · rw [hsame]
      exact ho.frame.mono hk

theorem preserves (h : t.Records id e) (hp : t.Preserves t') : t'.Records id e := by
  have hlt : id < t.symbols.size :=
    Nat.lt_of_lt_of_le (Nat.lt_add_of_pos_right (Nat.add_pos_left Nat.one_pos _)) h.inside
  exact h.mono hp.keepsNames (hp.old id hlt) fun hkind => ⟨hp.types, hp.fields _ (h.object hkind).known⟩

end Records

/-- What is known of the tables before and after entries were made. Inside a program the entries are
recorded. -/
structure Makes (es : List Entry) (t t' : SymbolTable) : Prop extends Preserves t t' where
  next : t'.nextSymbol = t.nextSymbol + Entry.total es
  outer : t'.outer = t.outer
  framed : (∀ type, t.Frame (t.fields type)) → ∀ type, t'.Frame (t'.fields type)
  fills : ∀ ns, t.Fills ns → t'.Fills (ns ++ Entry.namings t.nextSymbol es)
  records : t.level = 0 → ∀ x ∈ Entry.number t.nextSymbol es, t'.Records x.1 x.2

/-- What is known inside the scope of a symbol `c`, which was declared in the table `t`, when entries were
made in this scope. -/
structure Opens (t : SymbolTable) (c : Symbol) (es : List Entry) (t' : SymbolTable) : Prop
    extends Preserves t t' where
  other : c.kind ≠ .variable
  symbol : t'.symbol t.nextSymbol = c
  next : t'.nextSymbol = t.nextSymbol + 1 + Entry.total es
  outer : ∃ scope, t'.outer = scope :: t.outer
  around : ∀ ns, t.Fills ns → t'.closeScope.Fills (ns ++ [⟨c.name, t.nextSymbol, false⟩])
  inside : t'.Fills (Entry.namings (t.nextSymbol + 1) es)
  framed : (∀ type, t.Frame (t.fields type)) → ∀ type, t'.Frame (t'.fields type)
  records : t'.level = 0 → ∀ x ∈ Entry.number (t.nextSymbol + 1) es, t'.Records x.1 x.2

theorem level_eq_of_outer (h : t'.outer = t.outer) : t'.level = t.level := by
  rw [level, level, h]

namespace Makes

theorem trans (h : t.Makes es t') (h' : t'.Makes es' t'') : t.Makes (es ++ es') t'' where
  toPreserves := h.toPreserves.trans h'.toPreserves
  next := by rw [h'.next, h.next, Entry.total_append, Nat.add_assoc]
  outer := h'.outer.trans h.outer
  framed := h'.framed ∘ h.framed
  fills := fun ns hns => by
    have hfills := h'.fills _ (h.fills ns hns)
    rwa [List.append_assoc, h.next, ← Entry.namings_append] at hfills
  records := fun hlevel x hx => by
    rw [Entry.number_append] at hx
    rcases List.mem_append.1 hx with hx | hx
    · exact (h.records hlevel x hx).preserves h'.toPreserves
    · rw [← h.next] at hx
      exact h'.records ((level_eq_of_outer h.outer).trans hlevel) x hx

/-- Nothing was made but types without fields. -/
theorem of_extends (h : t.Extends t') (hfields : ∀ type, t'.fields type = t.fields type) :
    t.Makes [] t' where
  size := by rw [h.symbols]
  old := fun id _ => h.symbol id
  types := by simpa using h.types.length_le
  fields := fun type _ => hfields type
  next := congrArg Array.size h.symbols
  outer := h.outer
  framed := fun hframed type => by
    rw [hfields]
    exact (hframed type).mono (.of_symbols h.symbols)
  fills := fun ns hns => by
    rw [Entry.namings, Entry.number, List.map_nil, List.append_nil]
    exact hns.mono (.of_symbols h.symbols) h.current (level_eq_of_outer h.outer)
  records := fun _ x hx => absurd hx List.not_mem_nil

theorem refl (t : SymbolTable) : t.Makes [] t := .of_extends (.refl t) fun _ => rfl

theorem addType (t : SymbolTable) (type : Ty) : t.Makes [] (t.addType type) := by
  refine .of_extends ⟨rfl, rfl, rfl, rfl, by simp [SymbolTable.addType]⟩ fun other => ?_
  simp only [SymbolTable.fields, SymbolTable.addType, Array.getElem?_push]
  split
  · next h => simp [h]
  · rfl

/-- A symbol that is neither a method nor a type. -/
theorem declare (t : SymbolTable) {kind : SymbolKind} (hkind : kind ≠ .method ∧ kind ≠ .type)
    (name : String) (type : Ty) : t.Makes [{ kind, name }] (t.declare kind name type) where
  toPreserves := .declare t kind name type
  next := Array.size_push _
  outer := rfl
  framed := fun hframed type' => (hframed type').mono (Preserves.declare t kind name type).keepsNames
  fills := fun ns hns => hns.declare kind name type
  records := fun _ x hx => by
    obtain rfl := List.mem_singleton.1 hx
    refine ⟨?_, ?_, ?_, fun h => absurd h hkind.1, fun h => absurd h hkind.2⟩
    · exact Nat.le_of_eq (Array.size_push _).symm
    all_goals
      dsimp only
      rw [Closed.symbol_declare_self]
      split <;> rfl

/-- What is declared may be changed afterwards, but for its kind and its name. -/
theorem declare_modifySymbol (t : SymbolTable) {kind : SymbolKind}
    (hkind : kind ≠ .variable ∧ kind ≠ .method ∧ kind ≠ .type) (name : String) (type : Ty)
    {f : Symbol → Symbol} (hf : ∀ c : Symbol, (f c).kind = c.kind ∧ (f c).name = c.name) :
    t.Makes [{ kind, name }] ((t.declare kind name type).modifySymbol t.nextSymbol f) := by
  have hsize : (t.declare kind name type).symbols.size = t.symbols.size + 1 := Array.size_push _
  have hnew := Closed.symbol_declare_self t kind name type
  rw [if_neg hkind.1] at hnew
  have hkeeps : (t.declare kind name type).KeepsNames
      ((t.declare kind name type).modifySymbol t.nextSymbol f) :=
    .modifySymbol (by rw [hnew]; exact hkind.1) hf
  have hpreserves : t.Preserves ((t.declare kind name type).modifySymbol t.nextSymbol f) :=
    (Preserves.declare t kind name type).modifySymbol (Nat.le_refl _) f
  refine ⟨hpreserves, ?_, rfl, fun hframed type' => (hframed type').mono hpreserves.keepsNames,
    fun ns hns => (hns.declare kind name type).mono hkeeps rfl rfl, fun _ x hx => ?_⟩
  · exact (Array.size_modify).trans hsize
  · obtain rfl := List.mem_singleton.1 hx
    have hlt : t.nextSymbol < (t.declare kind name type).symbols.size := hsize ▸ Nat.lt_succ_self _
    refine ⟨?_, ?_, ?_, fun h => absurd h hkind.2.1, fun h => absurd h hkind.2.2⟩
    · exact Nat.le_of_eq ((Array.size_modify).trans hsize).symm
    all_goals
      dsimp only
      rw [Closed.symbol_modifySymbol_self hlt, hnew]
    exacts [(hf _).1, (hf _).2]

end Makes

/-! ### Scopes of their own -/

theorem types_closeScope (t : SymbolTable) : t.closeScope.types = t.types := by
  unfold closeScope
  split <;> rfl

theorem fields_closeScope (t : SymbolTable) (type : Ty) : t.closeScope.fields type = t.fields type := by
  rw [fields, types_closeScope, fields]

theorem symbol_closeScope (t : SymbolTable) (id : SymbolId) :
    t.closeScope.symbol id = t.symbol id := by
  rw [symbol, symbols_closeScope, symbol]

namespace Opens

variable {c : Symbol} {f : Symbol → Symbol}

/-- The scope around stays as it is while the symbols keep their names. -/
theorem fills_closeScope (houter : ∃ scope, t'.outer = scope :: t.outer) (hsame : t''.outer = t'.outer)
    (hk : t'.KeepsNames t'') (h : t'.closeScope.Fills ns) : t''.closeScope.Fills ns := by
  obtain ⟨scope, houter⟩ := houter
  have hopen : t'.closeScope.KeepsNames t' := .of_symbols (symbols_closeScope t').symm
  have hclose : t''.KeepsNames t''.closeScope := .of_symbols (symbols_closeScope t'')
  refine h.mono ((hopen.trans hk).trans hclose) ?_ ?_
  · rw [closeScope, closeScope, hsame, houter]
  · rw [closeScope, closeScope, hsame, houter]
    rfl

/-- A symbol is declared and its scope is opened. -/
theorem openScope (h : t.Makes [] t') {kind : SymbolKind} (hkind : kind ≠ .variable) (name : String)
    (type : Ty) : t.Opens { kind, name, type } [] (t'.declare kind name type).openScope := by
  have hnext : t'.nextSymbol = t.nextSymbol := h.next
  have hpreserves : t'.Preserves (t'.declare kind name type).openScope :=
    (Preserves.declare t' kind name type).trans (.of_eq rfl rfl)
  refine ⟨h.toPreserves.trans hpreserves, hkind, ?_, ?_, ⟨_, congrArg (List.cons _) h.outer⟩,
    fun ns hns => ?_, .openScope _,
    fun hframed type' => (h.framed hframed type').mono hpreserves.keepsNames,
    fun _ x hx => absurd hx List.not_mem_nil⟩
  · rw [← hnext]
    exact (Closed.symbol_declare_self t' kind name type).trans (if_neg hkind)
  · rw [← hnext]
    exact Array.size_push _
  · have hfills := (h.fills ns hns).declare kind name type
    rw [hnext, Entry.namings, Entry.number, List.map_nil, List.append_nil, decide_eq_false hkind] at hfills
    exact hfills.mono (.of_symbols rfl) rfl rfl

/-- The symbol is in the table. -/
theorem nextSymbol_lt (h : t.Opens c es t') : t.nextSymbol < t'.symbols.size := by
  refine Nat.lt_of_lt_of_eq ?_ h.next.symm
  exact (Nat.lt_succ_self _).trans_le (Nat.le_add_right _ _)

theorem makes (h : t.Opens c es t') (h' : t'.Makes es' t'') : t.Opens c (es ++ es') t'' := by
  have hlt := h.nextSymbol_lt
  refine ⟨h.toPreserves.trans h'.toPreserves, h.other, (h'.old _ hlt).trans h.symbol, ?_, ?_,
    fun ns hns => fills_closeScope h.outer h'.outer h'.toPreserves.keepsNames (h.around ns hns), ?_,
    h'.framed ∘ h.framed, fun hlevel x hx => ?_⟩
  · rw [h'.next, h.next, Entry.total_append, Nat.add_assoc]
  · exact h.outer.imp fun scope houter => h'.outer.trans houter
  · rw [Entry.namings_append, ← h.next]
    exact h'.fills _ h.inside
  · rw [Entry.number_append, ← h.next] at hx
    have hlevel' := (level_eq_of_outer h'.outer).symm.trans hlevel
    rcases List.mem_append.1 hx with hx | hx
    · exact (h.records hlevel' x hx).preserves h'.toPreserves
    · exact h'.records hlevel' x hx

/-- The symbol whose scope is open gets what is known by now. -/
theorem modifySymbol (h : t.Opens c es t') (hf : ∀ c : Symbol, (f c).kind = c.kind ∧ (f c).name = c.name) :
    t.Opens (f c) es (t'.modifySymbol t.nextSymbol f) := by
  have hkeeps : t'.KeepsNames (t'.modifySymbol t.nextSymbol f) :=
    .modifySymbol (by rw [h.symbol]; exact h.other) hf
  refine ⟨h.toPreserves.modifySymbol (Nat.le_refl _) f, ?_, ?_, ?_, h.outer, fun ns hns => ?_,
    h.inside.mono hkeeps rfl rfl, fun hframed type => (h.framed hframed type).mono hkeeps,
    fun hlevel x hx => ?_⟩
  · rw [(hf c).1]
    exact h.other
  · rw [Closed.symbol_modifySymbol_self h.nextSymbol_lt, h.symbol]
  · exact Array.size_modify.trans h.next
  · rw [(hf c).2]
    exact fills_closeScope h.outer rfl hkeeps (h.around ns hns)
  · have hne : x.1 ≠ t.nextSymbol :=
      Nat.ne_of_gt (Nat.lt_of_lt_of_le (Nat.lt_succ_self _) (Entry.le_fst_of_mem_number hx))
    exact (h.records hlevel x hx).mono hkeeps (Closed.symbol_modifySymbol hne f)
      fun _ => ⟨Nat.le_refl _, rfl⟩

/-- The type of a class gets the fields of its values. -/
theorem setFields (h : t.Opens c es t') (hes : ∀ e ∈ es, e.kind ≠ .type) {type : Ty}
    (htype : t.types.size ≤ type.id) {fields : Array SymbolId} (hfields : t'.Frame fields) :
    t.Opens c es (t'.setFields type fields) := by
  have hkeeps : t'.KeepsNames (t'.setFields type fields) := .of_symbols rfl
  refine ⟨h.toPreserves.setFields htype fields, h.other, h.symbol, h.next, h.outer, fun ns hns => ?_,
    h.inside.mono hkeeps rfl rfl, fun hframed other => ?_, fun hlevel x hx => ?_⟩
  · exact fills_closeScope h.outer rfl hkeeps (h.around ns hns)
  · have hold : t'.Frame (t'.fields other) := h.framed hframed other
    by_cases hid : other.id = type.id
    · by_cases hlt : type.id < t'.types.size
      · rw [fields_setFields hid hlt]
        exact hfields.mono hkeeps
      · rw [fields_setFields_of_le (hid ▸ Nat.le_of_not_lt hlt)]
        exact hold.mono hkeeps
    · rw [fields_setFields_of_ne hid]
      exact hold.mono hkeeps
  · exact (h.records hlevel x hx).mono hkeeps rfl
      fun hkind => absurd hkind (hes _ (Entry.snd_mem_of_mem_number hx))

/-- When the scope is closed the entry is made. -/
theorem close {e : Entry} (h : t.Opens c e.inner t') (hkind : c.kind = e.kind) (hname : c.name = e.name)
    (hmethod : t.level = 0 → e.kind = .method → t'.closeScope.HasLocals t.nextSymbol e)
    (hobject : t.level = 0 → e.kind = .type → t'.closeScope.HasFields t.nextSymbol e) :
    t.Makes [e] t'.closeScope := by
  have hclose : t'.Preserves t'.closeScope := .of_eq (symbols_closeScope t') (types_closeScope t')
  have hnext : t'.closeScope.nextSymbol = t.nextSymbol + e.size := by
    rw [nextSymbol, symbols_closeScope, Entry.size, ← Nat.add_assoc, ← Entry.total_inner]
    exact h.next
  refine ⟨h.toPreserves.trans hclose, hnext.trans (by simp [Entry.total]), ?_, fun hframed type => ?_,
    fun ns hns => ?_, fun hlevel x hx => ?_⟩
  · obtain ⟨scope, houter⟩ := h.outer
    rw [closeScope, houter]
  · rw [fields_closeScope]
    exact (h.framed hframed type).mono hclose.keepsNames
  · have hfills := h.around ns hns
    rwa [hname, ← decide_eq_false h.other, hkind] at hfills
  · obtain rfl := List.mem_singleton.1 hx
    have hsymbol : t'.closeScope.symbol t.nextSymbol = c := (symbol_closeScope t' _).trans h.symbol
    exact ⟨Nat.le_of_eq hnext.symm, hsymbol ▸ hkind, hsymbol ▸ hname, hmethod hlevel, hobject hlevel⟩

theorem level_eq (h : t.Opens c es t') : t'.level = t.level + 1 := by
  obtain ⟨scope, houter⟩ := h.outer
  rw [level, level, houter, List.length_cons]
  omega

theorem symbol_close (h : t.Opens c es t') : t'.closeScope.symbol t.nextSymbol = c :=
  (symbol_closeScope t' _).trans h.symbol

/-- The parameters of a method are the first ones of its variables. -/
theorem hasLocals {e : Entry} (h : t.Opens c e.inner t') (hlevel : t.level = 0)
    (hlocals : c.locals.toList = Entry.bound (t.nextSymbol + 1) e.inner)
    (hcount : c.parameterCount =
      (Entry.bound (t.nextSymbol + 1) (e.parameters.map .ofVariable)).length) :
    t'.closeScope.HasLocals t.nextSymbol e := by
  have hkeeps : t'.KeepsNames t'.closeScope := .of_symbols (symbols_closeScope t')
  obtain ⟨hframe, hlevels⟩ := h.inside.frame fun _ => Entry.isVariable_of_mem_namings
  have hcurrent : c.locals = t'.current.locals :=
    Array.toList_inj.1 (hlocals.trans h.inside.holds.locals.symm)
  rw [← hcurrent] at hframe hlevels
  have hprefix : Entry.bound (t.nextSymbol + 1) (e.parameters.map .ofVariable) <+:
      Entry.bound (t.nextSymbol + 1) e.inner := by
    rw [Entry.bound, Entry.bound, Entry.inner, List.map_append, Entry.namings_append]
    exact (firstsBy_prefix_append _ _).map _
  refine ⟨?_, ?_, ?_, fun i hi => ?_⟩
  · rw [h.symbol_close, Symbol.parameters, Array.take_eq_extract, Array.toList_extract, hlocals, hcount]
    exact (List.prefix_iff_eq_take.1 hprefix).symm
  · rw [h.symbol_close, hlocals]
  · rw [h.symbol_close]
    exact hframe.mono hkeeps
  · rw [h.symbol_close] at hi
    rw [symbol_closeScope, hlevels i hi, h.level_eq, hlevel]
    rfl

/-- The type of a class has its fields. -/
theorem hasFields {e : Entry} (h : t.Opens c e.inner t') (hknown : c.type.id < t'.types.size)
    (hfields : (t'.fields c.type).toList = Entry.bound (t.nextSymbol + 1) e.inner)
    (hframe : t'.Frame (t'.fields c.type)) : t'.closeScope.HasFields t.nextSymbol e := by
  refine ⟨?_, ?_, ?_⟩ <;> rw [h.symbol_close]
  · rwa [types_closeScope]
  · rwa [fields_closeScope]
  · rw [fields_closeScope]
    exact hframe.mono (.of_symbols (symbols_closeScope t'))

end Opens

end SymbolTable

end MicroJava
