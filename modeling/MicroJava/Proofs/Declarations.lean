import MicroJava.Proofs.References

/-!
# What declarations change

A declaration writes no code. It makes symbols, types and scopes, closes the scopes that it opened,
and leaves the first `n` symbols as they were, where `n` is the number of symbols before it:
`Declared n s s'` is what is known of the states `s` and `s'` before and after it.
-/

namespace MicroJava

namespace SymbolTable

/-- A table with the same first `n` symbols, and with no methods that were not there before. -/
structure Keeps (n : Nat) (t t' : SymbolTable) : Prop where
  below : t.Below t'
  old : ∀ id < n, t'.symbol id = t.symbol id
  methods : ∀ id, (t'.symbol id).kind = .method → id < t.symbols.size ∧ (t.symbol id).kind = .method

/-- A table in which more was declared, but no method, with the same scopes around the innermost
one. -/
structure Grows (n : Nat) (t t' : SymbolTable) : Prop extends Keeps n t t' where
  outer : t'.outer = t.outer
  declares : ∀ name, t.current.declares name = true → t'.current.declares name = true
  count : t.current.variableCount ≤ t'.current.variableCount

/-- There are no methods but those in the table. -/
theorem lt_of_kind {t : SymbolTable} {id : SymbolId} (h : (t.symbol id).kind = .method) :
    id < t.symbols.size := by
  by_contra hge
  rw [symbol, Array.getElem?_eq_none (Nat.le_of_not_lt hge)] at h
  cases h

namespace Keeps

variable {n : Nat} {t t' t'' : SymbolTable}

theorem refl (t : SymbolTable) : t.Keeps n t :=
  ⟨⟨le_rfl, le_rfl, le_rfl⟩, fun _ _ => rfl, fun _ h => ⟨lt_of_kind h, h⟩⟩

theorem trans (h : t.Keeps n t') (h' : t'.Keeps n t'') : t.Keeps n t'' where
  below := ⟨h.below.symbols.trans h'.below.symbols, h.below.types.trans h'.below.types,
    h.below.scopes.trans h'.below.scopes⟩
  old := fun id hid => (h'.old id hid).trans (h.old id hid)
  methods := fun id hid => h.methods id (h'.methods id hid).2

theorem mono (h : t.Keeps n t') {m : Nat} (hm : m ≤ n) : t.Keeps m t' :=
  { h with old := fun id hid => h.old id (hid.trans_le hm) }

theorem modifySymbol {id : SymbolId} (hid : n ≤ id) {f : Symbol → Symbol}
    (hf : ∀ c : Symbol, (f c).kind = c.kind) : t.Keeps n (t.modifySymbol id f) where
  below := Closed.below_modifySymbol t id f
  old := fun _ hi => Closed.symbol_modifySymbol (hi.trans_le hid).ne f
  methods := by
    intro i hi
    have hlt := lt_of_kind hi
    rw [SymbolTable.modifySymbol, Array.size_modify] at hlt
    refine ⟨hlt, ?_⟩
    by_cases heq : i = id
    · subst heq
      rwa [Closed.symbol_modifySymbol_self hlt, hf] at hi
    · rwa [Closed.symbol_modifySymbol heq] at hi

theorem openScope (t : SymbolTable) : t.Keeps n t.openScope :=
  ⟨Closed.below_openScope t, fun _ _ => rfl, fun _ h => ⟨lt_of_kind h, h⟩⟩

end Keeps

namespace Grows

variable {n : Nat} {t t' t'' : SymbolTable}

theorem refl (t : SymbolTable) : t.Grows n t :=
  ⟨.refl t, rfl, fun _ h => h, le_rfl⟩

theorem trans (h : t.Grows n t') (h' : t'.Grows n t'') : t.Grows n t'' where
  toKeeps := h.toKeeps.trans h'.toKeeps
  outer := h'.outer.trans h.outer
  declares := fun name hname => h'.declares name (h.declares name hname)
  count := h.count.trans h'.count

theorem of_extends (h : t.Extends t') : t.Grows n t' where
  below := h.below
  old := fun id _ => h.symbol id
  methods := fun id hid => by
    rw [h.symbol] at hid
    exact ⟨lt_of_kind hid, hid⟩
  outer := h.outer
  declares := by simp [h.current]
  count := by rw [h.current]

theorem declare {kind : SymbolKind} (hkind : kind ≠ .method) (name : String) (type : Ty)
    (hn : n ≤ t.symbols.size) : t.Grows n (t.declare kind name type) where
  below := Closed.below_declare t kind name type
  old := fun id hid => Closed.symbol_declare kind name type (hid.trans_le hn)
  methods := by
    intro id hid
    have hlt := lt_of_kind hid
    rw [SymbolTable.declare, Array.size_push] at hlt
    rcases Nat.lt_succ_iff_lt_or_eq.1 hlt with hlt | rfl
    · exact ⟨hlt, Closed.symbol_declare kind name type hlt ▸ hid⟩
    · refine absurd ?_ hkind
      rw [← hid]
      simp only [symbol, SymbolTable.declare, Array.getElem?_push_size, Option.getD_some]
      split <;> rfl
  outer := rfl
  declares := by
    intro other h
    change (t.current.insert name _ _).declares other = true
    rw [Scope.declares, Scope.find?_insert]
    split
    · rfl
    · exact h
  count := by
    change _ ≤ (t.current.insert name _ _).variableCount
    unfold Scope.insert
    split
    · exact le_rfl
    · dsimp only
      split <;> omega

theorem modifySymbol {id : SymbolId} (hid : n ≤ id) {f : Symbol → Symbol}
    (hf : ∀ c : Symbol, (f c).kind = c.kind) : t.Grows n (t.modifySymbol id f) where
  toKeeps := .modifySymbol hid hf
  outer := rfl
  declares := fun _ h => h
  count := le_rfl

theorem setFields (type : Ty) (fields : Array SymbolId) : t.Grows n (t.setFields type fields) where
  below := Closed.below_setFields t type fields
  old := fun _ _ => rfl
  methods := fun _ h => ⟨lt_of_kind h, h⟩
  outer := rfl
  declares := fun _ h => h
  count := le_rfl

theorem addType (type : Ty) : t.Grows n (t.addType type) where
  below := Closed.below_addType t type
  old := fun _ _ => rfl
  methods := fun _ h => ⟨lt_of_kind h, h⟩
  outer := rfl
  declares := fun _ h => h
  count := le_rfl

/-- What is declared in a scope of its own is forgotten when the scope is closed. -/
theorem closeScope (h : t.openScope.Grows n t') : t.Grows n t'.closeScope := by
  have houter : t'.outer = t.current :: t.outer := h.outer
  have hbelow := Closed.below_openScope t
  have hbelow' := Closed.below_closeScope t'
  refine ⟨⟨⟨?_, ?_, ?_⟩, fun id hid => ?_, fun id hid => ?_⟩, ?_, ?_, ?_⟩
  · exact (hbelow.symbols.trans h.below.symbols).trans hbelow'.symbols
  · exact (hbelow.types.trans h.below.types).trans hbelow'.types
  · exact (hbelow.scopes.trans h.below.scopes).trans hbelow'.scopes
  · rw [SymbolTable.closeScope, houter]
    exact h.old id hid
  · rw [SymbolTable.closeScope, houter] at hid
    exact h.methods id hid
  · rw [SymbolTable.closeScope, houter]
  · rw [SymbolTable.closeScope, houter]
    exact fun _ h => h
  · rw [SymbolTable.closeScope, houter]

end Grows

end SymbolTable

namespace Compiler

variable {α β : Type} {s s' s'' : Compiler} {n : Nat}

/-- What is known of the states before and after a declaration. -/
structure Declared (n : Nat) (s s' : Compiler) : Prop where
  sound : s'.Sound
  table : s.table.Grows n s'.table
  items : s'.items = s.items
  code : s'.code = s.code
  debug : s'.debug = s.debug
  log : s.Logs s'

theorem Declared.refl (h : s.Sound) : Declared n s s :=
  ⟨h, .refl _, rfl, rfl, rfl, .refl s⟩

theorem Declared.trans (h : Declared n s s') (h' : Declared n s' s'') : Declared n s s'' :=
  ⟨h'.sound, h.table.trans h'.table, h'.items.trans h.items, h'.code.trans h.code,
    h'.debug.trans h.debug, h.log.trans h'.log⟩

/-- Another table in place of that of a sound state. -/
theorem Declared.of_table (h : s.Sound) {t : SymbolTable} (hc : t.Closed) (hg : s.table.Grows n t) :
    Declared n s { s with table := t } :=
  ⟨⟨hc, h.stray, h.assembles⟩, hg, rfl, rfl, rfl, .of_eq rfl⟩

/-- The step declares something, and `A` holds of its value. -/
def Declares (n : Nat) (x : CompilerM α) (s : Compiler) (A : SymbolTable → α → Prop) : Prop :=
  s.Sound → n ≤ s.table.symbols.size →
    Ensures x s fun a s' => Declared n s s' ∧ A s'.table a

namespace Declares

variable {A : SymbolTable → α → Prop} {B : SymbolTable → β → Prop}

theorem pure {a : α} (h : A s.table a) : Declares n (Pure.pure a) s A :=
  fun hs _ => ⟨.refl hs, h⟩

theorem bind {x : CompilerM α} {f : α → CompilerM β} (hx : Declares n x s A)
    (hf : ∀ a s', s.table.Grows n s'.table → A s'.table a → Declares n (f a) s' B) :
    Declares n (x >>= f) s B := by
  intro hs hn
  refine (hx hs hn).bind fun a s' ⟨h, ha⟩ => ?_
  refine (hf a s' h.table ha h.sound (hn.trans h.table.below.symbols)).mono fun b s'' ⟨h', hb⟩ => ?_
  exact ⟨h.trans h', hb⟩

theorem mono {x : CompilerM α} {A' : SymbolTable → α → Prop} (hx : Declares n x s A)
    (h : ∀ t a, A t a → A' t a) : Declares n x s A' :=
  fun hs hn => (hx hs hn).mono fun _ _ ⟨hd, ha⟩ => ⟨hd, h _ _ ha⟩

theorem of_sound {x : CompilerM α} (h : s.Sound → Declares n x s A) : Declares n x s A :=
  fun hs => h hs hs

/-- A step that writes nothing and keeps the symbols. -/
theorem of_safe {x : CompilerM α} (hx : Emits (fun _ => False) x) (h : Safe x s A) :
    Declares n x s A := by
  intro hs _
  have hemits : Ensures x s fun _ s' => Steps (fun _ => False) s s' := hx s
  apply ((h hs).and hemits).mono
  rintro a s' ⟨⟨hs', he, ha⟩, hsteps⟩
  have hw := hsteps.writes_nil
  refine ⟨⟨hs', .of_extends he.table, ?_, hw.code, hsteps.debug, hsteps.logs⟩, ha⟩
  rw [← Array.toList_inj, hw.items, List.append_nil]

theorem of_onlyLogs {x : CompilerM α} (hx : Emits (fun _ => False) x) (h : OnlyLogs x) :
    Declares n x s fun _ _ => True :=
  of_safe hx (.of_onlyLogs h)

theorem shift : Declares n shift s fun _ _ => True := of_onlyLogs .shift .shift

theorem fault (m : Message) : Declares n (fault m) s fun _ _ => True :=
  of_onlyLogs (.fault m) (.fault m)

theorem faultIf (c : Bool) (m : Message) : Declares n (faultIf c m) s fun _ _ => True :=
  of_onlyLogs (.faultIf c m) (.faultIf c m)

theorem expect (kind : Kind) (found : Bool) : Declares n (expect kind found) s fun _ _ => True :=
  of_onlyLogs (.expect kind found) (.expect kind found)

theorem expectName (name : Option String) : Declares n (expectName name) s fun _ _ => True :=
  of_onlyLogs (.expectName name) (.expectName name)

theorem skip (m : Message) (more : Nat) : Declares n (skip m more) s fun _ _ => True :=
  of_onlyLogs (.skip m more) (.skip m more)

/-- What stays true while more is declared may be used for each of several declarations. -/
theorem forM {γ : Type} {g : γ → CompilerM PUnit} {l : List γ} {I : SymbolTable → Prop}
    (hI : ∀ t t', SymbolTable.Grows n t t' → I t → I t')
    (h : ∀ c ∈ l, ∀ s : Compiler, I s.table → Declares n (g c) s fun _ _ => True)
    (hs : I s.table) : Declares n (l.forM g) s fun _ _ => True := by
  induction l generalizing s with
  | nil => exact pure trivial
  | cons c l ih =>
      refine (h c List.mem_cons_self s hs).bind fun _ s' hg _ => ih ?_ (hI _ _ hg hs)
      exact fun d hd => h d (List.mem_cons_of_mem c hd)

/-! ### Scopes and symbols -/

/-- The innermost scope is one that the table has. -/
theorem scope : Declares n scope s fun t c => c = t.current ∧ c.In t := by
  refine of_safe (Emits.get.bind fun _ => (Emits.refer _).bind fun _ => Emits.get.bind fun _ => .pure)
    (Safe.get_bind ((Safe.refer fun hs r hr => ?_).bind fun _ _ _ _ =>
      Safe.get_bind (.of_sound fun hs => .pure ?_)))
  · rw [List.mem_singleton.1 hr]
    simpa [knows] using (hs.table.scopes _ List.mem_cons_self).id
  · exact ⟨rfl, hs.table.scopes _ List.mem_cons_self⟩

theorem currentLocals :
    Declares n currentLocals s fun t ids => ids = t.current.locals ∧
      ∀ id ∈ ids, id < t.symbols.size :=
  scope.bind fun _ _ _ ⟨hc, hin⟩ => pure ⟨by rw [hc], hin.locals⟩

theorem variableCount :
    Declares n variableCount s fun t count => count = t.current.variableCount :=
  scope.bind fun _ _ _ ⟨hc, _⟩ => pure (by rw [hc])

/-- The new symbol is the last one. -/
theorem declare {kind : SymbolKind} (hkind : kind ≠ .method) (name : String) {type : Ty}
    (htype : type.In s.table) (htyped : kind = .type → type ≠ .void) :
    Declares n (declare kind name type) s fun t id => n ≤ id ∧ id < t.symbols.size := by
  refine scope.bind fun c s₁ h₁ _ => (faultIf _ _).bind fun _ s' h' _ hs hn => ?_
  have htype' := htype.mono (h₁.trans h').below
  refine ⟨.of_table hs (hs.table.declare name htype' htyped) (.declare hkind name type hn), hn, ?_⟩
  change _ < (s'.table.symbols.push _).size
  rw [Array.size_push]
  exact Nat.lt_succ_self _

/-- A symbol is completed that is not predeclared. -/
theorem modifySymbol {id : SymbolId} (hid : n ≤ id) (hlt : id < s.table.symbols.size)
    (hbase : SymbolTable.predeclared.symbols.size ≤ n) {f : Symbol → Symbol}
    (hkind : ∀ c : Symbol, (f c).kind = c.kind)
    (hf : ∀ (t : SymbolTable) (c : Symbol), s.table.Grows n t → c.In t → (f c).In t) :
    Declares n (modifySymbol id f) s fun _ _ => True := by
  have hrefer : Safe (Compiler.refer [.symbol id]) s fun _ _ => True := by
    refine .refer fun _ r hr => ?_
    rw [List.mem_singleton.1 hr]
    simpa [knows] using hlt
  refine (of_safe (.refer _) hrefer).bind fun _ s' hg _ hs _ => ?_
  exact ⟨.of_table hs (hs.table.modifySymbol (hbase.trans hid) fun c => hf _ c hg)
    (.modifySymbol hid hkind), trivial⟩

theorem newObject :
    Declares n newObject s fun t type => type.In t ∧ type ≠ .void :=
  fun hs _ => ⟨.of_table hs (hs.table.addType _) (.addType _),
    SymbolTable.Closed.nextObject_in _, Ty.noConfusion⟩

theorem setFields {type : Ty} (htype : type.In s.table) {fields : Array SymbolId}
    (hfields : ∀ id ∈ fields, id < s.table.symbols.size) :
    Declares n (setFields type fields) s fun _ _ => True := by
  have hrefer : Safe (Compiler.refer [.type type.id]) s fun _ _ => True := by
    refine .refer fun _ r hr => ?_
    rw [List.mem_singleton.1 hr]
    simpa [knows] using htype.id_lt
  refine (of_safe (.refer _) hrefer).bind fun _ s' hg _ hs _ => ?_
  have hfields' := fun id hid => (hfields id hid).trans_le hg.below.symbols
  exact ⟨.of_table hs (hs.table.setFields type hfields') (.setFields type fields), trivial⟩

theorem newArray {element : Ty} (h : element.In s.table) :
    Declares n (newArray element) s fun t type => type.In t :=
  of_safe (.newArray element) (.newArray h)

theorem inspect {types : List Ty} (h : ∀ type ∈ types, type.In s.table) :
    Declares n (inspect types) s fun _ _ => True :=
  of_safe (.inspect types) (.inspect h)

end Declares

/-- The state after a scope was opened. -/
def inScope (s : Compiler) : Compiler := { s with table := s.table.openScope }

theorem Sound.inScope (h : s.Sound) : s.inScope.Sound :=
  ⟨h.table.openScope, h.stray, h.assembles⟩

theorem ensures_openScope_bind {f : Unit → CompilerM α} {Q : α → Compiler → Prop}
    (h : Ensures (f ()) s.inScope Q) : Ensures (openScope >>= f) s Q :=
  h

/-- The end of a scope. -/
theorem ensures_closeScope (hs : s.Sound) :
    Ensures closeScope s fun _ s' => s' = { s with table := s.table.closeScope } ∧ s'.Sound := by
  have hrefer : refer [.scope s.table.current.id] s = ((), s) := by
    refine refer_of_knows fun r hr => ?_
    rw [List.mem_singleton.1 hr]
    simpa [knows] using (hs.table.scopes _ List.mem_cons_self).id
  have hclose : closeScope s = ((), { s with table := s.table.closeScope }) := by
    change ((), { (refer [.scope s.table.current.id] s).2 with
      table := (refer [.scope s.table.current.id] s).2.table.closeScope }) = _
    rw [hrefer]
  unfold Ensures
  rw [hclose]
  exact ⟨rfl, ⟨hs.table.closeScope, hs.stray, hs.assembles⟩⟩

end Compiler

namespace Tree

open Compiler

variable {s : Compiler} {n : Nat}

theorem TypeName.declares_compile (d : TypeName) :
    Declares n d.compile s fun t type => type.In t := by
  refine (Declares.expectName _).bind fun name _ _ _ => ?_
  refine (Declares.of_safe (.findType name) (.findType name)).bind fun type _ _ htype => ?_
  cases d.array with
  | none => exact .pure htype
  | some closed =>
      refine Declares.shift.bind fun _ _ h _ => (Declares.expect _ _).bind fun _ _ h' _ => ?_
      exact .newArray ((htype.mono h.below).mono h'.below)

theorem declares_declareVariable {type : Ty} (h : type.In s.table) (name : Option String) :
    Declares n (declareVariable type name) s fun _ _ => True :=
  (Declares.expectName name).bind fun name _ hg _ =>
    (Declares.declare SymbolKind.noConfusion name (h.mono hg.below) SymbolKind.noConfusion).bind fun _ _ _ _ =>
    .pure trivial

theorem VariableDecl.declares_compile (d : VariableDecl) :
    Declares n d.compile s fun _ _ => True := by
  refine d.type.declares_compile.bind fun type _ _ htype => ?_
  refine (declares_declareVariable htype _).bind fun _ s' hg _ => ?_
  refine (Declares.forM (I := fun t => type.In t) (fun _ _ hg h => h.mono hg.below) ?_
    (htype.mono hg.below)).bind fun _ _ _ _ => .expect _ _
  exact fun name _ s h => Declares.shift.bind fun _ _ hg _ =>
    declares_declareVariable (h.mono hg.below) name

theorem ConstantValue.declares_take {type : Ty} (h : type.In s.table) {id : SymbolId}
    (hid : n ≤ id) (hlt : id < s.table.symbols.size)
    (hbase : SymbolTable.predeclared.symbols.size ≤ n) (shape : TyShape) (value : Int) :
    Declares n (ConstantValue.compile.take type id shape value) s fun _ _ => True := by
  refine (Declares.inspect (by simpa using h)).bind fun _ _ hg _ => ?_
  refine (Declares.faultIf _ _).bind fun _ _ hg' _ => Declares.shift.bind fun _ _ hg'' _ => ?_
  have hlt' := hlt.trans_le ((hg.trans hg').trans hg'').below.symbols
  refine Declares.modifySymbol hid hlt' hbase (fun _ => rfl) fun t c _ hc => ?_
  exact ⟨hc.type, hc.locals, hc.typed⟩

theorem ConstantValue.declares_compile {type : Ty} (h : type.In s.table) {id : SymbolId}
    (hid : n ≤ id) (hlt : id < s.table.symbols.size)
    (hbase : SymbolTable.predeclared.symbols.size ≤ n) (value : ConstantValue) :
    Declares n (value.compile type id) s fun _ _ => True := by
  cases value with
  | number value => exact declares_take h hid hlt hbase _ _
  | char value => exact declares_take h hid hlt hbase _ _
  | missing => exact .fault _

theorem ConstantDecl.declares_compile (hbase : SymbolTable.predeclared.symbols.size ≤ n)
    (d : ConstantDecl) : Declares n d.compile s fun _ _ => True := by
  refine Declares.shift.bind fun _ _ _ _ => d.type.declares_compile.bind fun type _ _ htype => ?_
  refine (Declares.expectName _).bind fun name _ hg _ => ?_
  have htype' := htype.mono hg.below
  refine (Declares.declare SymbolKind.noConfusion name htype' SymbolKind.noConfusion).bind
    fun id _ hg' ⟨hid, hlt⟩ => (Declares.expect _ _).bind fun _ _ hg'' _ => ?_
  refine (ConstantValue.declares_compile ((htype'.mono hg'.below).mono hg''.below) hid
    (hlt.trans_le hg''.below.symbols) hbase d.value).bind fun _ _ _ _ => .expect _ _

theorem declares_compileFields (fields : List VariableDecl) :
    Declares n (compileFields fields) s fun t ids => ∀ id ∈ ids, id < t.symbols.size := by
  intro hs hn
  have hfields : Declares n (fields.forM VariableDecl.compile) s.inScope fun _ _ => True :=
    .forM (I := fun _ => True) (fun _ _ _ h => h) (fun d _ _ _ => d.declares_compile) trivial
  refine ensures_openScope_bind ((hfields hs.inScope hn).bind fun _ s₁ ⟨h₁, _⟩ => ?_)
  have hn₁ := hn.trans h₁.table.below.symbols
  refine (Declares.variableCount h₁.sound hn₁).bind fun count s₂ ⟨h₂, _⟩ => ?_
  have hn₂ := hn₁.trans h₂.table.below.symbols
  refine (Declares.faultIf _ _ h₂.sound hn₂).bind fun _ s₃ ⟨h₃, _⟩ => ?_
  have hn₃ := hn₂.trans h₃.table.below.symbols
  refine (Declares.currentLocals h₃.sound hn₃).bind fun ids s₄ ⟨h₄, _, hids⟩ => ?_
  have h := ((h₁.trans h₂).trans h₃).trans h₄
  refine (ensures_closeScope h.sound).bind fun _ s₅ ⟨hs₅, hsound⟩ => .pure ?_
  subst hs₅
  have hg := h.table.closeScope
  refine ⟨⟨hsound, hg, h.items, h.code, h.debug, ⟨h.log.isPrefix, h.log.orderly⟩⟩, fun id hid => ?_⟩
  exact (hids id hid).trans_le (SymbolTable.Closed.below_closeScope _).symbols

theorem ClassDecl.declares_compile (d : ClassDecl) : Declares n d.compile s fun _ _ => True := by
  refine Declares.shift.bind fun _ _ _ _ => (Declares.expectName _).bind fun name _ _ _ => ?_
  refine Declares.newObject.bind fun type _ _ ⟨htype, hvoid⟩ => ?_
  refine (Declares.declare SymbolKind.noConfusion name htype fun _ => hvoid).bind fun _ _ hg _ => ?_
  refine (Declares.expect _ _).bind fun _ _ hg' _ => ?_
  refine (declares_compileFields d.fields).bind fun ids _ hg'' hids => ?_
  have htype' := ((htype.mono hg.below).mono hg'.below).mono hg''.below
  exact (Declares.setFields htype' hids).bind fun _ _ _ _ => .expect _ _

theorem Declaration.declares_compile (hbase : SymbolTable.predeclared.symbols.size ≤ n) :
    (d : Declaration) → Declares n d.compile s fun _ _ => True
  | .constant d => d.declares_compile hbase
  | .globals d => d.declares_compile
  | .object d => d.declares_compile
  | .skipped more => .skip _ more

theorem declares_compileParameters (first : Bool) (ps : List Parameter) :
    Declares n (compileParameters first ps) s fun _ _ => True := by
  induction ps generalizing s first with
  | nil => exact .pure trivial
  | cons p ps ih =>
      refine (Declares.of_onlyLogs (.shiftUnless first) (.shiftUnless first)).bind fun _ _ _ _ => ?_
      refine p.type.declares_compile.bind fun type _ _ htype => ?_
      exact (declares_declareVariable htype _).bind fun _ _ _ _ => ih false

theorem declares_compileResult (d : Option TypeName) :
    Declares n (compileResult d) s fun t type => type.In t := by
  cases d with
  | none =>
      exact Declares.shift.bind fun _ _ _ _ => .of_sound fun hs => .pure hs.table.void_in
  | some d =>
      refine d.declares_compile.bind fun type _ _ htype => ?_
      refine (Declares.inspect (by simpa using htype)).bind fun _ _ hg _ => ?_
      exact (Declares.faultIf _ _).bind fun _ _ hg' _ =>
        .pure ((htype.mono hg.below).mono hg'.below)

end Tree

end MicroJava
