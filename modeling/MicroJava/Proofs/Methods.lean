import MicroJava.Proofs.Declarations
import MicroJava.Proofs.Labels

/-!
# What compiling a method adds

A method is compiled in three parts. `Signed` and `Headed` say what is known of the state before
the parameters are closed and before the statements begin: the symbol of the method is complete, a
scope of its own is open, and the last item written is its `enter`. The labels are those of the
state before the method until its statements begin.
-/

namespace MicroJava

namespace Compiler

variable {α : Type} {s s' : Compiler} {n : Nat}

/-- A step that logs leaves everything else as it is. -/
theorem OnlyLogs.ensures {x : CompilerM α} (h : OnlyLogs x) (hx : Emits (fun _ => False) x) :
    Ensures x s fun _ s' => (∃ log, s' = { s with log }) ∧ s.Logs s' :=
  ⟨h s, (hx s).logs⟩

theorem fst_expectName (name : Option String) (s : Compiler) : (expectName name s).1 = name.getD "" := by
  cases name <;> rfl

theorem ensures_expectName (hs : s.Sound) (name : Option String) :
    Ensures (expectName name) s fun a s' => a = name.getD "" ∧ Declared n s s' := by
  have h := OnlyLogs.ensures (s := s) (.expectName name) (.expectName name)
  have hname : Ensures (expectName name) s fun a _ => a = name.getD "" := fst_expectName name s
  apply (hname.and h).mono
  rintro a s' ⟨ha, ⟨log, rfl⟩, hlogs⟩
  exact ⟨ha, ⟨hs.table, hs.stray, hs.assembles⟩, .refl _, rfl, rfl, rfl, hlogs⟩

/-- A fault is logged if the condition holds, and stays in the log. -/
theorem ensures_faultIf (c : Bool) (m : Message) :
    Ensures (faultIf c m) s fun _ s' =>
      (∃ log, s' = { s with log }) ∧ s.Logs s' ∧ (c = true → s'.Faulty) := by
  have h := OnlyLogs.ensures (s := s) (.faultIf c m) (.faultIf c m)
  have hfault : Ensures (faultIf c m) s fun _ s' => c = true → s'.Faulty := by
    unfold faultIf
    split
    · exact fun _ => faulty_fault m s
    · next hc => exact fun h => absurd h hc
  exact (h.and hfault).mono fun _ _ ⟨⟨hlog, hlogs⟩, hf⟩ => ⟨hlog, hlogs, hf⟩

theorem scope_of_sound (hs : s.Sound) : scope s = (s.table.current, s) := by
  have hrefer : refer [.scope s.table.current.id] s = ((), s) := by
    refine refer_of_knows fun r hr => ?_
    rw [List.mem_singleton.1 hr]
    simpa [knows] using (hs.table.scopes _ List.mem_cons_self).id
  change ((refer [.scope s.table.current.id] s).2.table.current,
    (refer [.scope s.table.current.id] s).2) = _
  rw [hrefer]

theorem modifySymbol_of_lt {id : SymbolId} (hid : id < s.table.symbols.size)
    (f : Symbol → Symbol) :
    modifySymbol id f s = ((), { s with table := s.table.modifySymbol id f }) := by
  have hrefer : refer [.symbol id] s = ((), s) := by
    refine refer_of_knows fun r hr => ?_
    rw [List.mem_singleton.1 hr]
    simpa [knows] using hid
  change ((), { (refer [.symbol id] s).2 with
    table := (refer [.symbol id] s).2.table.modifySymbol id f }) = _
  rw [hrefer]

theorem ensures_modifySymbol (hs : s.Sound) {id : SymbolId}
    (hbase : SymbolTable.predeclared.symbols.size ≤ id) (hid : id < s.table.symbols.size)
    {f : Symbol → Symbol} (hf : ∀ c : Symbol, c.In s.table → (f c).In s.table) :
    Ensures (modifySymbol id f) s fun _ s' =>
      s' = { s with table := s.table.modifySymbol id f } ∧ s'.Sound := by
  unfold Ensures
  rw [modifySymbol_of_lt hid]
  exact ⟨rfl, ⟨hs.table.modifySymbol hbase hf, hs.stray, hs.assembles⟩⟩

theorem ensures_variableCount (hs : s.Sound) :
    Ensures variableCount s fun n s' => n = s.table.current.variableCount ∧ s' = s := by
  have hscope : variableCount s = ((scope s).1.variableCount, (scope s).2) := rfl
  unfold Ensures
  rw [hscope, scope_of_sound hs]
  exact ⟨rfl, rfl⟩

theorem ensures_currentLocals (hs : s.Sound) :
    Ensures currentLocals s fun ids s' => ids = s.table.current.locals ∧ s' = s := by
  have hscope : currentLocals s = ((scope s).1.locals, (scope s).2) := rfl
  unfold Ensures
  rw [hscope, scope_of_sound hs]
  exact ⟨rfl, rfl⟩

theorem ensures_pc_bind {f : Nat → CompilerM α} {Q : α → Compiler → Prop}
    (h : Ensures (f s.code.pc) s Q) : Ensures (pc >>= f) s Q :=
  h

/-- Declaring a name makes the next symbol. A name that is taken is a fault. -/
theorem ensures_declare (hs : s.Sound) (kind : SymbolKind) (name : String) {type : Ty}
    (htype : type.In s.table) (htyped : kind = .type → type ≠ .void) :
    Ensures (declare kind name type) s fun id s' => id = s.table.symbols.size ∧
      (∃ log, s' = { s with log, table := s.table.declare kind name type }) ∧ s'.Sound ∧
      s.Logs s' ∧ (s.table.current.declares name = true → s'.Faulty) := by
  have hscope : Ensures scope s fun c s' => c = s.table.current ∧ s' = s := by
    unfold Ensures
    rw [scope_of_sound hs]
    exact ⟨rfl, rfl⟩
  apply hscope.bind
  rintro c s' ⟨rfl, rfl⟩
  apply (ensures_faultIf _ _).bind
  rintro _ s' ⟨⟨log, rfl⟩, hlogs, hfault⟩
  exact ⟨rfl, ⟨log, rfl⟩, ⟨hs.table.declare name htype htyped, hs.stray, hs.assembles⟩,
    ⟨hlogs.isPrefix, hlogs.orderly⟩, fun h => hfault h⟩

/-- Without a fault a name that is used as a type stands for a type with values. -/
theorem ensures_findType (hs : s.Sound) (name : String) :
    Ensures (findType name) s fun type s' => ¬ s'.Faulty → type ≠ .void := by
  refine (Safe.find name hs).bind fun id s₁ ⟨hs₁, _, hid⟩ => ?_
  refine (Safe.symbol (fun _ => hid) hs₁).bind fun c s₂ ⟨_, _, _, hin⟩ => ?_
  refine (ensures_faultIf _ _).bind fun _ s₃ ⟨_, _, hfault⟩ => .pure fun hclean => hin.typed ?_
  by_contra hkind
  exact hclean (hfault (by simpa using hkind))

end Compiler

namespace Tree

open Compiler

variable {s s' t : Compiler}

theorem TypeName.ensures_compile (hs : s.Sound) (d : TypeName) :
    Ensures d.compile s fun type s' => ¬ s'.Faulty → type ≠ .void := by
  refine (ensures_expectName (n := 0) hs _).bind fun name s₁ ⟨_, h₁⟩ => ?_
  refine (ensures_findType h₁.sound name).bind fun type s₂ hvoid => ?_
  cases d.array with
  | none => exact .pure hvoid
  | some closed =>
      apply Ensures.of_forall
      rintro type' s₃ h hclean rfl
      cases congrArg Prod.fst h

/-- Without a fault a method returns no value if it is declared without a type only. -/
theorem ensures_compileResult (hs : s.Sound) (d : Option TypeName) :
    Ensures (compileResult d) s fun type s' => ¬ s'.Faulty → (type = .void ↔ d = none) := by
  cases d with
  | none => exact fun _ => ⟨fun _ => rfl, fun _ => rfl⟩
  | some d =>
      have hcompile := (d.ensures_compile hs).and (d.declares_compile (n := 0) hs (Nat.zero_le _))
      refine hcompile.bind fun type s₁ ⟨hvoid, h₁, htype⟩ => ?_
      have hinspect : Declares 0 (inspect [type]) s₁ fun _ _ => True := .inspect (by simpa using htype)
      refine (hinspect h₁.sound (Nat.zero_le _)).bind fun _ s₂ ⟨h₂, _⟩ => ?_
      refine (ensures_faultIf _ _).bind fun _ s₃ ⟨_, hlogs, _⟩ => .pure fun hclean => ?_
      have hclean₁ : ¬ s₁.Faulty := fun h => hclean (hlogs.faulty (h₂.log.faulty h))
      exact ⟨fun h => absurd h (hvoid hclean₁), fun h => absurd h (Option.some_ne_none d)⟩

/-- What is known of a method that is declared in the state `s`. -/
structure Named (d : MethodDecl) (s : Compiler) (m : Signature) (t : Compiler) : Prop where
  sound : t.Sound
  items : t.items = s.items
  debug : t.debug = s.debug
  code : t.code = s.code
  log : s.Logs t
  name : m.name = d.name.getD ""
  entry : m.entry = s.code.pc
  result : m.result.In t.table
  lt : m.id < t.table.symbols.size
  symbol : t.table.symbol m.id = { kind := .method, name := m.name, type := m.result
                                   address := m.entry }
  base : s.table.symbols.size ≤ m.id
  old : ∀ id < s.table.symbols.size, t.table.symbol id = s.table.symbol id
  methods : ∀ id, (t.table.symbol id).kind = .method → id = m.id ∨ id < s.table.symbols.size
  outer : t.table.outer = s.table.outer
  declared : t.table.current.declares m.name = true
  declares : ∀ name, s.table.current.declares name = true → t.table.current.declares name = true
  fresh : ¬ t.Faulty → s.table.current.declares m.name = false
  void : ¬ t.Faulty → (m.result = .void ↔ d.type = none)

/-- Declaring a method makes no other method. -/
theorem symbol_declare_method {t : SymbolTable} (name : String) (result : Ty) :
    (t.declare .method name result).symbol t.symbols.size =
        { kind := .method, name, type := result } ∧
      ∀ i, ((t.declare .method name result).symbol i).kind = .method →
        i = t.symbols.size ∨ (t.symbol i).kind = .method := by
  refine ⟨by simp [SymbolTable.symbol, SymbolTable.declare], fun i hi => ?_⟩
  have hlt := SymbolTable.lt_of_kind hi
  rw [SymbolTable.declare, Array.size_push] at hlt
  rcases Nat.lt_succ_iff_lt_or_eq.1 hlt with hlt | rfl
  · rw [SymbolTable.Closed.symbol_declare _ _ _ hlt] at hi
    exact .inr hi
  · exact .inl rfl

theorem MethodDecl.named_declare (hs : s.Sound) (d : MethodDecl) :
    Ensures d.declare s fun m t => Named d s m t := by
  have hresult := (ensures_compileResult hs d.type).and (declares_compileResult d.type hs le_rfl)
  refine hresult.bind fun result s₁ ⟨hvoid, h₁, hin⟩ => ?_
  refine (ensures_expectName (n := s.table.symbols.size) h₁.sound d.name).bind
    fun name s₂ ⟨hname, h₂⟩ => ?_
  have hin₂ : result.In s₂.table := hin.mono h₂.table.below
  have hlogs₂ := h₂.log
  have h₂ := h₁.trans h₂
  apply (ensures_declare h₂.sound .method name hin₂ SymbolKind.noConfusion).bind
  rintro id s₃ ⟨rfl, ⟨log₃, hs₃⟩, hsound₃, hlogs₃, htaken⟩
  obtain ⟨hsymbol, hmethods⟩ := symbol_declare_method (t := s₂.table) name result
  have htable₃ : s₃.table = s₂.table.declare .method name result := by rw [hs₃]
  rw [← htable₃] at hsymbol hmethods
  have hbase := h₂.table.below.symbols
  have hlt : s₂.table.symbols.size < s₃.table.symbols.size := by
    rw [htable₃, SymbolTable.declare, Array.size_push]
    exact Nat.lt_succ_self _
  apply ensures_pc_bind
  refine (ensures_modifySymbol hsound₃ (hs.table.size.trans hbase) hlt
    (f := fun c => { c with address := s₃.code.pc })
    fun c hc => ⟨hc.type, hc.locals, hc.typed⟩).bind ?_
  rintro _ s₄ ⟨hs₄, hsound₄⟩
  have htable₄ : s₄.table = s₃.table.modifySymbol s₂.table.symbols.size
      fun c => { c with address := s₃.code.pc } := by rw [hs₄]
  have hkeeps : s₃.table.Keeps s₂.table.symbols.size s₄.table :=
    htable₄ ▸ .modifySymbol le_rfl fun _ => rfl
  have hclean₃ : ¬ s₄.Faulty → ¬ s₃.Faulty := by
    rw [hs₄]
    exact id
  have hcode₃ : s₃.code = s.code := by rw [hs₃]; exact h₂.code
  refine .pure ⟨hsound₄, ?_, ?_, ?_, ?_, hname, ?_, ?_, ?_, ?_, hbase, ?_, ?_, ?_, ?_, ?_, ?_, ?_⟩
  · rw [hs₄, hs₃]
    exact h₂.items
  · rw [hs₄, hs₃]
    exact h₂.debug
  · rw [hs₄]
    exact hcode₃
  · refine (h₂.log.trans hlogs₃).trans (.of_eq ?_)
    rw [hs₄]
  · rw [hcode₃]
  · refine (hin₂.mono ?_).mono hkeeps.below
    rw [htable₃]
    exact SymbolTable.Closed.below_declare _ _ _ _
  · exact hlt.trans_le hkeeps.below.symbols
  · rw [htable₄, SymbolTable.Closed.symbol_modifySymbol_self hlt, hsymbol]
  · intro i hi
    rw [hkeeps.old i (hi.trans_le hbase), htable₃,
      SymbolTable.Closed.symbol_declare _ _ _ (hi.trans_le hbase), h₂.table.old i hi]
  · intro i hi
    exact (hmethods i (hkeeps.methods i hi).2).imp_right fun h => (h₂.table.methods i h).1
  · rw [htable₄, htable₃]
    exact h₂.table.outer
  · rw [htable₄, htable₃]
    change (s₂.table.current.insert name _ _).declares name = true
    simp [Scope.declares, Scope.find?_insert]
  · intro other hother
    have hother₂ := h₂.table.declares other hother
    rw [htable₄, htable₃]
    change (s₂.table.current.insert name _ _).declares other = true
    rw [Scope.declares, Scope.find?_insert]
    split
    · rfl
    · exact hother₂
  · intro hclean
    by_contra hdeclares
    exact hclean₃ hclean (htaken (h₂.table.declares name (by simpa using hdeclares)))
  · exact fun hclean => hvoid fun h => hclean₃ hclean (hlogs₃.faulty (hlogs₂.faulty h))

theorem TypeName.emits_compile {allowed : Item → Prop} (d : TypeName) : Emits allowed d.compile := by
  refine (Emits.expectName _).bind fun name => (Emits.findType name).bind fun type => ?_
  cases d.array with
  | none => exact .pure
  | some closed => exact Emits.shift.bind fun _ => (Emits.expect _ _).bind fun _ => .newArray type

/-- The first parameter is always declared, because its scope is empty. -/
theorem ensures_compileParameters (hs : s.Sound) {ps : List Parameter} (hps : ps ≠ [])
    (hempty : ∀ name, s.table.current.declares name = false) :
    Ensures (compileParameters true ps) s fun _ s' => 0 < s'.table.current.variableCount := by
  cases ps with
  | nil => exact absurd rfl hps
  | cons p ps =>
      change Ensures (p.type.compile >>= fun type => declareVariable type p.name >>= fun _ =>
        compileParameters false ps) s _
      have htype := p.type.declares_compile (n := 0) hs (Nat.zero_le _)
      have hemits : Emits (fun _ => False) p.type.compile := p.type.emits_compile
      have hextends : Ensures p.type.compile s fun _ s' => s.table.Extends s'.table :=
        (hemits s).table_extends
      apply (htype.and hextends).bind
      rintro type s₁ ⟨⟨h₁, hin⟩, he⟩
      have hname : Ensures (expectName p.name) s₁ fun _ s' => ∃ log, s' = { s₁ with log } :=
        OnlyLogs.expectName _ s₁
      refine (hname.bind (Q := fun _ s' => s'.Sound ∧ 0 < s'.table.current.variableCount) ?_).bind ?_
      · rintro name _ ⟨log, rfl⟩
        have hs₂ : Sound { s₁ with log } := ⟨h₁.sound.table, h₁.sound.stray, h₁.sound.assembles⟩
        apply (ensures_declare hs₂ .variable name hin SymbolKind.noConfusion).bind
        rintro id _ ⟨-, ⟨log', rfl⟩, hs₃, -, -⟩
        refine .pure ⟨hs₃, ?_⟩
        change 0 < (s₁.table.current.insert name _ _).variableCount
        rw [he.current, Scope.insert, hempty name]
        exact Nat.succ_pos _
      · rintro _ s₃ ⟨hs₃, hcount⟩
        have hrest := declares_compileParameters (n := 0) false ps hs₃ (Nat.zero_le _)
        exact hrest.mono fun _ s' h => hcount.trans_le h.1.table.count

/-- What is known when the parameters of a method that begins in the state `s` were declared. -/
structure Signed (d : MethodDecl) (s : Compiler) (m : Signature) (t : Compiler) : Prop where
  sound : t.Sound
  items : t.items = s.items
  debug : t.debug = s.debug
  code : t.code = { s.code with
    entry := if m.name = mainName then some m.entry else s.code.entry }
  log : s.Logs t
  name : m.name = d.name.getD ""
  entry : m.entry = s.code.pc
  result : m.result.In t.table
  lt : m.id < t.table.symbols.size
  symbol : t.table.symbol m.id = { kind := .method, name := m.name, type := m.result
                                   address := m.entry, parameterCount := m.parameterCount }
  base : s.table.symbols.size ≤ m.id
  old : ∀ id < s.table.symbols.size, t.table.symbol id = s.table.symbol id
  methods : ∀ id, (t.table.symbol id).kind = .method → id = m.id ∨ id < s.table.symbols.size
  outer : ∃ c : Scope, t.table.outer = c :: s.table.outer ∧ c.declares m.name = true ∧
    ∀ name, s.table.current.declares name = true → c.declares name = true
  count : m.parameterCount ≤ t.table.current.variableCount
  parameters : m.parameterCount = 0 → d.parameters = []
  fresh : ¬ t.Faulty → s.table.current.declares m.name = false
  void : ¬ t.Faulty → (m.result = .void ↔ d.type = none)
  main : ¬ t.Faulty → m.name = mainName → m.result = .void ∧ m.parameterCount = 0

/-- The method that is declared last is where execution begins if it is called `main`. -/
theorem ensures_noteMain (name : String) (result : Ty) (entry parameterCount : Nat) :
    Ensures (noteMain name result entry parameterCount) s fun _ s' =>
      (∃ log, s' = { s with
        log
        code := { s.code with entry := if name = mainName then some entry else s.code.entry } }) ∧
      s.Logs s' ∧ (¬ s'.Faulty → name = mainName → result = .void ∧ parameterCount = 0) := by
  unfold noteMain
  by_cases hname : name = mainName
  · rw [if_pos hname, if_pos hname]
    refine Ensures.bind (P := fun _ s' => s' = { s with code := { s.code with entry := some entry } })
      rfl ?_
    rintro _ _ rfl
    apply (ensures_faultIf _ _).bind
    rintro _ _ ⟨⟨log, rfl⟩, hlogs, hvoid⟩
    apply (ensures_faultIf _ _).mono
    rintro _ _ ⟨⟨log', rfl⟩, hlogs', hnone⟩
    refine ⟨⟨log', rfl⟩, ⟨hlogs.isPrefix.trans hlogs'.isPrefix, hlogs'.orderly ∘ hlogs.orderly⟩,
      fun hclean _ => ⟨?_, ?_⟩⟩
    · by_contra h
      exact hclean (hlogs'.faulty (hvoid (by simpa using h)))
    · by_contra h
      exact hclean (hnone (by simpa using h))
  · rw [if_neg hname, if_neg hname]
    exact .pure ⟨⟨s.log, rfl⟩, .refl s, fun _ h => absurd h hname⟩

theorem MethodDecl.signed_compileSignature (hs : s.Sound) (d : MethodDecl) :
    Ensures d.compileSignature s fun m t => Signed d s m t := by
  refine (d.named_declare hs).bind fun m s₁ h => ?_
  apply (Declares.expect _ _ h.sound (Nat.succ_le_of_lt h.lt)).bind
  rintro _ s₂ ⟨h₂, -⟩
  apply ensures_openScope_bind
  have hlt₂ := h.lt.trans_le h₂.table.below.symbols
  have hparameters : Ensures (compileParameters true d.parameters) s₂.inScope fun _ s' =>
      s'.table.current.variableCount = 0 → d.parameters = [] := by
    by_cases hnil : d.parameters = []
    · exact fun _ => hnil
    · refine (ensures_compileParameters h₂.sound.inScope hnil fun name => ?_).mono
        fun _ _ hpos hzero => absurd hzero hpos.ne'
      simp [inScope, SymbolTable.openScope, Scope.declares, Scope.find?, Scope.empty]
  apply ((declares_compileParameters true d.parameters (n := m.id + 1) h₂.sound.inScope
    (Nat.succ_le_of_lt hlt₂)).and hparameters).bind
  rintro _ s₃ ⟨⟨h₃, -⟩, hnone⟩
  apply (ensures_variableCount h₃.sound).bind
  rintro count s₃ ⟨hcount, rfl⟩
  have hlt₃ := hlt₂.trans_le h₃.table.below.symbols
  refine (ensures_modifySymbol h₃.sound (hs.table.size.trans h.base) hlt₃
    (f := fun c => { c with parameterCount := count })
    fun c hc => ⟨hc.type, hc.locals, hc.typed⟩).bind ?_
  rintro _ s₄ ⟨hs₄, hsound₄⟩
  have htable₄ : s₄.table = s₃.table.modifySymbol m.id fun c => { c with parameterCount := count } := by
    rw [hs₄]
  have hkeeps₄ : s₃.table.Keeps m.id s₄.table := htable₄ ▸ .modifySymbol le_rfl fun _ => rfl
  have hlt₄ := hlt₃.trans_le hkeeps₄.below.symbols
  apply (Declares.expect _ _ hsound₄ (Nat.succ_le_of_lt hlt₄)).bind
  rintro _ s₅ ⟨h₅, -⟩
  apply (ensures_noteMain m.name m.result m.entry count).bind
  rintro _ t ⟨⟨log, ht⟩, hlogs, hmain⟩
  have htable : t.table = s₅.table := by rw [ht]
  have hcode₅ : s₅.code = s.code := by rw [h₅.code, hs₄]; exact (h₃.code.trans h₂.code).trans h.code
  have hkeeps : s₁.table.Keeps m.id t.table := by
    have h₂₃ := (h₂.table.toKeeps.mono (Nat.le_succ _)).trans (.openScope s₂.table)
    have h₂₄ := (h₂₃.trans (h₃.table.toKeeps.mono (Nat.le_succ _))).trans hkeeps₄
    rw [htable]
    exact h₂₄.trans (h₅.table.toKeeps.mono (Nat.le_succ _))
  have hlogs₁ : s₁.Logs t := by
    have h₁₃ : s₁.Logs s₃ := h₂.log.trans ⟨h₃.log.isPrefix, h₃.log.orderly⟩
    have h₃₄ : s₃.Logs s₄ := .of_eq (by rw [hs₄])
    exact ((h₁₃.trans h₃₄).trans h₅.log).trans hlogs
  have hclean : ¬ t.Faulty → ¬ s₁.Faulty := fun hclean hfaulty => hclean (hlogs₁.faulty hfaulty)
  refine .pure ⟨?_, ?_, ?_, ?_, h.log.trans hlogs₁, h.name, h.entry, ?_, ?_, ?_, h.base, ?_, ?_, ?_,
    ?_, fun hzero => hnone (hcount ▸ hzero), fun hc => h.fresh (hclean hc),
    fun hc => h.void (hclean hc), hmain⟩
  · have hassembles := h₅.sound.assembles
    rw [ht]
    exact ⟨h₅.sound.table, h₅.sound.stray, ⟨hassembles.wellFormed, hassembles.placed, hassembles.sites,
      hassembles.known, hassembles.code, hassembles.clash⟩⟩
  · rw [ht]
    apply h₅.items.trans
    rw [hs₄]
    exact (h₃.items.trans h₂.items).trans h.items
  · rw [ht]
    apply h₅.debug.trans
    rw [hs₄]
    exact (h₃.debug.trans h₂.debug).trans h.debug
  · rw [ht, hcode₅]
  · exact h.result.mono hkeeps.below
  · exact h.lt.trans_le hkeeps.below.symbols
  · have hsymbol₃ : s₃.table.symbol m.id = s₁.table.symbol m.id :=
      (h₃.table.old m.id (Nat.lt_succ_self _)).trans (h₂.table.old m.id (Nat.lt_succ_self _))
    rw [htable, h₅.table.old m.id (Nat.lt_succ_self _), htable₄,
      SymbolTable.Closed.symbol_modifySymbol_self hlt₃, hsymbol₃, h.symbol]
  · intro i hi
    rw [hkeeps.old i (hi.trans_le h.base), h.old i hi]
  · exact fun i hi => h.methods i (hkeeps.methods i hi).2
  · have houter₃ : s₃.table.outer = s₂.table.current :: s₂.table.outer := h₃.table.outer
    refine ⟨s₂.table.current, ?_, h₂.table.declares _ h.declared,
      fun name hname => h₂.table.declares _ (h.declares name hname)⟩
    rw [htable, h₅.table.outer, htable₄]
    change s₃.table.outer = _
    rw [houter₃, h₂.table.outer, h.outer]
  · rw [htable]
    refine le_trans ?_ h₅.table.count
    rw [htable₄, hcount]
    exact le_rfl

/-- What is known when the statements of a method that begins in the state `s` are compiled next. -/
structure Headed (d : MethodDecl) (s : Compiler) (m : Signature) (localCount : Nat) (t : Compiler) :
    Prop where
  sound : t.Sound
  items : t.items = s.items.push (.instruction .enter [m.parameterCount, localCount])
  debug : t.debug = { s.debug with methods := s.debug.methods.push (m.info localCount) }
  code : t.code = Emitter.write { s.code with
    entry := if m.name = mainName then some m.entry else s.code.entry }
    (.instruction .enter [m.parameterCount, localCount])
  log : s.Logs t
  name : m.name = d.name.getD ""
  entry : m.entry = s.code.pc
  result : m.result.In t.table
  symbol : (t.table.symbol m.id).kind = .method ∧ (t.table.symbol m.id).type = m.result ∧
    (t.table.symbol m.id).address = m.entry ∧
    (t.table.symbol m.id).parameters.size = m.parameterCount
  base : s.table.symbols.size ≤ m.id
  old : ∀ id < s.table.symbols.size, t.table.symbol id = s.table.symbol id
  methods : ∀ id, (t.table.symbol id).kind = .method → id = m.id ∨ id < s.table.symbols.size
  outer : ∃ c : Scope, t.table.outer = c :: s.table.outer ∧ c.declares m.name = true ∧
    ∀ name, s.table.current.declares name = true → c.declares name = true
  count : m.parameterCount ≤ localCount
  parameters : m.parameterCount = 0 → d.parameters = []
  fresh : ¬ t.Faulty → s.table.current.declares m.name = false
  void : ¬ t.Faulty → (m.result = .void ↔ d.type = none)
  main : ¬ t.Faulty → m.name = mainName → m.result = .void ∧ m.parameterCount = 0
  small : ¬ t.Faulty → localCount ≤ maxLocals

theorem MethodDecl.headed_compileHead (hs : s.Sound) (d : MethodDecl) :
    Ensures d.compileHead s fun m t => ∃ localCount, Headed d s m localCount t := by
  refine (d.signed_compileSignature hs).bind fun m s₁ h => ?_
  have hlocals : Declares (m.id + 1) (d.locals.forM VariableDecl.compile) s₁ fun _ _ => True :=
    .forM (I := fun _ => True) (fun _ _ _ h => h) (fun d _ _ _ => d.declares_compile) trivial
  refine (hlocals h.sound (Nat.succ_le_of_lt h.lt)).bind fun _ s₂ ⟨h₂, _⟩ => ?_
  have hlt₂ := h.lt.trans_le h₂.table.below.symbols
  apply (ensures_variableCount h₂.sound).bind
  rintro count s₂ ⟨hcount, rfl⟩
  refine (ensures_faultIf _ _).bind fun _ s₃ ⟨⟨log, hs₃⟩, hlogs₃, hsmall⟩ => ?_
  have hsound₃ : s₃.Sound := by
    rw [hs₃]
    exact ⟨h₂.sound.table, h₂.sound.stray, h₂.sound.assembles⟩
  have hwrite : Safe (write (.instruction .enter [m.parameterCount, count])) s₃ fun _ _ => True :=
    .write (fun _ => ⟨rfl, rfl⟩) fun _ => Item.noConfusion
  have hstate : Ensures (write (.instruction .enter [m.parameterCount, count])) s₃ fun _ s₄ =>
      s₄ = { s₃ with
        code := s₃.code.write (.instruction .enter [m.parameterCount, count])
        items := s₃.items.push (.instruction .enter [m.parameterCount, count]) } := rfl
  refine ((hwrite hsound₃).and hstate).bind fun _ s₄ ⟨⟨hsound₄, _⟩, hs₄⟩ => ?_
  apply (ensures_currentLocals hsound₄).bind
  rintro ids s₄ ⟨hids, rfl⟩
  have htable₄ : s₄.table = s₂.table := by rw [hs₄, hs₃]
  have hids₄ : ∀ id ∈ ids, id < s₄.table.symbols.size := by
    rw [hids]
    exact (hsound₄.table.scopes _ List.mem_cons_self).locals
  have hlt₄ : m.id < s₄.table.symbols.size := by rwa [htable₄]
  refine (ensures_modifySymbol hsound₄ (hs.table.size.trans h.base) hlt₄
    (f := fun c => { c with locals := ids }) fun c hc => ⟨hc.type, hids₄, hc.typed⟩).bind ?_
  rintro _ s₅ ⟨hs₅, hsound₅⟩
  have htable₅ : s₅.table = s₂.table.modifySymbol m.id fun c => { c with locals := ids } := by
    rw [hs₅, ← htable₄]
  refine Ensures.bind (P := fun _ s₆ => s₆ = { s₅ with
    debug := { s₅.debug with methods := s₅.debug.methods.push (m.info count) } }) rfl ?_
  intro _ s₆ hs₆
  have hsound₆ : s₆.Sound := by
    rw [hs₆]
    exact ⟨hsound₅.table, hsound₅.stray, hsound₅.assembles⟩
  have htable₆ : s₆.table = s₅.table := by rw [hs₆]
  have hkeeps₅ : s₂.table.Keeps m.id s₅.table := htable₅ ▸ .modifySymbol le_rfl fun _ => rfl
  have hlt₆ : m.id < s₆.table.symbols.size :=
    htable₆ ▸ hlt₂.trans_le hkeeps₅.below.symbols
  refine (Declares.expect _ _ hsound₆ (Nat.succ_le_of_lt hlt₆)).bind fun _ t ⟨ht, _⟩ =>
    .pure ⟨count, ?_⟩
  have hkeeps : s₁.table.Keeps m.id t.table := by
    apply ((h₂.table.toKeeps.mono (Nat.le_succ _)).trans hkeeps₅).trans
    exact htable₆ ▸ ht.table.toKeeps.mono (Nat.le_succ _)
  have hlogs₃' : s₃.Logs t := .trans (.of_eq (by rw [hs₆, hs₅, hs₄])) ht.log
  have hlogs : s₁.Logs t := (h₂.log.trans hlogs₃).trans hlogs₃'
  have hclean : ¬ t.Faulty → ¬ s₁.Faulty := fun hclean hfaulty => hclean (hlogs.faulty hfaulty)
  have hcount' : m.parameterCount ≤ count := by
    rw [hcount]
    exact h.count.trans h₂.table.count
  have hsize : count ≤ ids.size := by
    rw [hcount, hids, htable₄]
    exact (h₂.sound.table.scopes _ List.mem_cons_self).count
  have hsymbol : t.table.symbol m.id = { kind := .method, name := m.name, type := m.result
                                         address := m.entry, parameterCount := m.parameterCount
                                         locals := ids } := by
    rw [ht.table.old m.id (Nat.lt_succ_self _), htable₆, htable₅,
      SymbolTable.Closed.symbol_modifySymbol_self hlt₂, h₂.table.old m.id (Nat.lt_succ_self _),
      h.symbol]
  refine ⟨ht.sound, ?_, ?_, ?_, h.log.trans hlogs, h.name, h.entry, h.result.mono hkeeps.below, ?_,
    h.base, ?_, ?_, ?_, hcount', h.parameters, fun hc => h.fresh (hclean hc),
    fun hc => h.void (hclean hc), fun hc => h.main (hclean hc), ?_⟩
  · rw [ht.items, hs₆, hs₅, hs₄, hs₃]
    change s₂.items.push _ = _
    rw [h₂.items, h.items]
  · rw [ht.debug, hs₆, hs₅, hs₄, hs₃, ← h.debug, ← h₂.debug]
  · rw [ht.code, hs₆, hs₅, hs₄, hs₃, ← h.code, ← h₂.code]
  · rw [hsymbol]
    refine ⟨rfl, rfl, rfl, ?_⟩
    simp only [Symbol.parameters, Array.take_eq_extract, Array.size_extract]
    omega
  · intro i hi
    rw [hkeeps.old i (hi.trans_le h.base), h.old i hi]
  · exact fun i hi => h.methods i (hkeeps.methods i hi).2
  · rcases h.outer with ⟨c, hc, hdeclares⟩
    refine ⟨c, ?_, hdeclares⟩
    rw [ht.table.outer, htable₆, htable₅]
    change s₂.table.outer = _
    rw [h₂.table.outer, hc]
  · intro hc
    by_contra hbig
    exact hc (hlogs₃'.faulty (hsmall (by simpa using hbig)))

end Tree

end MicroJava
