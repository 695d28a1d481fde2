import MicroJava.Compile
import MicroJava.Proofs.Faultless

/-!
# What is known of a compiled program

The methods of a program are compiled one after the other, and each adds one body to the code.
`Compiled ms bs s` is what is known of a state after the methods among `ms` were compiled to the
bodies `bs`, whatever faults there were; `Flawless bs is` is what is known besides if there was no
fault. All of it holds before the first method, and every method keeps it. Of a method without a fault
of its own its body is `Clean`, whatever is wrong with the rest of the program.
-/

namespace MicroJava

open MicroJava.Tree

/-- The method that a member of a program is. -/
def Tree.Member.method? : Member → Option MethodDecl
  | .method d => some d
  | .skipped _ => none

/-- What a symbol says of a method is true of the body. -/
structure Body.Describes (b : Body) (c : Symbol) : Prop where
  type : c.type = b.method.result
  address : c.address = b.method.entry
  parameters : c.parameters.size = b.method.parameterCount

/-- The methods of a table are predeclared or among some bodies. -/
def SymbolTable.MethodsIn (t : SymbolTable) (bs : List Body) : Prop :=
  ∀ id, (t.symbol id).kind = .method →
    id = ordId ∨ id = chrId ∨ id = lenId ∨ ∃ b ∈ bs, b.Describes (t.symbol id)

/-- The statements of a body were compiled without a fault where they stand, while the table had
methods that are among some bodies. -/
def Body.Ran (bs : List Body) (b : Body) : Prop :=
  ∃ t : Compiler, t.Sound ∧ b.method.result.In t.table ∧ t.table.MethodsIn bs ∧
    Item.codeSize t.items.toList = b.method.entry + Opcode.enter.size ∧
    t.Writes b.items (compileStatements none b.method.result b.decl.body t).2 ∧
    ¬ (compileStatements none b.method.result b.decl.body t).2.Faulty

/-- What is known of the body of a method without a fault of its own, in a program with the bodies
`bs` and the items `is`. -/
structure Body.Clean (bs : List Body) (is : List Item) (b : Body) : Prop where
  ran : b.Ran bs
  near : ∀ a t, Item.Leads is a t → b.method.entry ≤ a →
    a < b.method.entry + Item.codeSize b.code → Emitter.isFar (t - a) = false
  void : b.method.result = .void ↔ b.decl.type = none

/-- What is known of the bodies of a program without faults. -/
structure Flawless (bs : List Body) (is : List Item) : Prop where
  near : ∀ a t, Item.Leads is a t → Emitter.isFar (t - a) = false
  names : (bs.map fun b => b.method.name).Nodup
  void : ∀ b ∈ bs, (b.method.result = .void ↔ b.decl.type = none)
  main : ∀ b ∈ bs, b.method.name = mainName →
    b.method.result = .void ∧ b.method.parameterCount = 0
  small : ∀ b ∈ bs, b.localCount ≤ maxLocals
  ran : ∀ b ∈ bs, b.Ran bs

/-- What is known of a state after some methods were compiled. -/
structure Compiled (ms : List Member) (bs : List Body) (s : Compiler) : Prop where
  sound : s.Sound
  decls : bs.map Body.decl = ms.filterMap Member.method?
  items : s.items.toList = bs.flatMap Body.code
  debug : s.debug.methods.toList = bs.map Body.info
  settled : ∀ l, l < s.code.labels.size → s.code.address? l ≠ none
  entries : ∀ bs₁ b bs₂, bs = bs₁ ++ b :: bs₂ →
    b.method.entry = Item.codeSize (bs₁.flatMap Body.code)
  inner : ∀ b ∈ bs, ∀ i ∈ b.items, i.IsInner
  closed : ∀ b ∈ bs, ∀ op l, .jump op l ∈ b.items → .place l ∈ b.items
  calls : ∀ a, .call a ∈ s.items.toList → ∃ b ∈ bs, (b.method.entry : Int) = a
  start : ∀ a, s.code.entry = some a → ∃ b ∈ bs, b.method.name = mainName ∧ b.method.entry = a
  started : ∀ b ∈ bs, b.method.name = mainName → s.code.entry ≠ none
  names : ∀ b ∈ bs, b.method.name = b.decl.name.getD ""
  counts : ∀ b ∈ bs, b.method.parameterCount ≤ b.localCount
  parameters : ∀ b ∈ bs, b.method.parameterCount = 0 → b.decl.parameters = []
  orderly : Event.Orderly s.log.toList
  flawless : ¬ s.Faulty → Flawless bs s.items.toList

/-- What is known between two methods. -/
structure Between (ms : List Member) (bs : List Body) (s : Compiler) : Prop
    extends Compiled ms bs s where
  counted : s.code.farCount = 0
  methods : s.table.MethodsIn bs
  declared : ∀ b ∈ bs, s.table.current.declares b.method.name = true

namespace SymbolTable.MethodsIn

variable {t t' : SymbolTable} {bs bs' : List Body}

theorem mono (h : t.MethodsIn bs) (hb : bs ⊆ bs') : t.MethodsIn bs' := by
  intro id hid
  rcases h id hid with h | h | h | ⟨b, hmem, h⟩
  · exact .inl h
  · exact .inr (.inl h)
  · exact .inr (.inr (.inl h))
  · exact .inr (.inr (.inr ⟨b, hb hmem, h⟩))

theorem congr (h : t.MethodsIn bs) (hsymbol : ∀ id, t'.symbol id = t.symbol id) :
    t'.MethodsIn bs := by
  intro id hid
  rw [hsymbol] at hid ⊢
  exact h id hid

/-- The address of a method is that of a body. -/
theorem exists_entry (h : t.MethodsIn bs) {a : Int} (ha : t.HasEntry a) :
    ∃ b ∈ bs, (b.method.entry : Int) = a := by
  rcases ha with ⟨id, hid, ⟨hord, hchr⟩, hlen, rfl⟩
  rcases h id hid with h | h | h | ⟨b, hmem, h⟩
  · exact absurd h hord
  · exact absurd h hchr
  · exact absurd h hlen
  · exact ⟨b, hmem, h.address.symm⟩

end SymbolTable.MethodsIn

theorem Body.Ran.mono {bs bs' : List Body} {b : Body} (h : b.Ran bs) (hb : bs ⊆ bs') : b.Ran bs' := by
  rcases h with ⟨t, hs, hin, hmethods, hw⟩
  exact ⟨t, hs, hin, hmethods.mono hb, hw⟩

/-- The statements of a method without a fault were compiled without one. -/
theorem Tree.Adds.ran {d : MethodDecl} {s s' : Compiler} {b : Body} {bs : List Body}
    (h : Adds d s b s') (hmethods : s'.table.MethodsIn bs) (hclean : ¬ s'.Faulty) : b.Ran bs := by
  rcases h.run with ⟨t, hs, hin, hsize, hsymbol, hw, hfaulty⟩
  rw [← h.decl] at hw hfaulty
  exact ⟨t, hs, hin, hmethods.congr hsymbol, hsize, hw, fun ht => hclean (hfaulty ht)⟩

/-- Members behind a method leave its body as clean as it is. -/
theorem Body.Clean.mono {bs bs' : List Body} {is is' : List Item} {b : Body} (h : b.Clean bs is)
    (hb : bs ⊆ bs') (hleads : ∀ a t, Item.Leads is' a t →
      b.method.entry + Item.codeSize b.code ≤ a ∨ Item.Leads is a t) : b.Clean bs' is' where
  ran := h.ran.mono hb
  near := fun a t hl hle hlt =>
    h.near a t ((hleads a t hl).resolve_left (Nat.not_le_of_lt hlt)) hle hlt
  void := h.void

namespace Compiled

variable {ms ms' : List Member} {bs bs' : List Body} {s s' : Compiler}

theorem pc_eq (h : Compiled ms bs s) : s.code.pc = Item.codeSize (bs.flatMap Body.code) := by
  rw [h.sound.assembles.pc_eq, h.items]

/-- The bodies that were added are those of the methods that were added. -/
theorem decls_append (h : Compiled ms bs s) (h' : Compiled (ms ++ ms') (bs ++ bs') s') :
    bs'.map Body.decl = ms'.filterMap Member.method? := by
  have hdecls := h'.decls
  rw [List.map_append, List.filterMap_append, h.decls] at hdecls
  exact List.append_cancel_left hdecls

theorem pc_le (h : Compiled ms bs s) (h' : Compiled ms' (bs ++ bs') s') : s.code.pc ≤ s'.code.pc := by
  rw [h.pc_eq, h'.pc_eq, List.flatMap_append, Item.codeSize_append]
  exact Nat.le_add_right _ _

/-- Every body ends before the code does. -/
theorem end_le (h : Compiled ms bs s) {b : Body} (hb : b ∈ bs) :
    b.method.entry + Item.codeSize b.code ≤ s.code.pc := by
  obtain ⟨bs₁, bs₂, rfl⟩ := List.append_of_mem hb
  rw [h.entries bs₁ b bs₂ rfl, h.pc_eq, List.flatMap_append, List.flatMap_cons,
    Item.codeSize_append, Item.codeSize_append]
  omega

end Compiled

/-- What is known of the code stays true if the code does. -/
theorem Compiled.congr {ms : List Member} {bs : List Body} {s s' : Compiler} (h : Compiled ms bs s)
    (hs' : s'.Sound) (hitems : s'.items = s.items) (hcode : s'.code = s.code)
    (hdebug : s'.debug = s.debug) (hlogs : s.Logs s') : Compiled ms bs s' where
  sound := hs'
  decls := h.decls
  items := hitems ▸ h.items
  debug := hdebug ▸ h.debug
  settled := hcode ▸ h.settled
  entries := h.entries
  inner := h.inner
  closed := h.closed
  calls := hitems ▸ h.calls
  start := hcode ▸ h.start
  started := hcode ▸ h.started
  names := h.names
  counts := h.counts
  parameters := h.parameters
  orderly := hlogs.orderly h.orderly
  flawless := fun hclean => hitems ▸ h.flawless fun hfaulty => hclean (hlogs.faulty hfaulty)

namespace Between

variable {s s' : Compiler} {ms : List Member} {bs : List Body} {b : Body} {d : MethodDecl}

theorem forall_mem_concat {P : Body → Prop} (hbs : ∀ b' ∈ bs, P b') (hb : P b) :
    ∀ b' ∈ bs ++ [b], P b' := by
  intro b' hb'
  rcases List.mem_append.1 hb' with hb' | hb'
  · exact hbs b' hb'
  · rwa [List.mem_singleton.1 hb']

/-- Entries of the log change nothing but whether there was a fault. -/
theorem log (h : Between ms bs s) {log : Array Event} (hs' : s' = { s with log })
    (hlogs : s.Logs s') : Between ms bs s' := by
  subst hs'
  exact ⟨h.congr ⟨h.sound.table, h.sound.stray, h.sound.assembles⟩ rfl rfl rfl hlogs, h.counted,
    h.methods, h.declared⟩

/-- Where a method begins is known from the methods before it. -/
theorem entries_adds (h : Between ms bs s) (ha : Adds d s b s') {bs₁ bs₂ : List Body} {b₁ : Body}
    (heq : bs ++ [b] = bs₁ ++ b₁ :: bs₂) :
    b₁.method.entry = Item.codeSize (bs₁.flatMap Body.code) := by
  rcases List.eq_nil_or_concat bs₂ with rfl | ⟨bs₂, b₂, rfl⟩
  · rcases List.append_inj' heq rfl with ⟨rfl, hb⟩
    rw [← List.singleton_inj.1 hb, ha.entry, h.sound.assembles.pc_eq, h.items]
  · rw [List.concat_eq_append, ← List.cons_append, ← List.append_assoc] at heq
    exact h.entries bs₁ b₁ bs₂ (List.append_inj' heq rfl).1

theorem calls_adds (h : Between ms bs s) (ha : Adds d s b s') (hmethods : s'.table.MethodsIn (bs ++ [b]))
    {a : Int} (hcall : .call a ∈ s'.items.toList) :
    ∃ b' ∈ bs ++ [b], (b'.method.entry : Int) = a := by
  have hold : .call a ∈ s.items.toList → ∃ b' ∈ bs ++ [b], (b'.method.entry : Int) = a := by
    intro hmem
    rcases h.calls a hmem with ⟨b', hb', hentry⟩
    exact ⟨b', List.mem_append_left _ hb', hentry⟩
  rw [ha.items] at hcall
  rcases List.mem_append.1 hcall with hcall | hcall
  · exact hold hcall
  · have hbody : .call a ∈ b.items := by
      rcases List.mem_cons.1 hcall with hcall | hcall
      · exact Item.noConfusion hcall
      · refine (List.mem_append.1 hcall).resolve_right fun hend => ?_
        rcases List.mem_map.1 hend with ⟨o, _, ho⟩
        exact Item.noConfusion ho
    exact (ha.calls a hbody).elim hold hmethods.exists_entry

/-- A jump or call of an earlier method leads on to where it led to. -/
theorem leads_adds (h : Between ms bs s) (ha : Adds d s b s') {a : Nat} {t : Int}
    (hl : Item.Leads s'.items.toList a t) : s.code.pc ≤ a ∨ Item.Leads s.items.toList a t := by
  have hlocated : Item.located 0 s'.items.toList =
      Item.located 0 s.items.toList ++ Item.located s.code.pc b.code := by
    rw [ha.items, Item.located_append, Nat.zero_add, h.sound.assembles.pc_eq]
  refine or_iff_not_imp_left.2 fun hlt => ?_
  cases hl with
  | @jump t op l hj hp =>
      rw [hlocated] at hj
      have hj := (List.mem_append.1 hj).resolve_right fun hnew =>
        hlt (Item.bounds_of_mem_located hnew).1
      have hknown := h.sound.assembles.known op l (Item.mem_of_mem_located hj)
      have hplaced := (ha.sound.assembles.placed l t).2 hp
      rw [ha.old l hknown] at hplaced
      exact .jump hj ((h.sound.assembles.placed l t).1 hplaced)
  | call hc =>
      rw [hlocated] at hc
      exact .call ((List.mem_append.1 hc).resolve_right fun hnew =>
        hlt (Item.bounds_of_mem_located hnew).1)

theorem methods_adds (h : Between ms bs s) (ha : Adds d s b s') :
    s'.table.MethodsIn (bs ++ [b]) := by
  intro id hid
  rcases ha.methods id hid with rfl | hlt
  · rcases ha.symbol with ⟨-, htype, haddress, hparameters⟩
    exact .inr (.inr (.inr ⟨b, by simp, htype, haddress, hparameters⟩))
  · rw [ha.same id hlt] at hid ⊢
    exact h.methods.mono (List.subset_append_left bs [b]) id hid

theorem flawless_adds (h : Between ms bs s) (ha : Adds d s b s') (hclean : ¬ s'.Faulty) :
    Flawless (bs ++ [b]) s'.items.toList := by
  have hold := h.flawless fun hfaulty => hclean (ha.log.faulty hfaulty)
  refine ⟨fun a t hl => ?_, ?_, forall_mem_concat hold.void ?_, forall_mem_concat hold.main (ha.main hclean),
    forall_mem_concat hold.small (ha.small hclean), forall_mem_concat (fun b' hb' => ?_) ?_⟩
  · rcases h.leads_adds ha hl with hle | hl
    · exact ha.near hclean a t hle hl
    · exact hold.near a t hl
  · -- the new name was not declared, and those of the other methods were
    rw [List.map_append, List.nodup_append]
    refine ⟨hold.names, by simp, ?_⟩
    rintro _ hname _ hnew rfl
    rcases List.mem_map.1 hname with ⟨b', hb', heq⟩
    have hdeclared := h.declared b' hb'
    rw [heq, List.mem_singleton.1 hnew, ha.fresh hclean] at hdeclared
    cases hdeclared
  · rw [ha.decl]
    exact ha.void hclean
  · exact (hold.ran b' hb').mono (List.subset_append_left bs [b])
  · exact ha.ran (h.methods_adds ha) hclean

/-- A method adds its body. -/
theorem adds (h : Between ms bs s) (ha : Adds d s b s') :
    Between (ms ++ [.method d]) (bs ++ [b]) s' := by
  have hmethods := h.methods_adds ha
  refine ⟨⟨ha.sound, ?_, ?_, ?_, fun l hl => ?_, fun _ _ _ heq => h.entries_adds ha heq,
    forall_mem_concat h.inner ha.inner, forall_mem_concat h.closed ha.closed, fun a => h.calls_adds ha hmethods, fun a hstart => ?_,
    forall_mem_concat (fun b' hb' hname => ?_) fun hname => ?_, forall_mem_concat h.names ?_,
    forall_mem_concat h.counts ha.count, forall_mem_concat h.parameters ?_, ha.log.orderly h.orderly, h.flawless_adds ha⟩, ha.counted, hmethods,
    forall_mem_concat (fun b' hb' => ?_) ha.declared⟩
  · simp [h.decls, ha.decl, Member.method?]
  · simp [ha.items, h.items]
  · simp [ha.debug, h.debug]
  · by_cases hlt : l < s.code.labels.size
    · rw [ha.old l hlt]
      exact h.settled l hlt
    · exact ha.new l (Nat.le_of_not_lt hlt) hl
  · rw [ha.start] at hstart
    split at hstart
    · next hname => exact ⟨b, by simp, hname, Option.some.inj hstart⟩
    · rcases h.start a hstart with ⟨b', hb', hmain⟩
      exact ⟨b', List.mem_append_left _ hb', hmain⟩
  · rw [ha.start]
    split
    · exact Option.some_ne_none _
    · exact h.started b' hb' hname
  · rw [ha.start, if_pos hname]
    exact Option.some_ne_none _
  · rw [ha.decl]
    exact ha.name
  · rw [ha.decl]
    exact ha.parameters
  · exact ha.declares _ (h.declared b' hb')

end Between

namespace Tree

open Compiler

variable {s s' : Compiler} {ms ms' : List Member} {bs : List Body} {n : Nat}

/-- What is known of the states before and after the members `ms` of a program, if the bodies before
them are `bs` and theirs are `bs'`. -/
structure Continues (bs : List Body) (s : Compiler) (ms : List Member) (bs' : List Body)
    (s' : Compiler) : Prop where
  symbols : s.table.symbols.size ≤ s'.table.symbols.size
  leads : ∀ a t, Item.Leads s'.items.toList a t → s.code.pc ≤ a ∨ Item.Leads s.items.toList a t
  clean : ∀ before d after, ms = before ++ .method d :: after →
    d.Faultless (before.forM Member.compile s).2 →
    ∃ bs₁ b bs₂, bs' = bs₁ ++ b :: bs₂ ∧ bs₁.map Body.decl = before.filterMap Member.method? ∧
      b.decl = d ∧ b.Clean (bs ++ bs') s'.items.toList

namespace Continues

variable {m : Member} {s'' : Compiler} {bs₁ bs₂ : List Body}

theorem nil : Continues bs s [] [] s :=
  ⟨le_rfl, fun _ _ => .inr, by simp⟩

theorem cons (h : Between ms bs s) (h₁ : Between (ms ++ [m]) (bs ++ bs₁) (m.compile s).2)
    (hm : Continues bs s [m] bs₁ (m.compile s).2)
    (hms : Continues (bs ++ bs₁) (m.compile s).2 ms' bs₂ s'') :
    Continues bs s (m :: ms') (bs₁ ++ bs₂) s'' := by
  refine ⟨hm.symbols.trans hms.symbols, fun a t hl => ?_, fun before d after heq hclean => ?_⟩
  · exact (hms.leads a t hl).elim (fun hle => .inl ((h.pc_le h₁.toCompiled).trans hle)) (hm.leads a t)
  rw [← List.append_assoc]
  cases before with
  | nil =>
      obtain ⟨rfl, rfl⟩ := List.cons.inj heq
      obtain ⟨bs₃, b, bs₄, rfl, hdecls, hdecl, hb⟩ := hm.clean [] d [] rfl hclean
      refine ⟨bs₃, b, bs₄ ++ bs₂, by simp, hdecls, hdecl, hb.mono (List.subset_append_left _ _) ?_⟩
      have hend := h₁.end_le (b := b) (by simp)
      exact fun a t hl => (hms.leads a t hl).imp_left hend.trans
  | cons m' before =>
      obtain ⟨rfl, rfl⟩ := List.cons.inj heq
      obtain ⟨bs₃, b, bs₄, rfl, hdecls, hdecl, hb⟩ := hms.clean before d after rfl hclean
      have hdecls₁ : bs₁.map Body.decl = [m].filterMap Member.method? :=
        h.toCompiled.decls_append h₁.toCompiled
      refine ⟨bs₁ ++ bs₃, b, bs₄, by simp, ?_, hdecl, hb⟩
      rw [List.map_append, hdecls, hdecls₁, ← List.filterMap_append, List.singleton_append]

end Continues

theorem MethodDecl.between_compile (h : Between ms bs s) (d : MethodDecl) :
    Ensures d.compile s fun _ s' => ∃ b, Continues bs s [.method d] [b] s' ∧
      Between (ms ++ [.method d]) (bs ++ [b]) s' := by
  apply (d.adds_unlogged h.sound).mono
  rintro _ s' ⟨b, log, ha, hunlogged, hfaultless⟩
  have hmethods := h.methods_adds ha
  refine ⟨b, ⟨ha.base.trans (SymbolTable.lt_of_kind ha.symbol.1).le, fun _ _ => h.leads_adds ha,
    fun before d' after heq hclean => ?_⟩, h.adds ha⟩
  cases before with
  | cons => simp at heq
  | nil =>
      cases heq
      have hclean := hfaultless hclean
      refine ⟨[], b, [], rfl, rfl, ha.decl, hunlogged.ran hmethods hclean, fun a t hl hle _ => ?_, ?_⟩
      · exact hunlogged.near hclean a t (hunlogged.entry.symm.trans_le hle) hl
      · rw [ha.decl]
        exact hunlogged.void hclean

theorem Member.between_compile (h : Between ms bs s) (m : Member) :
    Ensures m.compile s fun _ s' => ∃ bs', Continues bs s [m] bs' s' ∧
      Between (ms ++ [m]) (bs ++ bs') s' := by
  cases m with
  | method d =>
      apply (d.between_compile h).mono
      rintro _ s' ⟨b, h'⟩
      exact ⟨[b], h'⟩
  | skipped more =>
      apply (OnlyLogs.ensures (.skip _ more) (.skip _ more)).mono
      rintro _ _ ⟨⟨log, rfl⟩, hlogs⟩
      have h' := h.log rfl hlogs
      rw [← List.append_nil bs] at h'
      refine ⟨[], ⟨le_rfl, fun _ _ => .inr, fun before d after heq => ?_⟩,
        { h'.toCompiled with decls := ?_ }, h'.counted, h'.methods, h'.declared⟩
      · cases before <;> simp at heq
      · simp [h.decls, Member.method?]

/-- The methods of a program are compiled one after the other. -/
theorem between_compileMembers (h : Between ms bs s) (ms' : List Member) :
    Ensures (ms'.forM Member.compile) s fun _ s' => ∃ bs', Continues bs s ms' bs' s' ∧
      Between (ms ++ ms') (bs ++ bs') s' := by
  induction ms' generalizing ms bs s with
  | nil => exact ⟨[], .nil, by rwa [List.append_nil, List.append_nil]⟩
  | cons m ms' ih =>
      obtain ⟨bs₁, hm, h₁⟩ := m.between_compile h
      obtain ⟨bs₂, hms, h₂⟩ := ih h₁
      exact ⟨bs₁ ++ bs₂, .cons h h₁ hm hms, by rwa [List.append_cons, ← List.append_assoc]⟩

theorem sound_initial : Compiler.initial.Sound :=
  ⟨SymbolTable.closed_predeclared, rfl, Emitter.assembles_empty⟩

theorem ensures_noteGlobals (hs : s.Sound) (hn : n ≤ s.table.symbols.size) :
    Ensures noteGlobals s fun _ s' => ∃ t dataSize globals, Declared n s t ∧
      s' = { t with code := { t.code with dataSize }, debug := { t.debug with globals } } := by
  refine (Declares.variableCount hs hn).bind fun count s₁ ⟨h₁, _⟩ => ?_
  have hn₁ := hn.trans h₁.table.below.symbols
  refine (Declares.faultIf _ _ h₁.sound hn₁).bind fun _ s₂ ⟨h₂, _⟩ => ?_
  have hn₂ := hn₁.trans h₂.table.below.symbols
  refine (Declares.currentLocals h₂.sound hn₂).bind fun ids s₃ ⟨h₃, _, hids⟩ => ?_
  have hsymbols : Declares n (symbols ids) s₃ fun _ _ => True :=
    .of_safe (.symbols ids) ((Safe.symbols fun _ => hids).mono fun _ _ _ => trivial)
  refine (hsymbols h₃.sound (hn₂.trans h₃.table.below.symbols)).bind fun declared s₄ ⟨h₄, _⟩ => ?_
  exact .modify ⟨s₄, _, _, ((h₁.trans h₂).trans h₃).trans h₄, rfl⟩

theorem methodsIn_predeclared {t : SymbolTable} (h : SymbolTable.predeclared.Keeps n t) :
    t.MethodsIn [] := by
  intro id hid
  rcases h.methods id hid with ⟨hlt, hkind⟩
  have hpredeclared : ∀ id < SymbolTable.predeclared.symbols.size,
      (SymbolTable.predeclared.symbol id).kind = .method →
        id = SymbolTable.ordId ∨ id = SymbolTable.chrId ∨ id = SymbolTable.lenId := by
    decide
  rcases hpredeclared id hlt hkind with h | h | h
  · exact .inl h
  · exact .inr (.inl h)
  · exact .inr (.inr (.inl h))

theorem between_nil (hs : s.Sound) (hitems : s.items = #[]) (hdebug : s.debug.methods = #[])
    (hlabels : s.code.labels = #[]) (hentry : s.code.entry = none) (hfar : s.code.farCount = 0)
    (horderly : Event.Orderly s.log.toList) (hmethods : s.table.MethodsIn []) :
    Between [] [] s := by
  refine ⟨⟨hs, rfl, by rw [hitems]; rfl, by rw [hdebug]; rfl, by simp [hlabels], by simp, by simp,
    by simp, by simp [hitems], by simp [hentry], by simp, by simp, by simp, by simp, horderly,
    fun _ => ?_⟩,
    hfar, hmethods, by simp⟩
  refine ⟨fun a t hl => ?_, .nil, by simp, by simp, by simp, by simp⟩
  rw [hitems] at hl
  rcases hl with h | h <;> exact absurd h List.not_mem_nil

/-- What is known before the first method. -/
theorem Program.between_compileHead (p : Program) :
    Ensures p.compileHead .initial fun id s => Between [] [] s ∧
      SymbolTable.predeclared.symbols.size ≤ id ∧ id < s.table.symbols.size := by
  refine (Declares.shift sound_initial (le_refl SymbolTable.predeclared.symbols.size)).bind
    fun _ s₁ ⟨h₁, _⟩ => ?_
  refine (Declares.expect _ _ h₁.sound h₁.table.below.symbols).bind fun _ s₂ ⟨h₂, _⟩ => ?_
  have h₂ := h₁.trans h₂
  refine (Declares.expectName _ h₂.sound h₂.table.below.symbols).bind fun name s₃ ⟨h₃, _⟩ => ?_
  have h₃ := h₂.trans h₃
  refine (Declares.declare SymbolKind.noConfusion name h₃.sound.table.void_in
    SymbolKind.noConfusion h₃.sound h₃.table.below.symbols).bind fun id s₄ ⟨h₄, hid, hlt⟩ => ?_
  have h₄ := h₃.trans h₄
  refine Ensures.bind (P := fun _ s => s = { s₄ with debug := { s₄.debug with program := name } })
    rfl ?_
  rintro _ _ rfl
  apply ensures_openScope_bind
  have hs₅ : (inScope { s₄ with debug := { s₄.debug with program := name } }).Sound :=
    ⟨h₄.sound.table.openScope, h₄.sound.stray, h₄.sound.assembles⟩
  have hdeclarations : Declares SymbolTable.predeclared.symbols.size
      (p.declarations.forM Declaration.compile)
      (inScope { s₄ with debug := { s₄.debug with program := name } }) fun _ _ => True :=
    .forM (I := fun _ => True) (fun _ _ _ h => h) (fun d _ _ _ => d.declares_compile le_rfl) trivial
  refine (hdeclarations hs₅ h₄.table.below.symbols).bind fun _ s₆ ⟨h₆, _⟩ => ?_
  have hn₆ := h₄.table.below.symbols.trans h₆.table.below.symbols
  apply (ensures_noteGlobals h₆.sound hn₆).bind
  rintro _ _ ⟨s₇, dataSize, globals, h₇, rfl⟩
  have h₇ := h₆.trans h₇
  have hkeeps := h₄.table.toKeeps.trans ((SymbolTable.Keeps.openScope _).trans h₇.table.toKeeps)
  apply (OnlyLogs.ensures (.expect _ _) (.expect _ _)).bind
  rintro _ _ ⟨⟨log, rfl⟩, hlogs⟩
  refine .pure ⟨between_nil ?_ ?_ ?_ ?_ ?_ ?_ ?_ ?_, hid, hlt.trans_le h₇.table.below.symbols⟩
  · have hassembles := h₇.sound.assembles
    exact ⟨h₇.sound.table, h₇.sound.stray, ⟨hassembles.wellFormed, hassembles.placed,
      hassembles.sites, hassembles.known, hassembles.code, hassembles.clash⟩⟩
  · exact h₇.items.trans h₄.items
  · change s₇.debug.methods = _
    rw [h₇.debug]
    change s₄.debug.methods = _
    rw [h₄.debug]
    rfl
  · change s₇.code.labels = _
    rw [h₇.code]
    change s₄.code.labels = _
    rw [h₄.code]
    rfl
  · change s₇.code.entry = _
    rw [h₇.code]
    change s₄.code.entry = _
    rw [h₄.code]
    rfl
  · change s₇.code.farCount = _
    rw [h₇.code]
    change s₄.code.farCount = _
    rw [h₄.code]
    rfl
  · exact hlogs.orderly (h₇.log.orderly (h₄.log.orderly Event.orderly_nil))
  · exact methodsIn_predeclared hkeeps

/-- Without a fault some method was called `main`. -/
theorem Program.compiled_compileTail (h : Between ms bs s) (p : Program) {id : SymbolId}
    (hbase : SymbolTable.predeclared.symbols.size ≤ id) (hid : id < s.table.symbols.size) :
    Ensures (p.compileTail id) s fun _ s' =>
      Compiled ms bs s' ∧ (¬ s'.Faulty → s'.code.entry ≠ none) := by
  apply (OnlyLogs.ensures (.expect _ _) (.expect _ _)).bind
  rintro _ _ ⟨⟨log₁, rfl⟩, hlogs₁⟩
  have hs₁ : Sound { s with log := log₁ } := ⟨h.sound.table, h.sound.stray, h.sound.assembles⟩
  apply (ensures_currentLocals hs₁).bind
  rintro ids _ ⟨rfl, rfl⟩
  have hids := (hs₁.table.scopes _ List.mem_cons_self).locals
  refine (ensures_modifySymbol hs₁ hbase hid (f := fun c => { c with locals := s.table.current.locals })
    fun c hc => ⟨hc.type, hids, hc.typed⟩).bind ?_
  rintro _ _ ⟨rfl, hs₂⟩
  apply (ensures_closeScope hs₂).bind
  rintro _ _ ⟨rfl, hs₃⟩
  refine Ensures.get_bind ((ensures_faultIf _ _).bind ?_)
  rintro _ _ ⟨⟨log₄, rfl⟩, hlogs₄, hmain⟩
  apply (OnlyLogs.ensures (.expect _ _) (.expect _ _)).mono
  rintro _ _ ⟨⟨log₅, rfl⟩, hlogs₅⟩
  have hlogs : s.Logs { s with log := log₅ } :=
    ⟨(hlogs₁.isPrefix.trans hlogs₄.isPrefix).trans hlogs₅.isPrefix,
      hlogs₅.orderly ∘ hlogs₄.orderly ∘ hlogs₁.orderly⟩
  refine ⟨h.congr ⟨hs₃.table, hs₃.stray, hs₃.assembles⟩ rfl rfl rfl ⟨hlogs.isPrefix, hlogs.orderly⟩,
    fun hclean hnone => ?_⟩
  exact hclean (hlogs₅.faulty (hmain (by simpa using hnone)))

/-- What is known when a whole program was compiled. -/
theorem Program.compiled_compile (p : Program) : Ensures p.compile .initial fun _ s =>
    ∃ bs, Compiled p.members bs s ∧ (¬ s.Faulty → s.code.entry ≠ none) ∧
      ∀ before d after, p.members = before ++ .method d :: after →
        d.Faultless (p.after before.length) → ∃ bs₁ b bs₂, bs = bs₁ ++ b :: bs₂ ∧
          bs₁.map Body.decl = before.filterMap Member.method? ∧ b.decl = d ∧
          b.Clean bs s.items.toList := by
  obtain ⟨h, hbase, hid⟩ := p.between_compileHead
  obtain ⟨bs, hcontinues, h'⟩ := between_compileMembers h p.members
  obtain ⟨hcompiled, hmain⟩ :=
    Program.compiled_compileTail h' p hbase (hid.trans_le hcontinues.symbols)
  refine ⟨bs, hcompiled, hmain, fun before d after heq hclean => ?_⟩
  rw [p.after_eq heq] at hclean
  obtain ⟨bs₁, b, bs₂, hbs, hdecls, hdecl, hb⟩ := hcontinues.clean before d after heq hclean
  refine ⟨bs₁, b, bs₂, hbs, hdecls, hdecl, ?_⟩
  rw [List.nil_append, h'.items] at hb
  have hitems := hcompiled.items
  exact hitems ▸ hb

end Tree

theorem TokenSource.compiled_compiler (source : TokenSource) :
    ∃ bs, Compiled (Program.read source.tokens).members bs source.compiler ∧
      (¬ source.compiler.Faulty → source.compiler.code.entry ≠ none) := by
  rcases (Program.read source.tokens).compiled_compile with ⟨bs, h, hmain, -⟩
  exact ⟨bs, h, hmain⟩

end MicroJava
