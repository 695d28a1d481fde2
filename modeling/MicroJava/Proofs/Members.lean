import MicroJava.Proofs.Methods

/-!
# What the methods of a program add to each other

A compiled method is a `Body`: its tree, its signature, the number of its variables and the items of
its statements. `Adds s b s'` says what is known of the states before and after a method, and
`Compiled ms bs s` what is known of a state after the methods `ms`. Each method adds one body, and
the code is that of the bodies one after the other.
-/

namespace MicroJava

/-- The item for an operation that names no address. -/
def Operation.item (o : Operation) : Item := .instruction o.1 o.2

/-- A compiled method. -/
structure Body where
  decl : Tree.MethodDecl
  method : Tree.Signature
  localCount : Nat
  items : List Item

namespace Body

/-- The items of a method, from its first instruction to its last one. -/
def code (b : Body) : List Item :=
  .instruction .enter [b.method.parameterCount, b.localCount] ::
    (b.items ++ (Tree.endCode b.method.result).map Operation.item)

/-- The debug information about a method. -/
def info (b : Body) : MethodInfo := b.method.info b.localCount

theorem codeSize_code_pos (b : Body) : 0 < Item.codeSize b.code := by
  change 0 < Opcode.enter.size + _
  exact Nat.add_pos_left (by decide) _

end Body

namespace Emitter

variable {e : Emitter}

/-- Writing code does not change where execution begins. -/
theorem entry_write (i : Item) : (e.write i).entry = e.entry := by
  have hway : ∀ (e : Emitter) (way : Int), (e.noteWay way).entry = e.entry := by
    intro e way
    unfold noteWay
    split <;> rfl
  cases i with
  | jump op l =>
      change (e.jump op l).entry = _
      unfold jump
      split
      · exact hway e _
      · rfl
  | place l =>
      change (e.place l).entry = _
      unfold place
      split
      · next sites _ =>
          have hfold : ∀ (sites : List Nat) (e' : Emitter),
              (sites.foldl (resolve e.pc) e').entry = e'.entry := by
            intro sites
            induction sites with
            | nil => exact fun _ => rfl
            | cons site sites ih => exact fun e' => (ih _).trans (hway e' _)
          exact hfold sites _
      · rfl
  | call address => exact hway e _
  | _ => rfl

theorem entry_foldl_write (is : List Item) : (is.foldl write e).entry = e.entry := by
  induction is generalizing e with
  | nil => rfl
  | cons i is ih => rw [List.foldl_cons, ih, entry_write]

/-- Code that names no address. -/
theorem labels_foldl_item (os : List Operation) :
    ((os.map Operation.item).foldl write e).labels = e.labels ∧
      ((os.map Operation.item).foldl write e).farCount = e.farCount := by
  induction os generalizing e with
  | nil => exact ⟨rfl, rfl⟩
  | cons o os ih => exact ih

theorem Assembles.foldl_write {is js : List Item} (h : e.Assembles is)
    (hj : ∀ j ∈ js, ∀ e : Emitter, e.Accepts j) :
    (js.foldl Emitter.write e).Assembles (is ++ js) := by
  induction js generalizing e is with
  | nil => simpa using h
  | cons j js ih =>
      have hwrite := h.write (hj j List.mem_cons_self e)
      simpa using ih hwrite fun k hk => hj k (List.mem_cons_of_mem j hk)

theorem Assembles.resetFarCount {is : List Item} (h : e.Assembles is) :
    e.resetFarCount.Assembles is :=
  ⟨h.wellFormed, h.placed, h.sites, h.known, h.code, h.clash⟩

theorem Assembles.setEntry {is : List Item} (h : e.Assembles is) (entry : Option Nat) :
    Assembles { e with entry } is :=
  ⟨h.wellFormed, h.placed, h.sites, h.known, h.code, h.clash⟩

theorem Assembles.near_foldl_item {is : List Item} {n : Nat} (h : e.Assembles is)
    (hn : e.Near n is) {os : List Operation}
    (hj : ∀ j ∈ os.map Operation.item, ∀ e : Emitter, e.Accepts j) :
    ((os.map Operation.item).foldl Emitter.write e).Near n (is ++ os.map Operation.item) := by
  induction os generalizing e is with
  | nil => simpa using hn
  | cons o os ih =>
      have hi := hj _ (List.mem_cons_self ..) e
      have := ih (h.write hi) (h.near_write hi hn) fun j hm => hj j (List.mem_cons_of_mem _ hm)
      simpa using this

end Emitter

namespace Compiler

variable {s s' : Compiler}

theorem ensures_emitAll (os : List Operation) :
    Ensures (emitAll os) s fun _ s' =>
      (∃ code items, s' = { s with code, items }) ∧ s.Writes (os.map Operation.item) s' := by
  induction os generalizing s with
  | nil => exact ⟨⟨s.code, s.items, rfl⟩, .nil rfl rfl⟩
  | cons o os ih =>
      have hwrite : Ensures (emit o.1 o.2) s fun _ s' =>
          (∃ code items, s' = { s with code, items }) ∧ s.Writes [Operation.item o] s' :=
        ⟨⟨_, _, rfl⟩, ⟨by change (s.items.push _).toList = _; simp [Operation.item], rfl⟩⟩
      apply hwrite.bind
      rintro _ _ ⟨⟨code, items, rfl⟩, hw⟩
      apply ih.mono
      rintro _ _ ⟨⟨code', items', rfl⟩, hw'⟩
      exact ⟨⟨code', items', rfl⟩, hw.append hw'⟩

end Compiler

namespace Tree

open Compiler

variable {s s' : Compiler} {d : MethodDecl} {b : Body}

theorem wellFormed_endCode (result : Ty) :
    ∀ i ∈ (endCode result).map Operation.item, ∀ e : Emitter, e.Accepts i := by
  intro i hi e
  rw [endCode] at hi
  split at hi
  · simp only [List.map_cons, List.map_nil, List.mem_cons, List.not_mem_nil, or_false] at hi
    rcases hi with rfl | rfl <;> exact ⟨rfl, rfl⟩
  · rw [List.mem_singleton.1 hi]
    exact ⟨rfl, rfl⟩

/-- What is known of the states before and after the end of a method. -/
structure Tailed (result : Ty) (s s' : Compiler) : Prop where
  sound : s'.Sound
  table : s'.table = s.table.closeScope
  debug : s'.debug = s.debug
  log : s.Logs s'
  items : s'.items.toList = s.items.toList ++ (endCode result).map Operation.item
  code : s'.code =
    ((endCode result).map Operation.item).foldl Emitter.write s.code.resetFarCount
  near : ¬ s'.Faulty → s.code.farCount = 0

theorem MethodDecl.tailed_compileTail (hs : s.Sound) (d : MethodDecl) (result : Ty) :
    Ensures (d.compileTail result) s fun _ s' => Tailed result s s' := by
  apply (OnlyLogs.ensures (.expect _ _) (.expect _ _)).bind
  rintro _ _ ⟨⟨log₁, rfl⟩, hlogs₁⟩
  have hs₁ : Sound { s with log := log₁ } := ⟨hs.table, hs.stray, hs.assembles⟩
  apply (ensures_closeScope hs₁).bind
  rintro _ _ ⟨rfl, hs₂⟩
  apply Ensures.bind (P := fun far s₃ => far = s.code.farCount ∧ s₃ = { s with
    log := log₁, table := s.table.closeScope, code := s.code.resetFarCount }) ⟨rfl, rfl⟩
  rintro _ _ ⟨rfl, rfl⟩
  apply (ensures_faultIf _ _).bind
  rintro _ _ ⟨⟨log₄, rfl⟩, hlogs₄, hfar⟩
  apply (ensures_emitAll _).mono
  rintro _ _ ⟨⟨code, items, rfl⟩, hw⟩
  refine ⟨⟨hs₂.table, hs₂.stray, ?_⟩, rfl, rfl, ?_, hw.items, hw.code, fun hclean => ?_⟩
  · have hassembles := hs.assembles.resetFarCount.foldl_write (wellFormed_endCode result)
    rw [← hw.code, ← hw.items] at hassembles
    exact hassembles
  · exact ⟨hlogs₁.isPrefix.trans hlogs₄.isPrefix, hlogs₄.orderly ∘ hlogs₁.orderly⟩
  · by_contra hne
    exact hclean (hfar (by simpa using hne))

/-- What is known of the states before and after a method. -/
structure Adds (d : MethodDecl) (s : Compiler) (b : Body) (s' : Compiler) : Prop where
  decl : b.decl = d
  sound : s'.Sound
  items : s'.items.toList = s.items.toList ++ b.code
  debug : s'.debug = { s.debug with methods := s.debug.methods.push b.info }
  log : s.Logs s'
  name : b.method.name = d.name.getD ""
  entry : b.method.entry = s.code.pc
  start : s'.code.entry =
    if b.method.name = mainName then some b.method.entry else s.code.entry
  old : ∀ l, l < s.code.labels.size → s'.code.address? l = s.code.address? l
  new : ∀ l, s.code.labels.size ≤ l → l < s'.code.labels.size → s'.code.address? l ≠ none
  inner : ∀ i ∈ b.items, i.IsInner
  closed : ∀ op l, .jump op l ∈ b.items → .place l ∈ b.items
  calls : ∀ a, .call a ∈ b.items → .call a ∈ s.items.toList ∨ s'.table.HasEntry a
  symbol : (s'.table.symbol b.method.id).kind = .method ∧
    (s'.table.symbol b.method.id).type = b.method.result ∧
    (s'.table.symbol b.method.id).address = b.method.entry ∧
    (s'.table.symbol b.method.id).parameters.size = b.method.parameterCount
  base : s.table.symbols.size ≤ b.method.id
  same : ∀ id < s.table.symbols.size, s'.table.symbol id = s.table.symbol id
  methods : ∀ id, (s'.table.symbol id).kind = .method →
    id = b.method.id ∨ id < s.table.symbols.size
  declared : s'.table.current.declares b.method.name = true
  declares : ∀ name, s.table.current.declares name = true → s'.table.current.declares name = true
  counted : s'.code.farCount = 0
  near : ¬ s'.Faulty → ∀ a t, s.code.pc ≤ a → Item.Leads s'.items.toList a t →
    Emitter.isFar (t - a) = false
  fresh : ¬ s'.Faulty → s.table.current.declares b.method.name = false
  void : ¬ s'.Faulty → (b.method.result = .void ↔ d.type = none)
  main : ¬ s'.Faulty → b.method.name = mainName →
    b.method.result = .void ∧ b.method.parameterCount = 0
  count : b.method.parameterCount ≤ b.localCount
  parameters : b.method.parameterCount = 0 → d.parameters = []
  small : ¬ s'.Faulty → b.localCount ≤ maxLocals
  run : ∃ t : Compiler, t.Sound ∧ b.method.result.In t.table ∧
    Item.codeSize t.items.toList = b.method.entry + Opcode.enter.size ∧
    (∀ id, t.table.symbol id = s'.table.symbol id) ∧
    t.Writes b.items (compileStatements none b.method.result d.body t).2 ∧
    ((compileStatements none b.method.result d.body t).2.Faulty → s'.Faulty)

theorem MethodDecl.adds_compile (hs : s.Sound) (d : MethodDecl) :
    Ensures d.compile s fun _ s' => ∃ b, Adds d s b s' := by
  apply (d.headed_compileHead hs).bind
  rintro m t ⟨localCount, ht⟩
  have hemits : Ensures (compileStatements none m.result d.body) t fun _ t' =>
      t' = (compileStatements none m.result d.body t).2 ∧ Steps Item.IsInner t t' :=
    ⟨rfl, emits_compileStatements none m.result d.body t⟩
  have hcloses := closes_compileStatements none m.result t ht.sound (by simp) ht.result d.body
  apply (hcloses.and hemits).bind
  rintro _ t' ⟨hsince, ht', hsteps⟩
  rcases hsteps.exists_writes with ⟨items, hw, hinner⟩
  apply (d.tailed_compileTail hsince.sound m.result).mono
  rintro _ s' htail
  rcases ht.outer with ⟨c, hc, hname, hdeclares⟩
  have htable : s'.table = { t'.table with current := c, outer := s.table.outer } := by
    rw [htail.table, SymbolTable.closeScope, hsince.follows.table.outer, hc]
  have hsymbol : ∀ id, t.table.symbol id = s'.table.symbol id := by
    intro id
    rw [htable, ← hsince.follows.table.symbol]
    rfl
  have hlabels : t.code.labels = s.code.labels := by
    rw [ht.code]
    rfl
  have haddress : ∀ l, t.code.address? l = s.code.address? l :=
    fun l => congrArg LabelState.address? (Emitter.label_congr hlabels l)
  obtain ⟨hlabels', hfar⟩ := Emitter.labels_foldl_item (e := t'.code.resetFarCount) (endCode m.result)
  rw [← htail.code] at hlabels' hfar
  have haddress' : ∀ l, s'.code.address? l = t'.code.address? l :=
    fun l => congrArg LabelState.address? (Emitter.label_congr hlabels' l)
  have hclean : ¬ s'.Faulty → ¬ t.Faulty :=
    fun h hfaulty => h (htail.log.faulty (hsteps.logs.faulty hfaulty))
  let b : Body := ⟨d, m, localCount, items⟩
  have hitems : s'.items.toList = s.items.toList ++ b.code := by
    rw [htail.items, hw.items, ht.items, Array.toList_push, List.append_assoc, List.append_assoc]
    rfl
  refine ⟨b, rfl, htail.sound, hitems, ?_, (ht.log.trans hsteps.logs).trans htail.log, ht.name, ht.entry,
    ?_, fun l hl => ?_, fun l hl hl' => ?_, hinner, fun op l hl => ?_, fun a ha => ?_, ?_, ht.base, ?_,
    ?_, ?_, ?_, hfar, fun h => ?_, fun h => ht.fresh (hclean h), fun h => ht.void (hclean h),
    fun h => ht.main (hclean h), ht.count, ht.parameters, fun h => ht.small (hclean h),
    ⟨t, ht.sound, ht.result, ?_, hsymbol, ?_, ?_⟩⟩
  · rw [htail.debug, hsteps.debug, ht.debug]
    rfl
  · rw [htail.code, Emitter.entry_foldl_write]
    change t'.code.entry = _
    rw [hw.code, Emitter.entry_foldl_write, ht.code]
    rfl
  · rw [haddress', hsince.old l (hl.trans_eq (congrArg Array.size hlabels.symm)), haddress]
  · rw [haddress', ne_eq, hsince.new l (by rwa [hlabels]) (by rwa [hlabels'] at hl')]
    exact List.not_mem_nil
  · exact hsince.place_mem ht.sound hw hl
  · have ha' : .call a ∈ t'.items.toList := hw.items ▸ List.mem_append_right _ ha
    refine (hsince.follows.calls a ha').imp (fun h => ?_) fun h => h.imp fun id hid => ?_
    · rw [ht.items, Array.toList_push, List.mem_append, List.mem_singleton] at h
      exact h.resolve_right Item.noConfusion
    · rwa [← hsymbol, ← hsince.follows.table.symbol]
  · simp only [← hsymbol]
    exact ht.symbol
  · intro id hid
    rw [← hsymbol, ht.old id hid]
  · intro id hid
    rw [← hsymbol] at hid
    exact ht.methods id hid
  · rw [htable]
    exact hname
  · rw [htable]
    exact hdeclares
  · have hzero := htail.near h
    have henter : t.code.Near s.code.pc t.items.toList := by
      have hassembles := hs.assembles.setEntry (if m.name = mainName then some m.entry else s.code.entry)
      rw [ht.code, ht.items, Array.toList_push]
      exact hassembles.near_write (i := .instruction .enter _) ⟨rfl, rfl⟩ hassembles.near_pc
    have hnear : t'.code.resetFarCount.Near s.code.pc t'.items.toList :=
      fun _ => hsince.near s.code.pc henter hzero
    have hend := hsince.sound.assembles.resetFarCount.near_foldl_item hnear
      (wellFormed_endCode m.result)
    rw [← htail.code, ← htail.items] at hend
    exact hend hfar
  · rw [ht.items, Array.toList_push, Item.codeSize_append, ht.entry, hs.assembles.pc_eq]
    rfl
  · rwa [← ht']
  · rw [← ht']
    exact htail.log.faulty

end Tree

end MicroJava
