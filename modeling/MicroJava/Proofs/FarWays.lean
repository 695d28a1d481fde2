import MicroJava.Proofs.Acceptance
import MicroJava.Proofs.Bodies
import MicroJava.Proofs.MethodCode

/-!
# Methods that are too large

A method is too large if one of its jumps or calls is too far from where it leads to. While a method
is compiled every way is measured once, when both its ends are known, and all its ways are known when
the method ends. So the method is reported if and only if it is too large, and it is reported once
(`Tree.MethodDecl.tooLarge_compile`). No other part of a program reports a method, so with distance
zero asked for there is one diagnostic for each method that is too large
(`TokenSource.compile_measures`).
-/

namespace MicroJava

open Classical MicroJava.Tree

/-! ### Which methods are too large -/

namespace Emitter.Assembles

variable {e : Emitter} {is : List Item} {a : Nat} {t : Int}

/-- Jumps and calls stand inside the code. -/
theorem lt_of_leads (h : e.Assembles is) (hl : Item.Leads is a t) : a < e.pc := by
  by_contra hle
  cases hl with
  | @jump _ op l hj _ =>
      have := Item.bounds_of_mem_located hj
      have := Item.size_jump_pos op l
      have := h.pc_eq
      omega
  | call hc =>
      have := Item.bounds_of_mem_located hc
      have := Item.size_call_pos t
      have := h.pc_eq
      omega

end Emitter.Assembles

/-- Code without jumps and calls leads nowhere. -/
theorem Item.leads_append_operations {is : List Item} {os : List Operation} {a : Nat} {t : Int} :
    Leads (is ++ os.map Operation.item) a t ↔ Leads is a t := by
  refine ⟨fun h => ?_, fun h => h.append _⟩
  have hold {b : Nat} {i : Item} (hi : (b, i) ∈ located 0 (is ++ os.map Operation.item))
      (hplain : ∀ o : Operation, o.item ≠ i) : (b, i) ∈ located 0 is := by
    rw [located_append] at hi
    refine (List.mem_append.1 hi).resolve_right fun hmem => ?_
    obtain ⟨o, -, ho⟩ := List.mem_map.1 (mem_of_mem_located hmem)
    exact hplain o ho
  cases h with
  | jump h h' => exact .jump (hold h fun _ => Item.noConfusion) (hold h' fun _ => Item.noConfusion)
  | call h => exact .call (hold h fun _ => Item.noConfusion)

theorem Item.of_instruction?_eq_some {target : Nat → Label → Int} {a : Nat} {item : Item}
    {i : Instruction} (h : item.instruction? target a = some i) : i.pc = a ∧ 0 < item.size := by
  cases item with
  | instruction op operands | jump op _ =>
      cases h
      exact ⟨rfl, size_jump_pos op 0⟩
  | call t =>
      cases h
      exact ⟨rfl, size_call_pos t⟩
  | _ => cases h

/-- Some jump or call of a body is too far from where it leads to in a program with the items `is`. -/
def Body.IsFar (is : List Item) (b : Body) : Prop :=
  ∃ a t, b.method.entry ≤ a ∧ a < b.method.entry + Item.codeSize b.code ∧ Item.Leads is a t ∧
    Emitter.isFar (t - a) = true

/-- Some jump or call of a method is too far from where it leads to in a program with the items `is`. -/
def MethodCode.IsFar (is : List Item) (m : MethodCode) : Prop :=
  ∃ i ∈ m.code, i.op.hasTarget = true ∧ ∃ t, Item.Leads is i.pc t ∧ Emitter.isFar (t - i.pc) = true

theorem Body.isFar_congr {is is' : List Item} {b : Body} (h : ∀ a t,
    a < b.method.entry + Item.codeSize b.code → (Item.Leads is' a t ↔ Item.Leads is a t)) :
    b.IsFar is' ↔ b.IsFar is :=
  exists_congr fun a => exists_congr fun t => and_congr_right fun _ => and_congr_right fun hlt =>
    and_congr_left fun _ => h a t hlt

namespace Compiled

variable {ms : List Member} {bs : List Body} {s : Compiler} {b : Body}

/-- What stands in the code where a body does belongs to the body. -/
theorem mem_located_code (h : Compiled ms bs s) (hb : b ∈ bs) {a : Nat} {i : Item}
    (hi : (a, i) ∈ Item.located 0 s.items.toList) (hsize : 0 < i.size) (hle : b.method.entry ≤ a)
    (hlt : a < b.method.entry + Item.codeSize b.code) :
    (a, i) ∈ Item.located b.method.entry b.code := by
  obtain ⟨bs₁, bs₂, rfl⟩ := List.append_of_mem hb
  have hentry := h.entries bs₁ b bs₂ rfl
  rw [h.items, List.flatMap_append, List.flatMap_cons, Item.located_append, Item.located_append,
    Nat.zero_add, ← hentry] at hi
  rcases List.mem_append.1 hi with hi | hi
  · have := Item.bounds_of_mem_located hi
    omega
  · refine (List.mem_append.1 hi).resolve_right fun hi => ?_
    have := Item.bounds_of_mem_located hi
    omega

/-- A method is too large if its body is. -/
theorem isFar_toMethodCode (h : Compiled ms bs s) (hb : b ∈ bs) :
    (b.toMethodCode s.code.leadsTo).IsFar s.items.toList ↔ b.IsFar s.items.toList := by
  constructor
  · rintro ⟨i, hi, -, t, hl, hfar⟩
    obtain ⟨j, hj, rfl⟩ := List.mem_map.1 hi
    obtain ⟨a, item, hitem, hinstruction⟩ := Item.mem_instructions.1 hj
    obtain ⟨rfl, hsize⟩ := Item.of_instruction?_eq_some hinstruction
    have hbounds := Item.bounds_of_mem_located hitem
    exact ⟨j.pc, t, hbounds.1, by omega, hl, hfar⟩
  · rintro ⟨a, t, hle, hlt, hl, hfar⟩
    have hmethod {item : Item} {j : Instruction} (hitem : (a, item) ∈ Item.located 0 s.items.toList)
        (hj : item.instruction? s.code.leadsTo a = some j) (htarget : j.op.hasTarget = true) :
        (b.toMethodCode s.code.leadsTo).IsFar s.items.toList := by
      obtain ⟨rfl, hsize⟩ := Item.of_instruction?_eq_some hj
      have hmem := h.mem_located_code hb hitem hsize hle hlt
      exact ⟨j.readBack, List.mem_map_of_mem (Item.mem_instructions.2 ⟨_, _, hmem, hj⟩), htarget, t, hl, hfar⟩
    cases hl with
    | @jump _ op l hj _ =>
        have hop : op.isJump = true := h.sound.assembles.wellFormed _ (Item.mem_of_mem_located hj)
        exact hmethod hj rfl (by simp [Opcode.hasTarget, hop])
    | call hc => exact hmethod hc rfl rfl

end Compiled

/-- A jump or call of an earlier method leads to where it leads to in the end. -/
theorem Between.leads_forM {ms : List Member} {bs : List Body} {s : Compiler} (h : Between ms bs s)
    (ms' : List Member) {a : Nat} {t : Int} (ha : a < s.code.pc) :
    Item.Leads (ms'.forM Member.compile s).2.items.toList a t ↔ Item.Leads s.items.toList a t := by
  obtain ⟨bs', hcontinues, h'⟩ := between_compileMembers h ms'
  refine ⟨fun hl => (hcontinues.leads a t hl).resolve_left (Nat.not_le.2 ha), fun hl => ?_⟩
  rw [h'.items, List.flatMap_append, ← h.items]
  exact hl.append _

/-! ### What is reported -/

/-- How often it was reported that a method is too large. -/
def Compiler.tooLarge (s : Compiler) : Nat :=
  s.log.toList.count (.fault .methodTooLarge)

namespace Compiler

variable {α : Type} {g : Prop} {x : CompilerM α} {s : Compiler}

theorem tooLarge_append {new : List Event} {s' : Compiler} (h : s'.log.toList = s.log.toList ++ new) :
    s'.tooLarge = s.tooLarge + new.count (.fault .methodTooLarge) := by
  rw [tooLarge, h, List.count_append, tooLarge]

/-- Only the end of a method reports that it is too large. -/
theorem Notes.tooLarge_eq (hx : Notes false g x) (s : Compiler) : (x s).2.tooLarge = s.tooLarge := by
  obtain ⟨new, hnew, -, hforeign⟩ := hx.exists_log s
  rw [tooLarge_append hnew, List.count_eq_zero.2 fun hmem => ?_, Nat.add_zero]
  exact absurd (hforeign _ hmem) (by decide)

theorem tooLarge_faultIf (c : Bool) (s : Compiler) :
    (faultIf c .methodTooLarge s).2.tooLarge = s.tooLarge + if c then 1 else 0 := by
  cases c with
  | false => rfl
  | true =>
      have hlog : (fault .methodTooLarge s).2.log.toList = s.log.toList ++ [.fault .methodTooLarge] :=
        Array.toList_push
      exact tooLarge_append hlog

end Compiler

namespace Tree

open Compiler

variable {s : Compiler} {ms ms' : List Member} {bs bs' : List Body} {b : Body} {d : MethodDecl}

/-- At the end of a method it is reported if ways were counted as too far. -/
theorem MethodDecl.tooLarge_compileTail (d : MethodDecl) (result : Ty) (s : Compiler) :
    (d.compileTail result s).2.tooLarge = s.tooLarge + if s.code.farCount = 0 then 0 else 1 := by
  let measure : CompilerM Nat := do
    expect .rightBrace d.bodyClosed
    closeScope
    takeFarCount
  have hmeasure : Notes false d.bodyClosed measure :=
    (Notes.expect _ _).finish fun _ => Notes.closeScope.quietly fun _ => .takeFarCount
  have hfar : (measure s).1 = s.code.farCount := by
    change (closeScope (expect .rightBrace d.bodyClosed s).2).2.code.farCount = _
    cases d.bodyClosed <;> rfl
  have hemit : Notes false True (emitAll (endCode result)) := .emitAll _
  have hcompile : (d.compileTail result s).2 = (emitAll (endCode result)
      (faultIf ((measure s).1 ≠ 0) .methodTooLarge (measure s).2).2).2 := rfl
  rw [hcompile, hemit.tooLarge_eq, tooLarge_faultIf, hmeasure.tooLarge_eq, hfar]
  by_cases hzero : s.code.farCount = 0 <;> simp [hzero]

/-- A method is too large if a way that begins in it is too far. -/
theorem Adds.isFar_iff (hs : s.Sound) (h : Adds d s b (d.compile s).2) :
    b.IsFar (d.compile s).2.items.toList ↔
      ∃ a t, s.code.pc ≤ a ∧ Item.Leads (d.compile s).2.items.toList a t ∧
        Emitter.isFar (t - a) = true := by
  have hpc : (d.compile s).2.code.pc = b.method.entry + Item.codeSize b.code := by
    rw [h.sound.assembles.pc_eq, h.items, Item.codeSize_append, h.entry, hs.assembles.pc_eq]
  refine exists_congr fun a => exists_congr fun t => ?_
  rw [h.entry] at *
  refine and_congr_right fun _ => ⟨fun ⟨_, hl, hfar⟩ => ⟨hl, hfar⟩, fun ⟨hl, hfar⟩ => ⟨?_, hl, hfar⟩⟩
  exact (h.sound.assembles.lt_of_leads hl).trans_eq hpc

/-- A method is reported once if it is too large, and otherwise it is not. -/
theorem MethodDecl.tooLarge_compile (h : Between ms bs s) (ha : Adds d s b (d.compile s).2) :
    (d.compile s).2.tooLarge = s.tooLarge + if b.IsFar (d.compile s).2.items.toList then 1 else 0 := by
  obtain ⟨localCount, ht⟩ := d.headed_compileHead h.sound
  let m := (d.compileHead s).1
  let t := (d.compileHead s).2
  let t' := (compileStatements none m.result d.body t).2
  have hsince : Since t [] [] t' :=
    closes_compileStatements none m.result t ht.sound (by simp) ht.result d.body
  have htail : Tailed m.result t' (d.compile s).2 := d.tailed_compileTail hsince.sound m.result
  -- nothing was counted before the method, and its jumps are all there are to labels without a place
  have hmeasured : t.code.Measured s.code.pc t.items.toList := by
    have hassembles := h.sound.assembles.setEntry (if m.name = mainName then some m.entry else s.code.entry)
    rw [ht.code, ht.items, Array.toList_push]
    exact hassembles.measured_write (i := .instruction .enter _) ⟨rfl, rfl⟩
      (hassembles.measured_pc h.settled h.counted)
  have hnear : t.code.Near s.code.pc t.items.toList := by
    have hassembles := h.sound.assembles.setEntry (if m.name = mainName then some m.entry else s.code.entry)
    rw [ht.code, ht.items, Array.toList_push]
    exact hassembles.near_write (i := .instruction .enter _) ⟨rfl, rfl⟩ hassembles.near_pc
  have hfar : b.IsFar (d.compile s).2.items.toList ↔ t'.code.farCount ≠ 0 := by
    rw [ha.isFar_iff h.sound, htail.items]
    simp only [Item.leads_append_operations]
    refine ⟨fun ⟨a, k, hle, hl, hfar⟩ hzero => ?_, (hsince.measured _ hmeasured).far⟩
    exact Bool.eq_false_iff.1 (hsince.near _ hnear hzero a k hle hl) hfar
  have hhead : Notes false _ (d.compileHead >>= fun m => compileStatements none m.result d.body) :=
    d.notes_compileHead.bind fun m => notes_compileStatements none m.result d.body
  have hcompile : (d.compile s).2 = (d.compileTail m.result t').2 := rfl
  have hbefore : t'.tooLarge = s.tooLarge := hhead.tooLarge_eq s
  rw [hfar, hcompile, d.tooLarge_compileTail, hbefore]
  by_cases hzero : t'.code.farCount = 0 <;> simp [hzero]

/-- Of the methods of a program those are reported that are too large. -/
theorem AddsAll.tooLarge_eq (hs : AddsAll ms' s bs') (h : Between ms bs s) :
    (ms'.forM Member.compile s).2.tooLarge = s.tooLarge +
      bs'.countP fun b => b.IsFar (ms'.forM Member.compile s).2.items.toList := by
  induction hs generalizing ms bs with
  | nil => rfl
  | @method s d b ms' bs' ha hs ih =>
      have h' := h.adds ha
      have hfar : b.IsFar (ms'.forM Member.compile (d.compile s).2).2.items.toList ↔
          b.IsFar (d.compile s).2.items.toList :=
        Body.isFar_congr fun a t hlt => h'.leads_forM ms' (hlt.trans_le (h'.end_le (by simp)))
      change (ms'.forM Member.compile (d.compile s).2).2.tooLarge = s.tooLarge + List.countP
        (fun b => decide (b.IsFar (ms'.forM Member.compile (d.compile s).2).2.items.toList)) (b :: bs')
      rw [ih h', d.tooLarge_compile h ha, List.countP_cons]
      simp only [decide_eq_true_eq, hfar]
      omega
  | @skipped s more ms' bs' hs ih =>
      have hskip : Notes false False (Member.skipped more).compile := .skip rfl rfl more
      obtain ⟨_, -, h'⟩ := (Member.skipped more).between_compile h
      rw [hskip.tooLarge_eq s] at ih
      exact ih h'

/-- What is logged while a method is compiled in the state `s`. -/
def MethodDecl.events (d : MethodDecl) (s : Compiler) : List Event :=
  (d.compile s).2.log.toList.drop s.log.size

/-- What is logged for a method stands behind what was logged before it. -/
theorem MethodDecl.log_compile (d : MethodDecl) (s : Compiler) :
    (d.compile s).2.log.toList = s.log.toList ++ d.events s := by
  obtain ⟨new, hnew, -⟩ := d.notes_compile.exists_log s
  rw [events, hnew, List.drop_left' Array.length_toList]

/-- What is known of the bodies of a program and of the reports that they are too large. -/
theorem Program.tooLarge_compile (p : Program) : ∃ bs, Compiled p.members bs (p.compile .initial).2 ∧
    (p.compile .initial).2.tooLarge =
      bs.countP (fun b => b.IsFar (p.compile .initial).2.items.toList) ∧
    ∀ before d after, p.members = before ++ .method d :: after → ∃ bs₁ b bs₂, bs = bs₁ ++ b :: bs₂ ∧
      bs₁.map Body.decl = before.filterMap Member.method? ∧ b.decl = d ∧
      (d.events (p.after before.length)).count (.fault .methodTooLarge) =
        if b.IsFar (p.compile .initial).2.items.toList then 1 else 0 := by
  obtain ⟨h, hbase, hid⟩ := p.between_compileHead
  obtain ⟨_, hcontinues, -⟩ := between_compileMembers h p.members
  obtain ⟨bs, hbs, h'⟩ := exists_addsAll h p.members
  have hcompiled : Compiled p.members bs (p.compile .initial).2 :=
    (Program.compiled_compileTail h' p hbase (hid.trans_le hcontinues.symbols)).1
  have hitems : (p.compile .initial).2.items.toList =
      (p.members.forM Member.compile (p.compileHead .initial).2).2.items.toList :=
    hcompiled.items.trans h'.items.symm
  have htail : (p.compile .initial).2.tooLarge =
      (p.members.forM Member.compile (p.compileHead .initial).2).2.tooLarge :=
    (p.notes_compileTail _).tooLarge_eq _
  have hhead : (p.compileHead .initial).2.tooLarge = 0 := p.notes_compileHead.tooLarge_eq .initial
  refine ⟨bs, hcompiled, ?_, fun before d after heq => ?_⟩
  · rw [htail, hitems, hbs.tooLarge_eq h, hhead, Nat.zero_add]
  · obtain ⟨bs₁, b, bs₂, hsplit, hdecls, hadds⟩ := (heq ▸ hbs).split
    refine ⟨bs₁, b, bs₂, hsplit, hdecls, hadds.decl, ?_⟩
    rw [← p.after_eq heq] at hadds
    obtain ⟨_, -, hbetween⟩ := exists_addsAll h before
    rw [← p.after_eq heq] at hbetween
    have hreports := d.tooLarge_compile hbetween hadds
    rw [tooLarge_append (d.log_compile _)] at hreports
    have hfar : b.IsFar (p.compile .initial).2.items.toList ↔
        b.IsFar (d.compile (p.after before.length)).2.items.toList := by
      have hrest : (p.members.forM Member.compile (p.compileHead .initial).2).2 =
          (after.forM Member.compile (d.compile (p.after before.length)).2).2 := by
        rw [p.after_eq heq, heq, List.forM_eq_forM, List.forM_append]
        rfl
      have hadded := hbetween.adds hadds
      rw [hitems, hrest]
      exact Body.isFar_congr fun a t hlt =>
        hadded.leads_forM after (hlt.trans_le (hadded.end_le (by simp)))
    rw [Nat.add_left_cancel hreports]
    simp only [hfar]

end Tree

theorem Event.count_filterMap_fault? (log : List Event) (m : Message) :
    (log.filterMap fault?).count m = log.count (.fault m) := by
  rw [List.count_filterMap, List.count]
  refine List.countP_congr fun e _ => ?_
  cases e <;> simp [fault?]

namespace TokenSource

/-- With distance zero asked for, the messages shown are the faults of the log. -/
theorem messages_ofTokens (ts : List Token) :
    ((ofTokens ts).diagnostics 0 (ofTokens ts).compiler.log).toList.map Diagnostic.message =
      (ofTokens ts).compiler.log.toList.filterMap Event.fault? :=
  Reporter.messages_replay rfl (by simp [ofTokens])

/-- A list of tokens is compiled to the code of its methods, and with distance zero asked for there is
one diagnostic for each method with a jump or call that is too far from where it leads to, logged while
this method is compiled, and none for any other method. Without diagnostics no way is too far. -/
theorem compile_measures (ts : List Token) : ∃ c, (ofTokens ts).compile 0 = .ok c ∧
    ∃ ms : List MethodCode,
      ms.map MethodCode.decl =
        (Program.read (ofTokens ts).tokens).members.filterMap Member.method? ∧
      ms.map MethodCode.info = c.debug.methods.toList ∧
      Instruction.decode c.image.code.toList = .ok (ms.flatMap MethodCode.code).toArray ∧
      (c.image.code.size < 2 ^ 31 →
        ∀ m ∈ ms, m.Delimited ∧ m.Leading (ofTokens ts).compiler.items.toList ms) ∧
      c.diagnostics.toList.countP (fun d => d.message = .methodTooLarge) =
        ms.countP (fun m => m.IsFar (ofTokens ts).compiler.items.toList) ∧
      (∀ before d after,
        (Program.read (ofTokens ts).tokens).members = before ++ .method d :: after →
          ∃ ms₁ m ms₂, ms = ms₁ ++ m :: ms₂ ∧
            ms₁.map MethodCode.decl = before.filterMap Member.method? ∧ m.decl = d ∧
            (d.events ((Program.read (ofTokens ts).tokens).after before.length)).count
              (.fault .methodTooLarge) =
                if m.IsFar (ofTokens ts).compiler.items.toList then 1 else 0) ∧
      (c.diagnostics = #[] → ∀ a t, Item.Leads (ofTokens ts).compiler.items.toList a t →
        Emitter.isFar (t - a) = false) := by
  obtain ⟨bs, h, hcount, hmethods⟩ := (Program.read (ofTokens ts).tokens).tooLarge_compile
  have h : Compiled _ bs (ofTokens ts).compiler := h
  let target := (ofTokens ts).compiler.code.leadsTo
  refine ⟨_, compile_eq_ok _ 0, bs.map (Body.toMethodCode target), ?_, ?_, h.decode_code,
    fun hsize m hm => ?_, ?_, fun before d after heq => ?_,
    fun hnone => (h.flawless (not_faulty h.orderly hnone)).near⟩
  · rw [Body.map_decl_toMethodCode, h.decls]
  · rw [Body.map_info_toMethodCode, ← h.debug]
  · obtain ⟨b, hb, rfl⟩ := List.mem_map.1 hm
    have hentry := (h.entry_lt hb).trans (hsize.trans (by decide : 2 ^ 31 < 2 ^ 32))
    exact ⟨Body.delimited hentry, h.leading hsize hb⟩
  · have hshown : ((ofTokens ts).diagnostics 0 (ofTokens ts).compiler.log).toList.countP
        (fun d => d.message = .methodTooLarge) = (ofTokens ts).compiler.tooLarge := by
      rw [Compiler.tooLarge, ← Event.count_filterMap_fault?, ← messages_ofTokens, List.count,
        List.countP_map]
      exact List.countP_congr fun d _ => by simp
    refine hshown.trans (hcount.trans ?_)
    rw [List.countP_map]
    refine List.countP_congr fun b hb => ?_
    rw [Function.comp_apply, decide_eq_true_eq, decide_eq_true_eq]
    exact (h.isFar_toMethodCode hb).symm
  · obtain ⟨bs₁, b, bs₂, rfl, hdecls, hdecl, hreports⟩ := hmethods before d after heq
    refine ⟨bs₁.map (Body.toMethodCode target), b.toMethodCode target,
      bs₂.map (Body.toMethodCode target), by simp, ?_, hdecl, ?_⟩
    · rw [Body.map_decl_toMethodCode, hdecls]
    · rw [hreports]
      simp only [target, h.isFar_toMethodCode (b := b) (by simp)]
      rfl

end TokenSource

end MicroJava
