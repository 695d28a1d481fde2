import MicroJava.Proofs.Allocation
import MicroJava.Proofs.Completion

/-!
# Which method a body belongs to

The bodies of a program are those that its methods add one after the other (`Tree.AddsAll`), so a
method at a place among the members has its body at the same place (`Tree.AddsAll.split`). Without a
fault the items of a body are what is written for the statements of the method in the table after its
head (`Tree.Adds.writes`).
-/

namespace MicroJava

namespace Tree

open Compiler

variable {s s' : Compiler} {ms before after : List Member} {bs : List Body} {b : Body} {d : MethodDecl}

/-- The bodies that the members of a program add one after the other. -/
inductive AddsAll : List Member → Compiler → List Body → Prop where
  | nil {s : Compiler} : AddsAll [] s []
  | method {s : Compiler} {d : MethodDecl} {b : Body} {ms : List Member} {bs : List Body}
      (h : Adds d s b (d.compile s).2) (hs : AddsAll ms (d.compile s).2 bs) :
      AddsAll (.method d :: ms) s (b :: bs)
  | skipped {s : Compiler} {more : Nat} {ms : List Member} {bs : List Body}
      (hs : AddsAll ms ((Member.skipped more).compile s).2 bs) : AddsAll (.skipped more :: ms) s bs

theorem AddsAll.split (h : AddsAll (before ++ .method d :: after) s bs) :
    ∃ bs₁ b bs₂, bs = bs₁ ++ b :: bs₂ ∧ bs₁.map Body.decl = before.filterMap Member.method? ∧
      Adds d (before.forM Member.compile s).2 b (d.compile (before.forM Member.compile s).2).2 := by
  induction before generalizing s bs with
  | nil =>
      cases h with
      | method h _ => exact ⟨[], _, _, rfl, rfl, h⟩
  | cons m before ih =>
      cases h with
      | @method _ d' b' _ bs' h hs =>
          obtain ⟨bs₁, b, bs₂, rfl, hdecls, hb⟩ := ih hs
          refine ⟨b' :: bs₁, b, bs₂, rfl, ?_, hb⟩
          rw [List.map_cons, hdecls, h.decl]
          rfl
      | skipped hs =>
          obtain ⟨bs₁, b, bs₂, rfl, hdecls, hb⟩ := ih hs
          exact ⟨bs₁, b, bs₂, rfl, hdecls, hb⟩

theorem AddsAll.exists_split (h : AddsAll ms s bs) (hb : b ∈ bs) : ∃ before d after,
    ms = before ++ .method d :: after ∧
      Adds d (before.forM Member.compile s).2 b (d.compile (before.forM Member.compile s).2).2 := by
  induction h with
  | nil => cases hb
  | @method s d b' ms bs h hs ih =>
      rcases List.mem_cons.1 hb with rfl | hb
      · exact ⟨[], d, ms, rfl, h⟩
      · obtain ⟨before, d', after, rfl, hadds⟩ := ih hb
        exact ⟨.method d :: before, d', after, rfl, hadds⟩
  | @skipped s more ms bs hs ih =>
      obtain ⟨before, d, after, rfl, hadds⟩ := ih hb
      exact ⟨.skipped more :: before, d, after, rfl, hadds⟩

/-- The members of a program add their bodies one after the other. -/
theorem exists_addsAll (h : Between ms bs s) (ms' : List Member) : ∃ bs', AddsAll ms' s bs' ∧
    Between (ms ++ ms') (bs ++ bs') (ms'.forM Member.compile s).2 := by
  induction ms' generalizing ms bs s with
  | nil => exact ⟨[], .nil, by rwa [List.append_nil, List.append_nil]⟩
  | cons m ms' ih =>
      cases m with
      | method d =>
          obtain ⟨b, hb⟩ := d.adds_compile h.sound
          obtain ⟨bs', hbs', h'⟩ := ih (h.adds hb)
          exact ⟨b :: bs', .method hb hbs', by rwa [List.append_cons, List.append_cons bs]⟩
      | skipped more =>
          obtain ⟨bs₁, -, h₁⟩ := (Member.skipped more).between_compile h
          have hdecls := h₁.decls
          rw [List.map_append, h.decls, List.filterMap_append] at hdecls
          obtain rfl : bs₁ = [] := List.map_eq_nil_iff.1 (List.append_cancel_left hdecls)
          rw [List.append_nil] at h₁
          obtain ⟨bs', hbs', h'⟩ := ih h₁
          exact ⟨bs', .skipped hbs', by rwa [List.append_cons]⟩

theorem Program.sound_after (p : Program) (n : Nat) : (p.after n).Sound := by
  obtain ⟨_, -, h⟩ := exists_addsAll p.between_compileHead.1 (p.members.take n)
  exact h.sound

theorem Program.compiled_addsAll (p : Program) : ∃ bs,
    AddsAll p.members (p.compileHead .initial).2 bs ∧ Compiled p.members bs (p.compile .initial).2 := by
  obtain ⟨h, hbase, hid⟩ := p.between_compileHead
  obtain ⟨_, hcontinues, -⟩ := between_compileMembers h p.members
  obtain ⟨bs, hbs, h'⟩ := exists_addsAll h p.members
  exact ⟨bs, hbs,
    (Program.compiled_compileTail h' p hbase (hid.trans_le hcontinues.symbols)).1⟩

/-! ### What a body is made of -/

theorem eq_of_append_endCode {is js : List Item} {result result' : Ty}
    (h : is ++ (endCode result).map Operation.item = js ++ (endCode result').map Operation.item) :
    is = js := by
  have hlast := congrArg List.getLast? h
  unfold endCode at h hlast
  split at h <;> split at h
  · exact List.append_cancel_right h
  · simp_all [Operation.item]
  · simp_all [Operation.item]
  · exact List.append_cancel_right h

/-- Without a fault the numbers and the items of a body are those of the method. -/
theorem Adds.writes (hs : s.Sound) (h : Adds d s b (d.compile s).2) (hclean : ¬ (d.compile s).2.Faulty) :
    b.method.parameterCount = d.parameters.length ∧ b.localCount = d.variableCount ∧
      ¬ (compileStatements none (d.compileHead s).1.result d.body (d.compileHead s).2).2.Faulty ∧
      (d.compileHead s).2.Writes b.items
        (compileStatements none (d.compileHead s).1.result d.body (d.compileHead s).2).2 := by
  let m := (d.compileHead s).1
  let t := (d.compileHead s).2
  let t' := (compileStatements none m.result d.body t).2
  have hsteps : Steps Item.IsInner t t' := emits_compileStatements none m.result d.body t
  obtain ⟨localCount, ht⟩ := d.headed_compileHead hs
  have hsound : t'.Sound :=
    (closes_compileStatements none m.result t ht.sound (by simp) ht.result d.body).sound
  have htail : Tailed m.result t' (d.compile s).2 := d.tailed_compileTail hsound m.result
  have hclean' : ¬ t'.Faulty := mt htail.log.faulty hclean
  obtain ⟨-, -, henter, -⟩ := (d.relates_compileHead (P := fun _ => True) (Q := fun _ _ _ => True) trivial s).2
    (mt hsteps.logs.faulty hclean')
  obtain ⟨items, hw, -⟩ := hsteps.exists_writes
  -- the items of the method are known from both sides
  have hitems : b.code = .instruction .enter [m.parameterCount, localCount] ::
      (items ++ (endCode m.result).map Operation.item) := by
    have htotal := h.items
    rw [htail.items, hw.items, ht.items, Array.toList_push, List.append_assoc, List.append_assoc] at htotal
    exact (List.append_cancel_left htotal).symm
  rw [ht.items, Array.back?_push] at henter
  obtain ⟨hcode, hrest⟩ := List.cons.inj hitems
  obtain rfl : b.items = items := eq_of_append_endCode hrest
  rw [Option.some.inj henter] at hcode
  simp only [Item.instruction.injEq, List.cons.injEq, Int.natCast_inj, and_true, true_and] at hcode
  exact ⟨hcode.1, hcode.2, hclean', hw⟩

end Tree

end MicroJava
