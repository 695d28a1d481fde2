import MicroJava.Proofs.References

/-!
# Who places which label

`Since s out o s'` says what has become of the labels on the way from the state `s` to `s'`: those
that `s` had are as they were, and of those made since exactly the labels in `o` are open, which
means that they have no place yet. Jumps were written to labels made since and to those in `out`
only.

A guard leaves one label open, that for falsehood (`Since.compileGuard`). A statement leaves none
open (`Tree.Statement.closes_compile`), whatever is nested in it and wherever `break` occurs: the
label behind a loop is open while the body of the loop is compiled, but it is older than the body.
-/

namespace MicroJava

namespace Emitter

/-- Straight code neither makes nor places labels. -/
theorem labels_foldl_write {is : List Item} (h : ∀ i ∈ is, i.IsStraight) (e : Emitter) :
    (is.foldl write e).labels.size = e.labels.size ∧
      ∀ l, (is.foldl write e).address? l = e.address? l := by
  induction is generalizing e with
  | nil => exact ⟨rfl, fun _ => rfl⟩
  | cons i is ih =>
      have hi := h i List.mem_cons_self
      rcases ih (fun j hj => h j (List.mem_cons_of_mem i hj)) (e.write i) with ⟨hsize, haddress⟩
      refine ⟨hsize.trans ?_, fun l => (haddress l).trans ?_⟩
      · rw [size_labels_write, if_neg fun hlabel => by rw [hlabel] at hi; exact hi, Nat.add_zero]
      · rw [address?_write (.of_isStraight hi), if_neg fun hplace => by rw [hplace] at hi; exact hi]

/-- What every item that can be written keeps. -/
def Invariant (R : Emitter → List Item → Prop) : Prop :=
  ∀ e is i, e.Assembles is → e.Accepts i → R e is → R (e.write i) (is ++ [i])

theorem Assembles.foldl_write_of_invariant {R : Emitter → List Item → Prop} (hR : Invariant R)
    {e : Emitter} {is js : List Item} (h : e.Assembles is) (hr : R e is)
    (hj : ∀ j ∈ js, j.IsStraight) : R (js.foldl Emitter.write e) (is ++ js) := by
  induction js generalizing e is with
  | nil => simpa using hr
  | cons j js ih =>
      have hi : e.Accepts j := .of_isStraight (hj j List.mem_cons_self)
      have := ih (h.write hi) (hR e is j h hi hr) fun k hk => hj k (List.mem_cons_of_mem j hk)
      simpa using this

end Emitter

namespace Compiler

variable {α β : Type} {s s' s'' : Compiler} {out : List Label} {o : List Label}

/-- What has become of the labels on the way from `s` to `s'`. -/
structure Since (s : Compiler) (out o : List Label) (s' : Compiler) : Prop where
  sound : s'.Sound
  follows : s.Follows s'
  grows : s.code.labels.size ≤ s'.code.labels.size
  old : ∀ l, l < s.code.labels.size → s'.code.address? l = s.code.address? l
  new : ∀ l, s.code.labels.size ≤ l → l < s'.code.labels.size →
    (s'.code.address? l = none ↔ l ∈ o)
  opened : ∀ l ∈ o, s.code.labels.size ≤ l ∧ l < s'.code.labels.size
  nodup : o.Nodup
  out_lt : ∀ l ∈ out, l < s.code.labels.size
  jumps : ∃ is, s.Writes is s' ∧
    ∀ op l, Item.jump op l ∈ is → l ∈ out ∨ s.code.labels.size ≤ l
  keeps : ∀ R, Emitter.Invariant R → R s.code s.items.toList → R s'.code s'.items.toList

namespace Since

theorem near (h : Since s out o s') (n : Nat) (hn : s.code.Near n s.items.toList) :
    s'.code.Near n s'.items.toList :=
  h.keeps _ (fun _ _ _ hs hi => hs.near_write hi) hn

theorem measured (h : Since s out o s') (n : Nat) (hm : s.code.Measured n s.items.toList) :
    s'.code.Measured n s'.items.toList :=
  h.keeps _ (fun _ _ _ hs hi => hs.measured_write hi) hm

theorem refl (hs : s.Sound) (hout : ∀ l ∈ out, l < s.code.labels.size) : Since s out [] s where
  sound := hs
  follows := .refl _
  grows := le_rfl
  old := fun _ _ => rfl
  new := fun l hl hl' => absurd hl (Nat.not_le.2 hl')
  opened := by simp
  nodup := .nil
  out_lt := hout
  jumps := ⟨[], .nil rfl rfl, by simp⟩
  keeps := fun _ _ hr => hr

theorem perm (h : Since s out o s') {o' : List Label} (hp : o.Perm o') : Since s out o' s' :=
  { h with
    new := fun l hl hl' => (h.new l hl hl').trans hp.mem_iff
    opened := fun l hl => h.opened l (hp.mem_iff.2 hl)
    nodup := hp.nodup_iff.1 h.nodup }

/-- A label that a jump may lead to. -/
theorem lt_of_mem (h : Since s out o s') {l : Label} (hl : l ∈ out ∨ l ∈ o) :
    l < s'.code.labels.size := by
  rcases hl with hl | hl
  · exact (h.out_lt l hl).trans_le h.grows
  · exact (h.opened l hl).2

/-- A statement inside another one. -/
theorem append (h : Since s out o s') {out' : List Label} (h' : Since s' out' [] s'')
    (hout : ∀ l ∈ out', l ∈ out ∨ s.code.labels.size ≤ l) : Since s out o s'' where
  sound := h'.sound
  follows := h.follows.trans h'.follows
  grows := h.grows.trans h'.grows
  old := fun l hl => (h'.old l (hl.trans_le h.grows)).trans (h.old l hl)
  new := by
    intro l hl hl'
    by_cases hlt : l < s'.code.labels.size
    · rw [h'.old l hlt]
      exact h.new l hl hlt
    · rw [h'.new l (Nat.le_of_not_lt hlt) hl']
      exact ⟨fun hmem => absurd hmem List.not_mem_nil, fun hmem => absurd (h.opened l hmem).2 hlt⟩
  opened := fun l hl => ⟨(h.opened l hl).1, (h.opened l hl).2.trans_le h'.grows⟩
  nodup := h.nodup
  out_lt := h.out_lt
  jumps := by
    rcases h.jumps with ⟨is, hw, hj⟩
    rcases h'.jumps with ⟨js, hw', hj'⟩
    refine ⟨is ++ js, hw.append hw', fun op l hl => ?_⟩
    rcases List.mem_append.1 hl with hl | hl
    · exact hj op l hl
    · rcases hj' op l hl with hl | hl
      · exact hout l hl
      · exact .inr (h.grows.trans hl)
  keeps := fun R hR hr => h'.keeps R hR (h.keeps R hR hr)

/-! ### Steps -/

/-- Straight code has nothing to do with labels. -/
theorem straight (h : Since s out o s') {x : CompilerM α} {A : SymbolTable → α → Prop}
    (hx : Emits Item.IsStraight x) (hsafe : Safe x s' A) :
    Ensures x s' fun a s'' => Since s out o s'' ∧ s'.table.Extends s''.table ∧ A s''.table a := by
  have hemits : Ensures x s' fun _ s'' => Steps Item.IsStraight s' s'' := hx s'
  apply ((hsafe h.sound).and hemits).mono
  rintro a s'' ⟨⟨hs, he, ha⟩, hsteps⟩
  rcases hsteps.exists_writes with ⟨is, hw, hi⟩
  rcases Emitter.labels_foldl_write hi s'.code with ⟨hsize, haddress⟩
  rw [← hw.code] at hsize haddress
  refine ⟨?_, he.table, ha⟩
  refine ⟨hs, h.follows.trans he, h.grows.trans hsize.ge, fun l hl => (haddress l).trans (h.old l hl),
    fun l hl hl' => ?_, fun l hl => ?_, h.nodup, h.out_lt, ?_, fun R hR hr => ?_⟩
  · rw [haddress]
    exact h.new l hl (hl'.trans_eq hsize)
  · exact ⟨(h.opened l hl).1, (h.opened l hl).2.trans_eq hsize.symm⟩
  · rcases h.jumps with ⟨js, hw', hj⟩
    refine ⟨js ++ is, hw'.append hw, fun op l hl => ?_⟩
    rcases List.mem_append.1 hl with hl | hl
    · exact hj op l hl
    · exact (hi _ hl).elim
  · rw [hw.code, hw.items]
    exact h.sound.assembles.foldl_write_of_invariant hR (h.keeps R hR hr) hi

/-- Entries of the log have nothing to do with labels. -/
theorem log (h : Since s out o s') {x : CompilerM α} (hx : OnlyLogs x) :
    Ensures x s' fun _ s'' => Since s out o s'' := by
  rcases hx s' with ⟨log, hlog⟩
  unfold Ensures
  rw [hlog]
  exact ⟨⟨h.sound.table, h.sound.stray, h.sound.assembles⟩, ⟨h.follows.table, h.follows.calls⟩,
    h.grows, h.old, h.new, h.opened, h.nodup, h.out_lt,
    h.jumps.imp fun _ hw => ⟨⟨hw.1.items, hw.1.code⟩, hw.2⟩, h.keeps⟩

/-- An item other than a call is written; what it does to the open labels is left to be said. -/
theorem write (h : Since s out o s') {i : Item} (hi : s'.code.Accepts i) (hcall : ∀ a, i ≠ .call a)
    (hjump : ∀ op l, i = .jump op l → l ∈ out ∨ s.code.labels.size ≤ l)
    (hplace : ∀ l, i = .place l → s.code.labels.size ≤ l) {o' : List Label}
    (hnew : ∀ l, s.code.labels.size ≤ l → l < (s'.code.write i).labels.size →
      ((s'.code.write i).address? l = none ↔ l ∈ o'))
    (hopened : ∀ l ∈ o', s.code.labels.size ≤ l ∧ l < (s'.code.write i).labels.size)
    (hnodup : o'.Nodup) : Ensures (write i) s' fun _ s'' => Since s out o' s'' := by
  rcases Safe.write (fun _ => hi) hcall h.sound with ⟨hsound, hfollows, -⟩
  refine Ensures.modify ⟨hsound, h.follows.trans hfollows, ?_, fun l hl => ?_, hnew, hopened, hnodup,
    h.out_lt, ?_, fun R hR hr => ?_⟩
  · rw [Emitter.size_labels_write]
    exact h.grows.trans (Nat.le_add_right _ _)
  · rw [Emitter.address?_write hi, if_neg fun heq => absurd hl (Nat.not_lt.2 (hplace l heq))]
    exact h.old l hl
  · rcases h.jumps with ⟨is, hw, hj⟩
    refine ⟨is ++ [i], hw.append ⟨by simp, rfl⟩, fun op l hl => ?_⟩
    rcases List.mem_append.1 hl with hl | hl
    · exact hj op l hl
    · exact hjump op l (List.mem_singleton.1 hl).symm
  · rw [Array.toList_push]
    exact hR _ _ _ h.sound.assembles hi (h.keeps R hR hr)

/-- The beginning of a statement is marked. -/
theorem mark (h : Since s out o s') :
    Ensures (Compiler.write .statement) s' fun _ s'' => Since s out o s'' :=
  h.write (i := .statement) trivial (fun _ => Item.noConfusion) (fun _ _ => Item.noConfusion)
    (fun _ => Item.noConfusion) h.new h.opened h.nodup

theorem newLabel (h : Since s out o s') :
    Ensures newLabel s' fun l s'' => Since s out (l :: o) s'' := by
  refine Ensures.get_bind ((h.write (i := .label) trivial
    (fun _ => Item.noConfusion) (fun _ _ => Item.noConfusion) (fun _ => Item.noConfusion)
    (fun l hl hl' => ?_) (fun l hl => ?_) ?_).bind fun _ s'' h'' => .pure h'')
  · rw [Emitter.size_labels_write, if_pos rfl] at hl'
    rw [Emitter.address?_write (i := .label) trivial, if_neg Item.noConfusion, List.mem_cons, Emitter.nextLabel]
    rcases Nat.lt_succ_iff_lt_or_eq.1 hl' with hlt | rfl
    · rw [h.new l hl hlt]
      exact ⟨.inr, fun hmem => hmem.resolve_left hlt.ne⟩
    · refine ⟨fun _ => .inl rfl, fun _ => ?_⟩
      by_contra hne
      rcases Option.ne_none_iff_exists'.1 hne with ⟨a, ha⟩
      exact (Emitter.lt_of_address? ha).ne rfl
  · rw [Emitter.size_labels_write, if_pos rfl]
    rcases List.mem_cons.1 hl with rfl | hl
    · exact ⟨h.grows, Nat.lt_succ_self _⟩
    · exact ⟨(h.opened l hl).1, (h.opened l hl).2.trans (Nat.lt_succ_self _)⟩
  · exact List.nodup_cons.2 ⟨fun hmem => (h.opened _ hmem).2.ne rfl, h.nodup⟩

theorem jumpWith (h : Since s out o s') {op : Opcode} (hop : op.isJump = true) {l : Label}
    (hl : l ∈ out ∨ l ∈ o) : Ensures (jumpWith op l) s' fun _ s'' => Since s out o s'' := by
  have hlt := h.lt_of_mem hl
  have hrefer : Safe (Compiler.refer [.label l]) s' fun _ _ => True := by
    refine .refer fun _ r hr => ?_
    rw [List.mem_singleton.1 hr]
    simpa [knows] using hlt
  apply (h.straight (.refer _) hrefer).bind
  rintro _ s'' ⟨h'', -, -⟩
  have hi : s''.code.Accepts (.jump op l) := ⟨hop, h''.lt_of_mem hl⟩
  refine h''.write hi (fun _ => Item.noConfusion) ?_ (fun _ => Item.noConfusion) ?_ ?_
    h''.nodup
  · rintro op' l' heq
    obtain ⟨-, rfl⟩ := Item.jump.inj heq
    exact hl.imp_right fun hmem => (h.opened l hmem).1
  · intro l' hl' hl''
    rw [Emitter.size_labels_write, if_neg Item.noConfusion] at hl''
    rw [Emitter.address?_write hi, if_neg Item.noConfusion]
    exact h''.new l' hl' hl''
  · rw [Emitter.size_labels_write, if_neg Item.noConfusion]
    exact h''.opened

/-- An instruction that names no address has nothing to do with labels. -/
theorem instruction (h : Since s out o s') (op : Opcode) {operands : List Int}
    (hop : op.hasTarget = false) (hlen : operands.length = op.immediates.length) :
    Ensures (emit op operands) s' fun _ s'' => Since s out o s'' :=
  h.write (i := .instruction op operands) ⟨hop, hlen⟩ (fun _ => Item.noConfusion)
    (fun _ _ => Item.noConfusion) (fun _ => Item.noConfusion) h.new h.opened h.nodup

/-- The room that is left for the ways to an open label lies in the code. -/
theorem knows_site (h : Since s out o s') {l : Label} {site : Nat}
    (hsite : site ∈ (s'.code.label l).sites) : s'.knows (.byte (site + 1)) = true := by
  have hassembles := h.sound.assembles
  cases hl : s'.code.label l with
  | placed a =>
      rw [hl] at hsite
      exact absurd hsite List.not_mem_nil
  | pending sites =>
      rw [hl] at hsite
      rcases (hassembles.sites l sites hl site).1 hsite with ⟨a, op, rfl, ha⟩
      have hbound := (Item.bounds_of_mem_located ha).2
      have hop : op.isJump = true := hassembles.wellFormed _ (Item.mem_of_mem_located ha)
      have hsize : (Item.jump op l).size = 3 := by
        simp [Item.size, Opcode.size, Opcode.immediates_of_isJump hop, Immediate.totalWidth,
          Immediate.width]
      have hpc : s'.code.code.size = _ := hassembles.pc_eq
      simp only [knows, decide_eq_true_eq]
      omega

theorem place {l : Label} (h : Since s out (l :: o) s') :
    Ensures (place l) s' fun _ s'' => Since s out o s'' ∧ l < s''.code.labels.size := by
  have hrefer : Safe (Compiler.refer (.label l :: (s'.code.label l).sites.map
      fun site => .byte (site + 1))) s' fun _ _ => True := by
    refine .refer fun _ r hr => ?_
    rcases List.mem_cons.1 hr with rfl | hr
    · simpa [knows] using (h.opened l List.mem_cons_self).2
    · rcases List.mem_map.1 hr with ⟨site, hsite, rfl⟩
      exact h.knows_site hsite
  refine Ensures.get_bind ((h.straight (.refer _) hrefer).bind ?_)
  rintro _ s'' ⟨h'', -, -⟩
  rcases h''.opened l List.mem_cons_self with ⟨hge, hlt⟩
  have hi : s''.code.Accepts (.place l) := ⟨hlt, (h''.new l hge hlt).2 List.mem_cons_self⟩
  have hsize : (s''.code.write (.place l)).labels.size = s''.code.labels.size :=
    Emitter.size_labels_write _
  rcases List.nodup_cons.1 h''.nodup with ⟨hnotMem, hnodup⟩
  refine (h''.write hi (fun _ => Item.noConfusion) (fun _ _ => Item.noConfusion) ?_ ?_ ?_ hnodup).and
    (Ensures.modify (P := fun _ t => l < t.code.labels.size) (hlt.trans_eq hsize.symm))
  · intro l' heq
    obtain rfl := Item.place.inj heq
    exact hge
  · intro l' hl' hl''
    rw [Emitter.address?_write hi]
    by_cases heq : l = l'
    · subst heq
      simp [hnotMem]
    · rw [if_neg fun h => heq (Item.place.inj h), h''.new l' hl' (hl''.trans_eq hsize), List.mem_cons]
      exact ⟨fun hmem => hmem.resolve_left (Ne.symm heq), .inr⟩
  · intro l' hl'
    rw [hsize]
    exact h''.opened l' (List.mem_cons_of_mem l hl')

/-- If no label is left open, every label that was jumped to was placed. -/
theorem place_mem (hs : s.Sound) (h : Since s [] [] s') {is : List Item} (hw : s.Writes is s')
    {op : Opcode} {l : Label} (hj : .jump op l ∈ is) : .place l ∈ is := by
  rcases h.jumps with ⟨is', hw', hjumps⟩
  obtain rfl : is = is' := List.append_cancel_left (hw.items.symm.trans hw'.items)
  have hge : s.code.labels.size ≤ l := (hjumps op l hj).resolve_left List.not_mem_nil
  have hlt : l < s'.code.labels.size :=
    h.sound.assembles.known op l (hw.items ▸ List.mem_append_right _ hj)
  have hplaced : s'.code.address? l ≠ none := by
    rw [ne_eq, h.new l hge hlt]
    exact List.not_mem_nil
  rcases Option.ne_none_iff_exists'.1 hplaced with ⟨a, ha⟩
  have hmem := Item.mem_of_mem_located ((h.sound.assembles.placed l a).1 ha)
  rw [hw.items] at hmem
  refine (List.mem_append.1 hmem).resolve_left fun hold => ?_
  rcases Item.exists_mem_located 0 hold with ⟨a', ha'⟩
  exact absurd (Emitter.lt_of_address? ((hs.assembles.placed l a').2 ha')) (Nat.not_lt.2 hge)

end Since

end Compiler

namespace Tree

open Compiler

variable {s s' : Compiler} {out o : List Label}

theorem Conjunction.since_compile {f : Label} (hf : f ∈ out ∨ f ∈ o) (cs : Conjunction)
    (h : Since s out o s') : Ensures (cs.compile f) s' fun _ s'' => Since s out o s'' := by
  induction cs generalizing s' with
  | comparison c => exact (h.straight c.emits_compile (c.safe_compile s')).mono fun _ _ h => h.1
  | and cs c ih =>
      refine (ih h).bind fun r s' h => (h.jumpWith r.negation.isJump_jump hf).bind fun _ s' h => ?_
      refine (h.log .shift).bind fun _ s' h => ?_
      exact (h.straight c.emits_compile (c.safe_compile s')).mono fun _ _ h => h.1

/-- Each disjunction places the label for falsehood of what was before and opens another one. -/
theorem Condition.since_compileWith {t f : Label} (ht : t ∈ o) (cs : Condition)
    (h : Since s out (f :: o) s') :
    Ensures (cs.compileWith t f) s' fun p s'' => Since s out (p.2 :: o) s'' := by
  induction cs generalizing s' f with
  | conjunction c =>
      exact (c.since_compile (.inr List.mem_cons_self) h).bind fun _ _ h => .pure h
  | or cs c ih =>
      refine (ih h).bind fun ⟨r, f⟩ s' h => ?_
      refine (h.jumpWith r.isJump_jump (.inr (List.mem_cons_of_mem f ht))).bind fun _ s' h => ?_
      refine (h.log .shift).bind fun _ s' h => h.place.bind fun _ s' ⟨h, _⟩ => ?_
      refine h.newLabel.bind fun f s' h => ?_
      exact (c.since_compile (.inr List.mem_cons_self) h).bind fun _ _ h => .pure h

/-- After a guard its label for falsehood is open. -/
theorem since_compileGuard (opened : Bool) (condition : Condition) (closed : Bool)
    (h : Since s out o s') :
    Ensures (compileGuard opened condition closed) s' fun f s'' => Since s out (f :: o) s'' := by
  refine (h.log (.expect _ _)).bind fun _ s' h => ?_
  have hcondition : Ensures condition.compile s' fun p s'' => Since s out (p.2.2 :: p.2.1 :: o) s'' := by
    refine h.newLabel.bind fun t s' h => h.newLabel.bind fun f s' h => ?_
    exact (condition.since_compileWith List.mem_cons_self h).bind fun _ _ h => .pure h
  refine hcondition.bind fun ⟨r, t, f⟩ s' h => ?_
  refine (h.jumpWith r.negation.isJump_jump (.inr List.mem_cons_self)).bind fun _ s' h => ?_
  refine (h.perm (.swap t f o)).place.bind fun _ s' ⟨h, _⟩ => ?_
  exact (h.log (.expect _ _)).bind fun _ _ h => .pure h

mutual

/-- A statement places every label that it makes, and leaves the labels from before as they were. It
jumps to its own labels and behind the innermost loop. -/
theorem Statement.closes_compile (behindLoop : Option Label) (result : Ty) (s : Compiler)
    (hs : s.Sound) (hout : ∀ l ∈ behindLoop.toList, l < s.code.labels.size)
    (hresult : result.In s.table) :
    (st : Statement) → Ensures (st.compile behindLoop result) s
      fun _ s' => Since s behindLoop.toList [] s'
  | .action d a ended => by
      rw [Statement.compile]
      refine (Since.refl hs hout).mark.bind fun _ s' h => ?_
      refine (h.straight d.emits_compile (d.safe_compile s')).bind fun x s' ⟨h, _, hx⟩ => ?_
      exact (h.straight (a.emits_compile x) (a.safe_compile hx)).bind fun _ _ ⟨h, _⟩ =>
        h.log (.expect _ _)
  | .ifThen opened condition closed body => by
      rw [Statement.compile]
      refine (Since.refl hs hout).mark.bind fun _ s' h => (h.log .shift).bind fun _ s' h => ?_
      refine (since_compileGuard opened condition closed h).bind fun f s' h => ?_
      refine (body.closes_compile behindLoop result s' h.sound
        (fun l hl => h.lt_of_mem (.inl hl)) (hresult.mono h.follows.table.below)).bind fun _ s' hbody => ?_
      exact (h.append hbody fun l hl => .inl hl).place.mono fun _ _ h => h.1
  | .ifThenElse opened condition closed body other => by
      rw [Statement.compile]
      refine (Since.refl hs hout).mark.bind fun _ s' h => (h.log .shift).bind fun _ s' h => ?_
      refine (since_compileGuard opened condition closed h).bind fun f s' h => ?_
      refine (body.closes_compile behindLoop result s' h.sound
        (fun l hl => h.lt_of_mem (.inl hl)) (hresult.mono h.follows.table.below)).bind fun _ s' hbody => ?_
      refine ((h.append hbody fun l hl => .inl hl).log .shift).bind fun _ s' h => ?_
      refine h.newLabel.bind fun behind s' h => ?_
      refine (h.jumpWith rfl (.inr List.mem_cons_self)).bind fun _ s' h => ?_
      refine (h.perm (.swap f behind [])).place.bind fun _ s' ⟨h, _⟩ => ?_
      refine (other.closes_compile behindLoop result s' h.sound
        (fun l hl => h.lt_of_mem (.inl hl)) (hresult.mono h.follows.table.below)).bind fun _ s' hother => ?_
      exact (h.append hother fun l hl => .inl hl).place.mono fun _ _ h => h.1
  | .whileDo opened condition closed body => by
      rw [Statement.compile]
      refine (Since.refl hs hout).mark.bind fun _ s' h => (h.log .shift).bind fun _ s' h => ?_
      refine h.newLabel.bind fun top s' h => ?_
      have hge := (h.opened top List.mem_cons_self).1
      refine h.place.bind fun _ s₁ ⟨h, hlt⟩ => ?_
      -- seen from here, `top` is a label from before that the end of the loop jumps to
      have hinner : Since s₁ [top] [] s₁ := .refl h.sound (by simpa using hlt)
      refine (since_compileGuard opened condition closed hinner).bind fun f s' hinner => ?_
      have hf := hinner.opened f List.mem_cons_self
      refine (body.closes_compile (some f) result s' hinner.sound (by simpa using hf.2)
        (hresult.mono (h.follows.trans hinner.follows).table.below)).bind fun _ s' hbody => ?_
      have hinner := hinner.append hbody fun l hl => .inr (by simp_all)
      refine (hinner.jumpWith rfl (.inl List.mem_cons_self)).bind fun _ s' hinner => ?_
      refine hinner.place.mono fun _ _ ⟨hinner, _⟩ => ?_
      exact h.append hinner fun l hl => .inr (by simp_all)
  | .leave ended => by
      rw [Statement.compile]
      refine (Since.refl hs hout).mark.bind fun _ s' h => (h.log .shift).bind fun _ s' h => ?_
      have hbreak : Ensures (compileBreak behindLoop) s' fun _ s'' => Since s behindLoop.toList [] s'' := by
        cases behindLoop with
        | none => exact h.log (.fault _)
        | some l => exact h.jumpWith rfl (.inl (by simp))
      exact hbreak.bind fun _ s' h => h.log (.expect _ _)
  | .give value ended => by
      rw [Statement.compile]
      refine (Since.refl hs hout).mark.bind fun _ s' h => (h.log .shift).bind fun _ s' h => ?_
      refine (h.straight (emits_compileReturned result value)
        (safe_compileReturned (hresult.mono h.follows.table.below) value)).bind fun _ s' ⟨h, _⟩ => ?_
      refine (h.instruction .exit rfl rfl).bind fun _ s' h => ?_
      exact (h.instruction .ret rfl rfl).bind fun _ s' h => h.log (.expect _ _)
  | .read opened d closed ended => by
      rw [Statement.compile]
      refine (Since.refl hs hout).mark.bind fun _ s' h => (h.log .shift).bind fun _ s' h => ?_
      refine (h.log (.expect _ _)).bind fun _ s' h => ?_
      refine (h.straight d.emits_compile (d.safe_compile s')).bind fun x s' ⟨h, _, hx⟩ => ?_
      refine (h.straight (.requireAssignable x) (.of_onlyLogs (.requireAssignable x))).bind
        fun _ s' ⟨h, he, _⟩ => ?_
      refine (h.straight (emits_readValue x.type) (safe_readValue x.type s')).bind
        fun _ s' ⟨h, he', _⟩ => ?_
      have hvalue : (Operand.stack x.type).In s'.table := .of_type ((hx.mono he).mono he').type rfl
      refine (h.straight (.assign x _) (.assign x hvalue)).bind fun _ s' ⟨h, _⟩ => ?_
      exact (h.log (.expect _ _)).bind fun _ s' h => h.log (.expect _ _)
  | .print opened value width closed ended => by
      rw [Statement.compile]
      refine (Since.refl hs hout).mark.bind fun _ s' h => (h.log .shift).bind fun _ s' h => ?_
      refine (h.log (.expect _ _)).bind fun _ s' h => ?_
      refine (h.straight value.emits_compile (value.safe_compile s')).bind fun x s' ⟨h, _, hx⟩ => ?_
      refine (h.straight (.faultIf _ _) (.of_onlyLogs (.faultIf _ _))).bind fun _ s' ⟨h, he, _⟩ => ?_
      refine (h.straight (.load x) (.load (hx.mono he))).bind fun _ s' ⟨h, _⟩ => ?_
      refine (h.log (onlyLogs_compileWidth width)).bind fun n s' h => ?_
      refine (h.straight (.emitAll fun _ => print_isStraight n x.type)
        (.emitAll fun _ => print_isStraight n x.type)).bind fun _ s' ⟨h, _⟩ => ?_
      exact (h.log (.expect _ _)).bind fun _ s' h => h.log (.expect _ _)
  | .block statements closed => by
      rw [Statement.compile]
      refine (Since.refl hs hout).mark.bind fun _ s' h => (h.log .shift).bind fun _ s' h => ?_
      refine (closes_compileStatements behindLoop result s' h.sound
        (fun l hl => h.lt_of_mem (.inl hl)) (hresult.mono h.follows.table.below) statements).bind
        fun _ s' hinner => ?_
      exact (h.append hinner fun l hl => .inl hl).log (.expect _ _)
  | .empty => by
      rw [Statement.compile]
      exact (Since.refl hs hout).mark.bind fun _ s' h => h.log .shift
  | .missing => by
      rw [Statement.compile]
      exact (Since.refl hs hout).mark.bind fun _ s' h => h.log (.fault _)
  | .skipped more => by
      rw [Statement.compile]
      exact (Since.refl hs hout).mark.bind fun _ s' h => h.log (.skip _ more)

theorem closes_compileStatements (behindLoop : Option Label) (result : Ty) (s : Compiler)
    (hs : s.Sound) (hout : ∀ l ∈ behindLoop.toList, l < s.code.labels.size)
    (hresult : result.In s.table) :
    (ss : List Statement) → Ensures (compileStatements behindLoop result ss) s
      fun _ s' => Since s behindLoop.toList [] s'
  | [] => by
      rw [compileStatements]
      exact .pure (.refl hs hout)
  | st :: ss => by
      rw [compileStatements]
      refine (st.closes_compile behindLoop result s hs hout hresult).bind fun _ s' h => ?_
      refine (closes_compileStatements behindLoop result s' h.sound
        (fun l hl => h.lt_of_mem (.inl hl)) (hresult.mono h.follows.table.below) ss).mono fun _ _ h' => ?_
      exact h.append h' fun l hl => .inl hl

end

end Tree

end MicroJava
