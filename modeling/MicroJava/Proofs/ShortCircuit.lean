import MicroJava.Proofs.Clauses
import MicroJava.Proofs.Programs

/-!
# Guards evaluate their conditions as far as they have to be

`Lays known s is s'` says that on the way from the state `s` to `s'` the items `is` were written
and that the symbols in `known` are still those that are known. A comparison lays one evaluation, a
conjunction a clause and a condition a row of them, so the items of a guard are known
(`Tree.lays_compileGuard`) and its code can be run (`Emitter.Settled.shortCircuits`).
-/

namespace MicroJava

open Compiler

namespace Clause

variable {x : Clause} {y : Evaluation} {known : SymbolTable} {a : Nat}

/-- The conjunction with one comparison more. -/
def and (x : Clause) (y : Evaluation) : Clause :=
  { x with init := x.tests x.last.comparison.asked.negation.jump x.label, last := y }

theorem comparisons_and : (x.and y).comparisons = x.comparisons ++ [y.comparison] := by
  rw [comparisons, and, map_tests]

theorem pending_and : (x.and y).pending =
    x.pending ++ [.jump x.last.comparison.asked.negation.jump x.label] ++ y.items := by
  rw [pending, and, flatMap_tests]

theorem Fits.and (h : x.Fits known a) (hy : y.Written known) (hstart : y.start = a + Item.codeSize
    (x.pending ++ [.jump x.last.comparison.asked.negation.jump x.label])) : (x.and y).Fits known a where
  follow := h.follow_tests
  start := by
    change y.start = a + Item.codeSize ((x.tests _ _).flatMap Test.whole)
    rw [flatMap_tests, hstart]
  init := by
    intro z hz
    rcases List.mem_append.1 hz with hz | hz
    · exact h.init z hz
    · rw [List.mem_singleton.1 hz]
      exact ⟨h.last, rfl, rfl⟩
  last := hy

end Clause

namespace Compiler

/-- The items were written, and the symbols are the known ones. -/
structure Lays (known : SymbolTable) (s : Compiler) (is : List Item) (s' : Compiler) : Prop where
  writes : s.Writes is s'
  known : known.Extends s'.table

namespace Lays

variable {α : Type} {known : SymbolTable} {s s' : Compiler} {is : List Item}

theorem refl (s : Compiler) : Lays s.table s [] s := ⟨.nil rfl rfl, .refl _⟩

theorem offset (h : Lays known s is s') : s'.offset = s.offset + Item.codeSize is := h.writes.offset

theorem log (h : Lays known s is s') {x : CompilerM α} (hx : OnlyLogs x) :
    Ensures x s' fun _ s'' => Lays known s is s'' ∧ s''.code = s'.code := by
  obtain ⟨log, hlog⟩ := hx s'
  unfold Ensures
  rw [hlog]
  exact ⟨⟨⟨h.writes.items, h.writes.code⟩, h.known⟩, rfl⟩

theorem write (h : Lays known s is s') (i : Item) :
    Ensures (write i) s' fun _ s'' => Lays known s (is ++ [i]) s'' :=
  .modify ⟨h.writes.append ⟨Array.toList_push, rfl⟩, h.known⟩

theorem newLabel (h : Lays known s is s') :
    Ensures newLabel s' fun l s'' => l = s'.code.nextLabel ∧ Lays known s (is ++ [.label]) s'' :=
  .get_bind ((h.write .label).bind fun _ _ h => .pure ⟨rfl, h⟩)

theorem refer (h : Lays known s is s') (rs : List Reference) :
    Ensures (refer rs) s' fun _ s'' => Lays known s is s'' :=
  .modify ⟨⟨h.writes.items, h.writes.code⟩, h.known⟩

theorem jumpWith (h : Lays known s is s') (op : Opcode) (l : Label) :
    Ensures (jumpWith op l) s' fun _ s'' => Lays known s (is ++ [.jump op l]) s'' :=
  (h.refer _).bind fun _ _ h => h.write _

theorem place (h : Lays known s is s') (l : Label) :
    Ensures (place l) s' fun _ s'' => Lays known s (is ++ [.place l]) s'' :=
  .get_bind ((h.refer _).bind fun _ _ h => h.write _)

end Lays

end Compiler

namespace Tree

variable {known : SymbolTable} {s s' : Compiler} {is : List Item} {t f : Label}

theorem compileRelation_ensures (r : Option Relation) (s : Compiler) :
    Ensures (compileRelation r) s fun r' _ => r' = r.getD .eq := by
  cases r with
  | none => rfl
  | some r => rfl

theorem Comparison.compile_ensures (c : Comparison) (s : Compiler) :
    Ensures c.compile s fun r _ => r = c.asked :=
  .step fun _ _ => .step fun _ s => (compileRelation_ensures c.relation s).bind fun _ _ h =>
    .step fun _ _ => .step fun _ _ => .step fun _ _ => .step fun _ _ => .step fun _ _ => .pure h

theorem Comparison.lays_compile (c : Comparison) (h : Lays known s is s') :
    Ensures c.compile s' fun r s'' => ∃ x : Evaluation, x.comparison = c ∧ r = c.asked ∧
      x.start = s.offset + Item.codeSize is ∧ x.Written known ∧ Lays known s (is ++ x.items) s'' := by
  have hsteps := c.emits_compile s'
  obtain ⟨js, hw, -⟩ := hsteps.exists_writes
  have hlays : Lays known s (is ++ js) (c.compile s').2 :=
    ⟨h.writes.append hw, h.known.trans hsteps.table_extends⟩
  exact ⟨⟨c, s'.offset, js⟩, rfl, c.compile_ensures s', h.offset, ⟨s', h.known, rfl, hw⟩, hlays⟩

theorem Conjunction.lays_compile (f : Label) (cs : Conjunction) (h : Lays known s is s') :
    Ensures (cs.compile f) s' fun r s'' => ∃ x : Clause, x.label = f ∧
      r = x.last.comparison.asked ∧ x.comparisons = cs.comparisons ∧
      x.Fits known (s.offset + Item.codeSize is) ∧ Lays known s (is ++ x.pending) s'' := by
  induction cs generalizing s' with
  | comparison c =>
      apply (c.lays_compile h).mono
      rintro r s'' ⟨y, rfl, rfl, hstart, hy, h⟩
      exact ⟨⟨[], y, f⟩, rfl, rfl, rfl, ⟨trivial, hstart, by simp, hy⟩, h⟩
  | and cs c ih =>
      refine (ih h).bind fun r s' ⟨x, hf, hr, hcomparisons, hfits, h⟩ => ?_
      subst hf hr
      refine (h.jumpWith _ _).bind fun _ s' h => (h.log .shift).bind fun _ s' ⟨h, _⟩ => ?_
      apply (c.lays_compile h).mono
      rintro r s'' ⟨y, rfl, rfl, hstart, hy, h⟩
      rw [List.append_assoc, Item.codeSize_append, ← Nat.add_assoc] at hstart
      rw [List.append_assoc, List.append_assoc, ← List.append_assoc x.pending, ← Clause.pending_and] at h
      refine ⟨x.and y, rfl, rfl, ?_, hfits.and hy hstart, h⟩
      rw [Clause.comparisons_and, hcomparisons, Conjunction.comparisons]

theorem Condition.lays_compileWith (t f : Label) (cs : Condition) (h : Lays known s is s') :
    Ensures (cs.compileWith t f) s' fun p s'' => ∃ (xs : List Clause) (x : Clause), x.label = p.2 ∧
      p.1 = x.last.comparison.asked ∧ (xs ++ [x]).map Clause.comparisons = cs.terms ∧
      Clause.Row known t (s.offset + Item.codeSize is) (xs ++ [x]) ∧
      Lays known s (is ++ (xs.flatMap (Clause.closed t) ++ x.pending)) s'' := by
  induction cs generalizing s' with
  | conjunction c =>
      apply (c.lays_compile f h).bind
      rintro r s' ⟨x, hf, hr, hcomparisons, hfits, h⟩
      refine .pure ?_
      exact ⟨[], x, hf, hr, by simp [hcomparisons, Condition.terms], ⟨hfits, trivial⟩, h⟩
  | or cs c ih =>
      apply (ih h).bind
      rintro ⟨r, f⟩ s' ⟨xs, x, hf, hr, hterms, hrow, h⟩
      subst hf hr
      refine (h.jumpWith _ _).bind fun _ s' h => (h.log .shift).bind ?_
      rintro _ s' ⟨h, -⟩
      refine (h.place _).bind fun _ s' h => h.newLabel.bind ?_
      rintro f s' ⟨-, h⟩
      have hclosed : is ++ (xs.flatMap (Clause.closed t) ++ x.pending) ++
          [.jump x.last.comparison.asked.jump t] ++ [.place x.label] ++ [.label] =
          is ++ (xs ++ [x]).flatMap (Clause.closed t) := by
        simp [Clause.closed]
      rw [hclosed] at h
      apply (c.lays_compile f h).bind
      rintro r s' ⟨y, hf, hr, hcomparisons, hfits, h⟩
      refine .pure ?_
      rw [List.append_assoc] at h
      rw [Item.codeSize_append, ← Nat.add_assoc] at hfits
      refine ⟨xs ++ [x], y, hf, hr, ?_, Clause.row_append.2 ⟨hrow, hfits, trivial⟩, h⟩
      rw [List.map_append, hterms, List.map_singleton, hcomparisons, Condition.terms]

/-- A guard makes its labels for truth and for falsehood, and the last conjunction goes on to where
the label for truth is placed. -/
theorem lays_compileGuard (opened : Bool) (cs : Condition) (closed : Bool) (s : Compiler) :
    Ensures (compileGuard opened cs closed) s fun f s' => ∃ (xs : List Clause) (x : Clause),
      x.label = f ∧ (xs ++ [x]).map Clause.comparisons = cs.terms ∧
      Clause.Row s.table s.code.nextLabel s.offset (xs ++ [x]) ∧
      s.Writes ([.label, .label] ++ Clause.items s.code.nextLabel xs x ++
        [.place s.code.nextLabel]) s' := by
  refine ((Lays.refl s).log (.expect _ _)).bind fun _ s₁ ⟨h, hcode⟩ => ?_
  have hcondition : Ensures cs.compile s₁ fun p s' => ∃ (xs : List Clause) (x : Clause),
      p.2.1 = s.code.nextLabel ∧ x.label = p.2.2 ∧ p.1 = x.last.comparison.asked ∧
      (xs ++ [x]).map Clause.comparisons = cs.terms ∧
      Clause.Row s.table p.2.1 s.offset (xs ++ [x]) ∧
      Lays s.table s ([.label, .label] ++ (xs.flatMap (Clause.closed p.2.1) ++ x.pending)) s' := by
    refine h.newLabel.bind fun t s' ⟨ht, h⟩ => h.newLabel.bind fun f s' ⟨_, h⟩ => ?_
    rw [hcode] at ht
    refine (cs.lays_compileWith t f h).bind fun ⟨r, f⟩ s' ⟨xs, x, hf, hr, hterms, hrow, h⟩ => .pure ?_
    exact ⟨xs, x, ht, hf, hr, hterms, hrow, h⟩
  refine hcondition.bind fun ⟨r, t, f⟩ s' ⟨xs, x, ht, hf, hr, hterms, hrow, h⟩ => ?_
  subst ht hf hr
  refine (h.jumpWith _ _).bind fun _ s' h => (h.place _).bind fun _ s' h => ?_
  refine (h.log (.expect _ _)).bind fun _ s' ⟨h, _⟩ => .pure ⟨xs, x, rfl, hterms, hrow, ?_⟩
  have hitems : Clause.items s.code.nextLabel xs x = xs.flatMap (Clause.closed s.code.nextLabel) ++
      x.pending ++ [.jump x.last.comparison.asked.negation.jump x.label] := by
    rw [Clause.items, Clause.flatMap_tests, List.append_assoc]
  simpa [hitems] using h.writes

end Tree

/-- The tests of a condition, whose code begins at `start` and ends at `whenTrue`. Each comparison is
evaluated by code of its own with one conditional jump, and no other code stands between. However
the values of the comparisons compare, the code of those that have to be looked at is run, and it
leads to `whenTrue` if the condition holds and to `whenFalse` otherwise. -/
structure ShortCircuits (cs : Tree.Condition) (known : SymbolTable) (code : List Instruction)
    (target : Nat → Label → Int) (start whenTrue whenFalse : Nat) (terms : List (List Test)) :
    Prop where
  comparisons : terms.map (fun xs => xs.map fun x => x.comparison) = cs.terms
  sound : ∀ x ∈ terms.flatten, x.Sound known
  distinct : (terms.flatten.map fun x => x.site).Nodup
  between : code.filter (fun i => start ≤ i.pc && i.pc < whenTrue) =
    terms.flatten.flatMap (Test.code target)
  single : ∀ x ∈ terms.flatten, (x.code target).countP (fun i => i.op.relation?.isSome) = 1
  free : ∀ truth : Test → Bool, ∃ order, ∀ x ∈ terms.flatten, x.holds order = truth x
  run : ∀ order, Run code order start
    ((visitAny (Test.holds order) terms).flatMap (Test.code target))
    (if terms.any (fun xs => xs.all (Test.holds order)) then whenTrue else whenFalse)

theorem Emitter.Settled.shortCircuits {e : Emitter} {whole : List Item} {known : SymbolTable}
    {a b c : Nat} {t : Label} {xs : List Clause} {x : Clause} {cs : Tree.Condition}
    (h : e.Settled whole a c) (hrow : Clause.Row known t a (xs ++ [x]))
    (hterms : (xs ++ [x]).map Clause.comparisons = cs.terms)
    (hstands : Item.Stands whole a (Clause.items t xs x))
    (hc : (c, .place t) ∈ Item.located 0 whole) (hend : c = a + Item.codeSize (Clause.items t xs x))
    (hb : (b, .place x.label) ∈ Item.located 0 whole) :
    ShortCircuits cs known (Item.decoded e.leadsTo 0 whole) e.leadsTo a c b
      (Clause.terms t xs x) where
  comparisons := Clause.map_terms.trans hterms
  sound := Clause.sound_terms hrow
  distinct := Test.nodup_sites (Clause.follow_terms hrow)
  between := by
    rw [hend, hstands.filter_decoded, Clause.decoded_items hrow]
  single := fun y hy => (Clause.sound_terms hrow y hy).countP_code
  free := Test.exists_order (Clause.follow_terms hrow)
  run := fun order => h.run_clauses order hrow hstands le_rfl hend.ge hc hend hb

namespace Tree

/-- The code of a guard, in whatever state the compilation ends, evaluates the condition as far as
it has to, unless the ways in it are too far. -/
theorem shortCircuits_compileGuard (opened : Bool) (cs : Condition) (closed : Bool) (s : Compiler)
    {u : Compiler} {whenFalse : Nat} (hu : u.code.Assembles u.items.toList)
    (hafter : (compileGuard opened cs closed s).2.items.toList <+: u.items.toList)
    (hfalse : u.code.address? (compileGuard opened cs closed s).1 = some whenFalse)
    (hnear : ∀ a t, Item.Leads u.items.toList a t → s.offset ≤ a →
      a < (compileGuard opened cs closed s).2.offset → Emitter.isFar (t - a) = false) :
    u.code.address? s.code.nextLabel = some (compileGuard opened cs closed s).2.offset ∧
      ∃ code terms, Instruction.decode u.code.code.toList = .ok code ∧
        ShortCircuits cs s.table code.toList u.code.leadsTo s.offset
          (compileGuard opened cs closed s).2.offset whenFalse terms := by
  obtain ⟨xs, x, hf, hterms, hrow, hw⟩ := lays_compileGuard opened cs closed s
  rw [hw.items] at hafter
  rw [← hf] at hfalse
  obtain ⟨rest, hrest⟩ := hafter
  have hstands : Item.Stands u.items.toList s.offset _ :=
    ⟨s.items.toList, rest, by rw [← hrest], rfl⟩
  have hplace := hstands.right.mem
  have hend : (compileGuard opened cs closed s).2.offset =
      s.offset + Item.codeSize (Clause.items s.code.nextLabel xs x) := by
    simp [hw.offset, Item.size]
  have hlabels : s.offset + Item.codeSize ([.label, .label] ++ Clause.items s.code.nextLabel xs x) =
      (compileGuard opened cs closed s).2.offset := by
    simp [hend, Item.size]
  rw [hlabels] at hplace
  have hsettled : u.code.Settled u.items.toList s.offset (compileGuard opened cs closed s).2.offset :=
    ⟨hu, hnear⟩
  have hdecode : Instruction.decode u.code.code.toList =
      .ok (Item.decoded u.code.leadsTo 0 u.items.toList).toArray := by
    rw [hu.code, Instruction.decode_bytes hu.wellFormed, Item.decoded]
  refine ⟨(hu.placed _ _).2 hplace, _, Clause.terms s.code.nextLabel xs x, hdecode, ?_⟩
  exact hsettled.shortCircuits hrow hterms hstands.left.right hplace hend ((hu.placed _ _).1 hfalse)

/-- The guard `(1 < 2 && 3 == 4 || 5 != 0)` is followed by one instruction. -/
theorem shortCircuits_compileGuard_numbers :
    let number (n : Int) : Expr := .term (.factor (.number n))
    let cs : Condition := .or (.conjunction (.and (.comparison ⟨number 1, some .lt, number 2⟩)
      ⟨number 3, some .eq, number 4⟩)) (.comparison ⟨number 5, some .ne, number 0⟩)
    let guard := compileGuard true cs true .initial
    let u := (place guard.1 (emit .ret [] guard.2).2).2
    u.code.address? 0 = some 15 ∧
      ∃ code terms, Instruction.decode u.code.code.toList = .ok code ∧
        ShortCircuits cs .predeclared code.toList u.code.leadsTo 0 15 16 terms := by
  intro number cs guard u
  have hsince : Ensures (compileGuard true cs true >>= fun f => emit .ret [] >>= fun _ => place f)
      .initial fun _ s => Since .initial [] [] s := by
    have hinitial : Since .initial [] [] .initial := .refl sound_initial (by simp)
    refine (since_compileGuard true cs true hinitial).bind fun f s h => ?_
    refine (h.instruction .ret rfl rfl).bind fun _ s h => ?_
    exact h.place.mono fun _ _ h => h.1
  have hnear := hsince.near 0 Emitter.assembles_empty.near_pc rfl
  exact shortCircuits_compileGuard true cs true .initial hsince.sound.assembles ⟨_, rfl⟩ rfl
    fun a t h _ _ => hnear a t (Nat.zero_le a) h

end Tree

end MicroJava
