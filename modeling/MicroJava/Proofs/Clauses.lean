import MicroJava.Proofs.Runs

/-!
# Conditions are evaluated as far as they have to be

A condition is a disjunction of conjunctions of comparisons (`Tree.Condition.terms`). From the left
to the right, a conjunction is looked at up to its first comparison that does not hold (`visitAll`),
and the conjunctions are looked at up to the first one that holds (`visitAny`).

In the code every comparison is a `Test`: straight code that pushes its two values, and one
conditional jump. The tests of a conjunction make up a `Clause`, whose last jump is written when it
is known what comes behind the conjunction.
-/

namespace MicroJava

open Compiler

section Visits

variable {α : Type} (p : α → Bool)

/-- The elements of a list up to the first one without the property. -/
def visitAll : List α → List α
  | [] => []
  | x :: xs => x :: if p x then visitAll xs else []

/-- What is looked at in several lists, up to the first one whose elements all have the property. -/
def visitAny : List (List α) → List α
  | [] => []
  | xs :: xss => visitAll p xs ++ if xs.all p then [] else visitAny xss

theorem visitAll_append (xs ys : List α) :
    visitAll p (xs ++ ys) = visitAll p xs ++ if xs.all p then visitAll p ys else [] := by
  induction xs with
  | nil => simp [visitAll]
  | cons x xs ih => by_cases hx : p x = true <;> simp [visitAll, ih, hx]

end Visits

namespace Tree

/-- The relation that a comparison asks for. Equality stands in for one that is not there. -/
def Comparison.asked (x : Comparison) : Relation := x.relation.getD .eq

/-- The comparisons of a conjunction, from the left to the right. -/
def Conjunction.comparisons : Conjunction → List Comparison
  | .comparison x => [x]
  | .and cs x => cs.comparisons ++ [x]

/-- The conjunctions of a condition, from the left to the right. -/
def Condition.terms : Condition → List (List Comparison)
  | .conjunction x => [x.comparisons]
  | .or cs x => cs.terms ++ [x.comparisons]

end Tree

/-! ### Comparisons in the code -/

/-- The code at an address that pushes the two values of a comparison. -/
structure Evaluation where
  comparison : Tree.Comparison
  start : Nat
  items : List Item

/-- The evaluation of a comparison with the conditional jump behind it. -/
structure Test extends Evaluation where
  op : Opcode
  label : Label

/-- The number of bytes that were written. -/
def Compiler.offset (s : Compiler) : Nat := Item.codeSize s.items.toList

theorem Compiler.Writes.offset {s s' : Compiler} {is : List Item} (h : s.Writes is s') :
    s'.offset = s.offset + Item.codeSize is := by
  rw [Compiler.offset, h.items, Item.codeSize_append, Compiler.offset]

/-- The items are those of the comparison, compiled where they stand when the given symbols are
known. -/
def Evaluation.Written (known : SymbolTable) (x : Evaluation) : Prop :=
  ∃ s : Compiler, known.Extends s.table ∧ s.offset = x.start ∧
    s.Writes x.items (x.comparison.compile s).2

theorem Evaluation.Written.mono {known known' : SymbolTable} {x : Evaluation}
    (h : x.Written known') (hknown : known.Extends known') : x.Written known := by
  obtain ⟨s, hs, hw⟩ := h
  exact ⟨s, hknown.trans hs, hw⟩

theorem Evaluation.Written.isStraight {known : SymbolTable} {x : Evaluation}
    (h : x.Written known) : ∀ i ∈ x.items, i.IsStraight := by
  obtain ⟨s, -, -, hw⟩ := h
  obtain ⟨is, hw', his⟩ := (x.comparison.emits_compile s).exists_writes
  rwa [hw.unique hw']

/-- The address behind the code, where the conditional jump is written. -/
def Evaluation.site (x : Evaluation) : Nat := x.start + Item.codeSize x.items

/-- The evaluation with a conditional jump behind it. -/
def Evaluation.test (x : Evaluation) (op : Opcode) (l : Label) : Test := { x with op, label := l }

namespace Test

/-- The items of a test. -/
def whole (x : Test) : List Item := x.items ++ [.jump x.op x.label]


/-- The instructions of a test. -/
def code (target : Nat → Label → Int) (x : Test) : List Instruction :=
  Item.decoded target x.start x.whole

/-- Whether the comparison holds, if its values compare as `order` says. -/
def holds (order : Nat → Ordering) (x : Test) : Bool := x.comparison.asked.holds (order x.site)

/-- Tests that stand one after the other from an address on. -/
def Follow : Nat → List Test → Prop
  | _, [] => True
  | a, x :: xs => x.start = a ∧ Follow (a + Item.codeSize x.whole) xs

variable {target : Nat → Label → Int} {a : Nat} {x : Test} {xs ys : List Test}

theorem follow_append : Follow a (xs ++ ys) ↔
    Follow a xs ∧ Follow (a + Item.codeSize (xs.flatMap whole)) ys := by
  induction xs generalizing a with
  | nil => simp [Follow]
  | cons x xs ih => simp [Follow, ih, and_assoc, Nat.add_assoc]

theorem codeSize_whole : Item.codeSize x.whole = Item.codeSize x.items + (Item.jump x.op x.label).size := by
  simp [whole]

theorem decoded_flatMap (h : Follow a xs) :
    Item.decoded target a (xs.flatMap whole) = xs.flatMap (code target) := by
  induction xs generalizing a with
  | nil => rfl
  | cons x xs ih =>
      obtain ⟨rfl, h⟩ := h
      rw [List.flatMap_cons, List.flatMap_cons, Item.decoded_append, ih h, code]

theorem site_lt : x.site < x.start + Item.codeSize x.whole := by
  have hsize := Item.size_jump_pos x.op x.label
  rw [codeSize_whole, Evaluation.site]
  omega

theorem le_site (h : Follow a xs) (hx : x ∈ xs) : a ≤ x.site := by
  induction xs generalizing a with
  | nil => cases hx
  | cons y xs ih =>
      obtain ⟨rfl, h⟩ := h
      rcases List.mem_cons.1 hx with rfl | hx
      · exact Nat.le_add_right _ _
      · exact (Nat.le_add_right _ _).trans (ih h hx)

/-- Every test has a jump of its own. -/
theorem nodup_sites (h : Follow a xs) : (xs.map fun x => x.site).Nodup := by
  induction xs generalizing a with
  | nil => exact .nil
  | cons x xs ih =>
      obtain ⟨rfl, h⟩ := h
      rw [List.map_cons, List.nodup_cons]
      refine ⟨fun hmem => ?_, ih h⟩
      obtain ⟨y, hy, heq⟩ := List.mem_map.1 hmem
      have hle := le_site h hy
      have hlt := x.site_lt
      omega

/-- The code pushes the values of the comparison, and the jump asks for its relation or for the
opposite. -/
structure Sound (known : SymbolTable) (x : Test) : Prop where
  written : x.Written known
  asks : x.op = x.comparison.asked.jump ∨ x.op = x.comparison.asked.negation.jump

/-- The code of a comparison has one conditional jump. -/
theorem Sound.countP_code {known : SymbolTable} (h : x.Sound known) :
    (x.code target).countP (fun i => i.op.relation?.isSome) = 1 := by
  have hstraight : (Item.decoded target x.start x.items).countP (fun i => i.op.relation?.isSome) = 0 := by
    rw [List.countP_eq_zero]
    intro i hi
    simp [Item.relation?_of_mem_decoded h.written.isStraight hi]
  have hjump : x.op.relation? ≠ none := by
    rcases h.asks with hop | hop <;> simp [hop]
  rw [code, whole, Item.decoded_append, List.countP_append, hstraight]
  simpa [Item.decoded, Item.instructions, Item.instruction?, Instruction.readBack] using hjump

/-- Comparisons can be given any truth values. -/
theorem exists_order (h : Follow a xs) (truth : Test → Bool) :
    ∃ order, ∀ x ∈ xs, x.holds order = truth x := by
  induction xs generalizing a with
  | nil => exact ⟨fun _ => .eq, by simp⟩
  | cons x xs ih =>
      obtain ⟨rfl, h⟩ := h
      obtain ⟨order, horder⟩ := ih h
      obtain ⟨o, ho⟩ := x.comparison.asked.exists_holds (truth x)
      refine ⟨Function.update order x.site o, fun y hy => ?_⟩
      rcases List.mem_cons.1 hy with rfl | hy
      · simpa [holds] using ho
      · have hle := le_site h hy
        have hlt := x.site_lt
        rw [holds, Function.update_of_ne (by omega)]
        exact horder y hy

end Test

/-! ### Running tests -/

/-- The code that was assembled from some items, in which the ways from a part of it are not too far
to be written down. -/
structure Emitter.Settled (e : Emitter) (whole : List Item) (lo hi : Nat) : Prop where
  assembles : e.Assembles whole
  near : ∀ a t, Item.Leads whole a t → lo ≤ a → a < hi → isFar (t - a) = false

namespace Emitter.Settled

variable {e : Emitter} {whole : List Item} {lo hi a b : Nat} (order : Nat → Ordering)
  {known : SymbolTable}

theorem mono {lo' hi' : Nat} (h : e.Settled whole lo hi) (hlo : lo ≤ lo') (hhi : hi' ≤ hi) :
    e.Settled whole lo' hi' :=
  ⟨h.assembles, fun a t hl hlo' hhi' => h.near a t hl (hlo.trans hlo') (hhi'.trans_le hhi)⟩

/-- A test goes to its label if its jump is taken, and on otherwise. -/
theorem run_test (h : e.Settled whole lo hi) {x : Test} {r : Relation} (hx : x.Written known)
    (hop : x.op = r.jump) (hstands : Item.Stands whole x.start x.whole) (hlo : lo ≤ x.start)
    (hhi : x.start + Item.codeSize x.whole ≤ hi) (hb : (b, .place x.label) ∈ Item.located 0 whole) :
    Run (Item.decoded e.leadsTo 0 whole) order x.start (x.code e.leadsTo)
      (if r.holds (order x.site) then b else x.start + Item.codeSize x.whole) := by
  have hjump : (x.site, .jump r.jump x.label) ∈ Item.located 0 whole := by
    rw [← hop]
    exact hstands.right.mem
  have hsize := Item.size_jump_pos x.op x.label
  rw [Test.codeSize_whole] at hhi ⊢
  have hnear := h.near _ _ (.jump hjump hb) (hlo.trans (Nat.le_add_right _ _))
    (by rw [Evaluation.site]; omega)
  rw [Test.code, Test.whole, Item.decoded_append, hop, ← Nat.add_assoc]
  exact (hstands.left.run_straight hx.isStraight).trans (h.assembles.run_jump hjump hb hnear)

/-- Tests that all go to one label unless they hold are run up to the first one that does not. -/
theorem run_tests (h : e.Settled whole lo hi) {f : Label} {xs : List Test} (hfollow : Test.Follow a xs)
    (hxs : ∀ x ∈ xs, x.Written known ∧ x.op = x.comparison.asked.negation.jump ∧ x.label = f)
    (hstands : Item.Stands whole a (xs.flatMap Test.whole)) (hlo : lo ≤ a)
    (hhi : a + Item.codeSize (xs.flatMap Test.whole) ≤ hi)
    (hb : (b, .place f) ∈ Item.located 0 whole) :
    Run (Item.decoded e.leadsTo 0 whole) order a
      ((visitAll (Test.holds order) xs).flatMap (Test.code e.leadsTo))
      (if xs.all (Test.holds order) then a + Item.codeSize (xs.flatMap Test.whole) else b) := by
  induction xs generalizing a with
  | nil => exact .done a
  | cons x xs ih =>
      obtain ⟨rfl, hfollow⟩ := hfollow
      obtain ⟨hx, hop, rfl⟩ := hxs x List.mem_cons_self
      rw [List.flatMap_cons] at hstands hhi ⊢
      rw [Item.codeSize_append, ← Nat.add_assoc] at hhi ⊢
      have hfirst := h.run_test order hx hop hstands.left hlo (by omega) hb
      rw [Relation.holds_negation] at hfirst
      change Run _ _ _ _ (if (!x.holds order) = true then b else _) at hfirst
      by_cases hholds : x.holds order = true
      · have hrest := ih hfollow (fun y hy => hxs y (List.mem_cons_of_mem x hy)) hstands.right
          (by omega) hhi
        rw [hholds] at hfirst
        simpa [visitAll, hholds] using hfirst.trans hrest
      · simpa [visitAll, hholds] using hfirst

end Emitter.Settled

/-! ### Conjunctions in the code -/

/-- The tests of a conjunction, of which the last one has no jump yet. The other ones go to the label
unless they hold. -/
structure Clause where
  init : List Test
  last : Evaluation
  label : Label

namespace Clause

/-- The items of a conjunction without its last jump. -/
def pending (x : Clause) : List Item := x.init.flatMap Test.whole ++ x.last.items

/-- The items of a conjunction that is followed by another one. If it holds, it goes to `t`. -/
def closed (t : Label) (x : Clause) : List Item :=
  x.pending ++ [.jump x.last.comparison.asked.jump t, .place x.label, .label]

/-- The tests of a conjunction whose last jump is known. -/
def tests (x : Clause) (op : Opcode) (l : Label) : List Test :=
  x.init ++ [x.last.test op l]

/-- The comparisons of a conjunction. -/
def comparisons (x : Clause) : List Tree.Comparison :=
  x.init.map (fun y => y.comparison) ++ [x.last.comparison]

/-- The conjunction stands at an address. -/
structure Fits (known : SymbolTable) (a : Nat) (x : Clause) : Prop where
  follow : Test.Follow a x.init
  start : x.last.start = a + Item.codeSize (x.init.flatMap Test.whole)
  init : ∀ y ∈ x.init, y.Written known ∧ y.op = y.comparison.asked.negation.jump ∧ y.label = x.label
  last : x.last.Written known

/-- Conjunctions that stand one after the other from an address on. -/
def Row (known : SymbolTable) (t : Label) : Nat → List Clause → Prop
  | _, [] => True
  | a, x :: xs => x.Fits known a ∧ Row known t (a + Item.codeSize (x.closed t)) xs

/-- The tests of several conjunctions, of which the last one goes on if it holds. -/
def terms (t : Label) (xs : List Clause) (x : Clause) : List (List Test) :=
  xs.map (fun y => y.tests y.last.comparison.asked.jump t) ++
    [x.tests x.last.comparison.asked.negation.jump x.label]

/-- The items of several conjunctions, of which the last one goes on if it holds. -/
def items (t : Label) (xs : List Clause) (x : Clause) : List Item :=
  xs.flatMap (closed t) ++ (x.tests x.last.comparison.asked.negation.jump x.label).flatMap Test.whole

variable {t l : Label} {a : Nat} {op : Opcode} {x y : Clause} {xs ys : List Clause}
  {known : SymbolTable}

theorem row_append : Row known t a (xs ++ ys) ↔
    Row known t a xs ∧ Row known t (a + Item.codeSize (xs.flatMap (closed t))) ys := by
  induction xs generalizing a with
  | nil => simp [Row]
  | cons x xs ih => simp [Row, ih, and_assoc, Nat.add_assoc]

theorem Row.mono {known' : SymbolTable} (h : Row known' t a xs) (hknown : known.Extends known') :
    Row known t a xs := by
  induction xs generalizing a with
  | nil => trivial
  | cons x xs ih =>
      obtain ⟨⟨hfollow, hstart, hinit, hlast⟩, h⟩ := h
      refine ⟨⟨hfollow, hstart, fun y hy => ?_, hlast.mono hknown⟩, ih h⟩
      obtain ⟨hy, hop⟩ := hinit y hy
      exact ⟨hy.mono hknown, hop⟩

theorem flatMap_tests : (x.tests op l).flatMap Test.whole = x.pending ++ [.jump op l] := by
  simp [tests, pending, Test.whole, Evaluation.test]

theorem closed_eq : x.closed t =
    (x.tests x.last.comparison.asked.jump t).flatMap Test.whole ++ [.place x.label, .label] := by
  simp [flatMap_tests, closed]

theorem codeSize_closed : Item.codeSize (x.closed t) =
    Item.codeSize ((x.tests x.last.comparison.asked.jump t).flatMap Test.whole) := by
  simp [closed_eq, Item.size]

theorem all_tests (order : Nat → Ordering) : (x.tests op l).all (Test.holds order) =
    (x.init.all (Test.holds order) && x.last.comparison.asked.holds (order x.last.site)) := by
  simp [tests, Evaluation.test, Test.holds]

theorem Fits.follow_tests (h : x.Fits known a) : Test.Follow a (x.tests op l) :=
  Test.follow_append.2 ⟨h.follow, h.start, trivial⟩

theorem map_tests : (x.tests op l).map (fun y => y.comparison) = x.comparisons := by
  simp [tests, comparisons, Evaluation.test]

theorem Fits.sound_tests (h : x.Fits known a)
    (hop : op = x.last.comparison.asked.jump ∨ op = x.last.comparison.asked.negation.jump) :
    ∀ y ∈ x.tests op l, y.Sound known := by
  intro y hy
  rcases List.mem_append.1 hy with hy | hy
  · obtain ⟨hwritten, hop, -⟩ := h.init y hy
    exact ⟨hwritten, .inr hop⟩
  · rw [List.mem_singleton.1 hy]
    exact ⟨h.last, hop⟩

theorem items_cons : items t (x :: xs) y = x.closed t ++ items t xs y := by
  simp [items]

theorem terms_cons : terms t (x :: xs) y = x.tests x.last.comparison.asked.jump t :: terms t xs y := rfl

theorem map_terms : (terms t xs x).map (fun ys => ys.map fun y => y.comparison) =
    (xs ++ [x]).map comparisons := by
  simp [terms, map_tests]

theorem sound_terms (h : Row known t a (xs ++ [x])) :
    ∀ y ∈ (terms t xs x).flatten, y.Sound known := by
  induction xs generalizing a with
  | nil => simpa [terms] using h.1.sound_tests (.inr rfl)
  | cons z xs ih =>
      obtain ⟨hz, h⟩ := h
      intro y hy
      rw [terms_cons, List.flatten_cons] at hy
      rcases List.mem_append.1 hy with hy | hy
      · exact hz.sound_tests (.inl rfl) y hy
      · exact ih h y hy

theorem follow_terms (h : Row known t a (xs ++ [x])) : Test.Follow a (terms t xs x).flatten := by
  induction xs generalizing a with
  | nil => simpa [terms] using h.1.follow_tests
  | cons y xs ih =>
      obtain ⟨hy, h⟩ := h
      rw [terms_cons, List.flatten_cons, Test.follow_append, ← codeSize_closed]
      exact ⟨hy.follow_tests, ih h⟩

/-- Nothing but the code of the tests is written. -/
theorem decoded_items {target : Nat → Label → Int} (h : Row known t a (xs ++ [x])) :
    Item.decoded target a (items t xs x) = (terms t xs x).flatten.flatMap (Test.code target) := by
  induction xs generalizing a with
  | nil => simpa [items, terms] using Test.decoded_flatMap h.1.follow_tests
  | cons y xs ih =>
      obtain ⟨hy, h⟩ := h
      have hclosed : Item.decoded target a (y.closed t) =
          (y.tests y.last.comparison.asked.jump t).flatMap (Test.code target) := by
        rw [closed_eq, Item.decoded_append, Test.decoded_flatMap hy.follow_tests]
        exact List.append_nil _
      rw [items_cons, terms_cons, List.flatten_cons, List.flatMap_append, Item.decoded_append, hclosed,
        ih h]

end Clause

namespace Emitter.Settled

variable {e : Emitter} {whole : List Item} {lo hi a b c : Nat} (order : Nat → Ordering)
  {t l : Label} {x : Clause} {xs : List Clause} {known : SymbolTable}

/-- A conjunction goes to its label for falsehood as soon as a comparison in front of the last one
does not hold. Otherwise its last jump tells where it goes. -/
theorem run_clause (h : e.Settled whole lo hi) (hx : x.Fits known a) {r : Relation}
    (hstands : Item.Stands whole a ((x.tests r.jump l).flatMap Test.whole)) (hlo : lo ≤ a)
    (hhi : a + Item.codeSize ((x.tests r.jump l).flatMap Test.whole) ≤ hi)
    (hb : (b, .place x.label) ∈ Item.located 0 whole) (hc : (c, .place l) ∈ Item.located 0 whole) :
    Run (Item.decoded e.leadsTo 0 whole) order a
      ((visitAll (Test.holds order) (x.tests r.jump l)).flatMap (Test.code e.leadsTo))
      (if x.init.all (Test.holds order) then
        if r.holds (order x.last.site) then c
        else a + Item.codeSize ((x.tests r.jump l).flatMap Test.whole)
      else b) := by
  have hlast : (x.last.test r.jump l).start = a + Item.codeSize (x.init.flatMap Test.whole) := hx.start
  rw [Clause.tests, List.flatMap_append, List.flatMap_singleton] at hstands hhi ⊢
  rw [Item.codeSize_append, ← Nat.add_assoc, ← hlast] at hhi ⊢
  rw [visitAll_append, List.flatMap_append]
  have hright := hstands.right
  rw [← hlast] at hright
  have hinit := h.run_tests order hx.follow hx.init hstands.left hlo (by omega) hb
  rw [← hlast] at hinit
  by_cases hall : x.init.all (Test.holds order) = true
  · have hvisit : visitAll (Test.holds order) [x.last.test r.jump l] = [x.last.test r.jump l] := by
      simp [visitAll]
    have hrun := h.run_test order hx.last rfl hright (by omega) hhi hc
    simp only [hall, if_true] at hinit ⊢
    rw [hvisit, List.flatMap_singleton]
    exact hinit.trans hrun
  · simp only [hall] at hinit ⊢
    simpa using hinit

/-- A conjunction that is followed by another one goes to the label for truth or on to that one. -/
theorem run_closed (h : e.Settled whole lo hi) (hx : x.Fits known a)
    (hstands : Item.Stands whole a (x.closed t)) (hlo : lo ≤ a)
    (hhi : a + Item.codeSize (x.closed t) ≤ hi) (hc : (c, .place t) ∈ Item.located 0 whole) :
    Run (Item.decoded e.leadsTo 0 whole) order a
      ((visitAll (Test.holds order) (x.tests x.last.comparison.asked.jump t)).flatMap
        (Test.code e.leadsTo))
      (if (x.tests x.last.comparison.asked.jump t).all (Test.holds order) then c
        else a + Item.codeSize (x.closed t)) := by
  rw [Clause.codeSize_closed] at hhi ⊢
  rw [Clause.closed_eq] at hstands
  have hrun := h.run_clause order hx hstands.left hlo hhi hstands.right.mem hc
  rw [Clause.all_tests]
  cases hall : x.init.all (Test.holds order) with
  | false => simpa [hall] using hrun
  | true => simpa [hall] using hrun

/-- The last conjunction goes on or to its label for falsehood. -/
theorem run_last (h : e.Settled whole lo hi) (hx : x.Fits known a)
    (hstands : Item.Stands whole a (Clause.items t [] x)) (hlo : lo ≤ a)
    (hhi : a + Item.codeSize (Clause.items t [] x) ≤ hi)
    (hb : (b, .place x.label) ∈ Item.located 0 whole) :
    Run (Item.decoded e.leadsTo 0 whole) order a
      ((visitAll (Test.holds order) (x.tests x.last.comparison.asked.negation.jump x.label)).flatMap
        (Test.code e.leadsTo))
      (if (x.tests x.last.comparison.asked.negation.jump x.label).all (Test.holds order) then
        a + Item.codeSize (Clause.items t [] x) else b) := by
  have hrun := h.run_clause order hx hstands hlo hhi hb hb
  rw [Relation.holds_negation] at hrun
  rw [Clause.all_tests]
  cases hall : x.init.all (Test.holds order) with
  | false => simpa [hall] using hrun
  | true =>
      cases hholds : x.last.comparison.asked.holds (order x.last.site) with
      | false => simpa [hall, hholds] using hrun
      | true => simpa [hall, hholds, Clause.items] using hrun

/-- Conjunctions are run up to the first one that holds. -/
theorem run_clauses (h : e.Settled whole lo hi) (hrow : Clause.Row known t a (xs ++ [x]))
    (hstands : Item.Stands whole a (Clause.items t xs x)) (hlo : lo ≤ a)
    (hhi : a + Item.codeSize (Clause.items t xs x) ≤ hi)
    (hc : (c, .place t) ∈ Item.located 0 whole) (hend : c = a + Item.codeSize (Clause.items t xs x))
    (hb : (b, .place x.label) ∈ Item.located 0 whole) :
    Run (Item.decoded e.leadsTo 0 whole) order a
      ((visitAny (Test.holds order) (Clause.terms t xs x)).flatMap (Test.code e.leadsTo))
      (if (Clause.terms t xs x).any (fun xs => xs.all (Test.holds order)) then c else b) := by
  induction xs generalizing a with
  | nil =>
      rw [hend]
      simpa [Clause.terms, visitAny] using h.run_last order hrow.1 hstands hlo hhi hb
  | cons y xs ih =>
      obtain ⟨hy, hrow⟩ := hrow
      have hitems : Clause.items t (y :: xs) x = y.closed t ++ Clause.items t xs x := by
        simp [Clause.items]
      rw [hitems] at hstands hhi hend
      rw [Item.codeSize_append, ← Nat.add_assoc] at hhi hend
      have hfirst := h.run_closed order hy hstands.left hlo (by omega) hc
      have hrest := ih hrow hstands.right (by omega) hhi hend
      have hterms : Clause.terms t (y :: xs) x =
          y.tests y.last.comparison.asked.jump t :: Clause.terms t xs x := rfl
      rw [hterms, visitAny, List.any_cons, List.flatMap_append]
      cases hall : (y.tests y.last.comparison.asked.jump t).all (Test.holds order) with
      | false =>
          rw [hall] at hfirst
          exact hfirst.trans hrest
      | true =>
          rw [hall] at hfirst
          simpa using hfirst

end Emitter.Settled

end MicroJava
