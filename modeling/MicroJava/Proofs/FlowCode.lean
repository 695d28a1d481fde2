import MicroJava.Proofs.Control
import MicroJava.Proofs.ShortCircuit

/-!
# The code of a flow

`FlowCode known l a is f` says that the items `is`, if they stand at `a`, are those of the flow `f`,
in which a way out of the innermost loop jumps to the label `l`. There is one constructor for each
way in which statements are compiled; what a piece writes by itself is straight code.

The pieces of a flow stand one after the other (`FlowCode.row`). Once the code is assembled, the code
of each is found where it stands, and control goes through the code as the flow says
(`FlowCode.realizes`).
-/

namespace MicroJava

open Compiler

/-! ### Where pieces stand -/

namespace Site

/-- The code of the pieces stands one after the other between two addresses. -/
def Row : Nat → Nat → List Site → Prop
  | lo, hi, [] => lo ≤ hi
  | lo, hi, x :: xs => lo ≤ x.start ∧ x.start < x.stop ∧ Row x.stop hi xs

/-- Between two addresses no other pieces begin than the given ones. -/
def Marks (sites xs : List Site) (lo hi : Nat) : Prop :=
  ∀ pc, lo ≤ pc → pc < hi → at? sites pc = at? xs pc

variable {lo lo' mid hi hi' pc : Nat} {x : Site} {xs ys sites : List Site}

namespace Row

theorem le (h : Row lo hi xs) : lo ≤ hi := by
  induction xs generalizing lo with
  | nil => exact h
  | cons x xs ih =>
      obtain ⟨hlo, hlt, h⟩ := h
      have := ih h
      omega

theorem mono (h : Row lo hi xs) (hlo : lo' ≤ lo) : Row lo' hi xs := by
  cases xs with
  | nil => exact hlo.trans h
  | cons x xs => exact ⟨hlo.trans h.1, h.2⟩

theorem append (h : Row lo mid xs) (h' : Row mid hi ys) : Row lo hi (xs ++ ys) := by
  induction xs generalizing lo with
  | nil => exact h'.mono h
  | cons x xs ih => exact ⟨h.1, h.2.1, ih h.2.2⟩

theorem extend (h : Row lo hi xs) (hhi : hi ≤ hi') : Row lo hi' xs := by
  rw [← List.append_nil xs]
  exact h.append hhi

theorem bounds (h : Row lo hi xs) (hx : x ∈ xs) : lo ≤ x.start ∧ x.start < hi := by
  induction xs generalizing lo with
  | nil => cases hx
  | cons y xs ih =>
      obtain ⟨hlo, hlt, h⟩ := h
      have hle := h.le
      rcases List.mem_cons.1 hx with rfl | hx
      · omega
      · have := ih h hx
        omega

theorem at?_eq_none (h : Row lo hi xs) (hpc : pc < lo ∨ hi ≤ pc) : at? xs pc = none := by
  refine List.find?_eq_none.2 fun x hx hstart => ?_
  have hbounds := h.bounds hx
  have := of_decide_eq_true hstart
  omega

end Row

namespace Marks

theorem refl (sites : List Site) (lo hi : Nat) : Marks sites sites lo hi := fun _ _ _ => rfl

theorem mono (h : Marks sites xs lo hi) (hlo : lo ≤ lo') (hhi : hi' ≤ hi) : Marks sites xs lo' hi' :=
  fun pc hlo' hhi' => h pc (hlo.trans hlo') (hhi'.trans_le hhi)

/-- Up to where the other ones begin only the first pieces begin. -/
theorem left (h : Marks sites (xs ++ ys) lo hi) (hys : Row mid hi ys) : Marks sites xs lo mid := by
  intro pc hlo hpc
  rw [h pc hlo (hpc.trans_le hys.le), at?, List.find?_append, ← at?, ← at?, hys.at?_eq_none (.inl hpc),
    Option.or_none]

theorem right (h : Marks sites (xs ++ ys) lo hi) (hxs : Row lo mid xs) : Marks sites ys mid hi := by
  intro pc hpc hhi
  rw [h pc (hxs.le.trans hpc) hhi, at?, List.find?_append, ← at?, ← at?, hxs.at?_eq_none (.inr hpc),
    Option.none_or]

theorem at?_start (h : Marks sites (x :: xs) x.start hi) (hhi : x.start < hi) :
    at? sites x.start = some x := by
  rw [h _ le_rfl hhi]
  exact List.find?_cons_of_pos (decide_eq_true rfl)

theorem at?_of_ne (h : Marks sites [x] lo hi) (hlo : lo ≤ pc) (hhi : pc < hi) (hne : x.start ≠ pc) :
    at? sites pc = none := by
  rw [h _ hlo hhi, at?, List.find?_cons_of_neg (by simpa using hne), List.find?_nil]

end Marks

end Site

/-! ### Code without jumps -/

/-- An item behind which control goes on. -/
def Item.GoesOn (i : Item) : Prop := i.IsStraight ∨ i = .instruction .exit []

section

variable {target : Nat → Label → Int} {whole is : List Item} {i : Item} {a b : Nat}
  {sites : List Site} {answers : List Bool} {visited : List Site}

theorem Item.GoesOn.size_pos (h : i.GoesOn) : 0 < i.size := by
  rcases h with h | rfl
  · cases i with
    | instruction op operands => exact Item.size_jump_pos op 0
    | call address => exact Item.size_call_pos address
    | _ => exact h.elim
  · exact Item.size_jump_pos .exit 0

theorem Item.GoesOn.next? (h : i.GoesOn) (ha : (a, i) ∈ Item.located 0 whole) :
    Control.next? (Item.decoded target 0 whole) a = some (a + i.size) := by
  rcases h with h | rfl
  · cases i with
    | instruction op operands =>
        rw [Control.next?, Item.find?_decoded ha rfl]
        exact Instruction.onward?_of_fallsThrough (Opcode.fallsThrough_of_isStraight h.1)
          (Opcode.isJump_of_isStraight h.1)
    | call address =>
        rw [Control.next?, Item.find?_decoded ha rfl]
        exact Instruction.onward?_of_fallsThrough rfl rfl
    | _ => exact h.elim
  · rw [Control.next?, Item.find?_decoded ha rfl]
    exact Instruction.onward?_of_fallsThrough rfl rfl

/-- A jump leads to where its label is placed. -/
theorem Emitter.Settled.next?_jump {e : Emitter} {lo hi : Nat} {l : Label}
    (h : e.Settled whole lo hi) (ha : (a, .jump .jmp l) ∈ Item.located 0 whole)
    (hb : (b, .place l) ∈ Item.located 0 whole) (hlo : lo ≤ a) (hhi : a < hi) :
    Control.next? (Item.decoded e.leadsTo 0 whole) a = some b := by
  have htarget : e.leadsTo a l = (b : Int) := by
    rw [Emitter.leadsTo, (h.assembles.placed l b).2 hb, Option.getD_some]
  have hjmp : Opcode.jmp.hasTarget = true := rfl
  have hread := Instruction.target?_readBack hjmp (h.near a b (.jump ha hb) hlo hhi)
  rw [Control.next?, Item.find?_decoded ha rfl, htarget, Option.bind_some]
  exact Instruction.onward?_of_jmp rfl hread

/-- Straight code in which no piece begins is passed through. -/
theorem Item.Stands.reaches (h : Item.Stands whole a is) (his : ∀ i ∈ is, i.GoesOn)
    (hunmarked : ∀ pc, a ≤ pc → pc < a + Item.codeSize is → Site.at? sites pc = none) :
    Control.Reaches (Item.decoded target 0 whole) sites ⟨a, answers, visited⟩
      ⟨a + Item.codeSize is, answers, visited⟩ := by
  induction is generalizing a with
  | nil => exact .refl
  | cons i is ih =>
      have hi := his i List.mem_cons_self
      have hsize := hi.size_pos
      rw [Item.codeSize_cons, ← Nat.add_assoc] at hunmarked ⊢
      have hstep : Control.step (Item.decoded target 0 whole) sites ⟨a, answers, visited⟩ = _ :=
        Control.step_unmarked (hunmarked a le_rfl (by omega)) (hi.next? h.mem)
      refine .head hstep (ih h.tail (fun j hj => his j (List.mem_cons_of_mem i hj)) fun pc hlo hhi => ?_)
      exact hunmarked pc (by omega) hhi

/-- Control comes by a statement at the beginning of its code. -/
theorem Item.Stands.reaches_visit {st : Tree.Statement} {stop hi : Nat}
    (h : Item.Stands whole a is) (hne : is ≠ []) (his : ∀ i ∈ is, i.GoesOn)
    (hmarks : Site.Marks sites [.statement st a stop] a hi) (hhi : a + Item.codeSize is ≤ hi) :
    Control.Reaches (Item.decoded target 0 whole) sites ⟨a, answers, visited⟩
      ⟨a + Item.codeSize is, answers, visited ++ [.statement st a stop]⟩ := by
  obtain ⟨i, is, rfl⟩ := List.exists_cons_of_ne_nil hne
  have hi := his i List.mem_cons_self
  have hsize := hi.size_pos
  rw [Item.codeSize_cons, ← Nat.add_assoc] at hhi ⊢
  have hat : Site.at? sites a = _ := hmarks.at?_start (by change a < _; omega)
  have hstep : Control.step (Item.decoded target 0 whole) sites ⟨a, answers, visited⟩ = _ :=
    Control.step_statement hat (hi.next? h.mem)
  refine .head hstep (h.tail.reaches (fun j hj => his j (List.mem_cons_of_mem i hj)) fun pc hlo hpc => ?_)
  exact hmarks.at?_of_ne (by omega) (by omega) (by change a ≠ pc; omega)

end

theorem Item.codeSize_statement (is : List Item) :
    Item.codeSize (.statement :: is) = Item.codeSize is :=
  Nat.zero_add _

/-! ### Code with jumps -/

/-- The items are those of the statement, compiled where they stand when the given symbols are
known. -/
def Tree.Statement.Written (known : SymbolTable) (a : Nat) (is : List Item) (st : Tree.Statement) :
    Prop :=
  ∃ (s : Compiler) (behindLoop : Option Label) (result : Ty), known.Extends s.table ∧ s.offset = a ∧
    s.Writes is (st.compile behindLoop result s).2

/-- The items are those of a guard that leads on if the condition holds, and to the label `f`
otherwise. -/
def Tree.Condition.Guards (known : SymbolTable) (a : Nat) (is : List Item) (f : Label)
    (cs : Tree.Condition) : Prop :=
  ∃ (t : Label) (xs : List Clause) (x : Clause), x.label = f ∧
    (xs ++ [x]).map Clause.comparisons = cs.terms ∧ Clause.Row known t a (xs ++ [x]) ∧
    is = [.label, .label] ++ Clause.items t xs x ++ [.place t]

/-- The items at an address are those of a flow, whose ways out of the innermost loop jump to the
given label. -/
inductive FlowCode (known : SymbolTable) :
    Option Label → Nat → List Item → Flow Site → Prop where
  | skip (l : Option Label) (a : Nat) : FlowCode known l a [] .skip
  | mark {l : Option Label} {a : Nat} {is : List Item} {g : Flow Site} (h : FlowCode known l a is g) :
    FlowCode known l a (.statement :: is) g
  | visit (l : Option Label) {a : Nat} {is : List Item} {st : Tree.Statement}
    (hst : st.Written known a (.statement :: is)) (hne : is ≠ []) (his : ∀ i ∈ is, i.IsStraight) :
    FlowCode known l a (.statement :: is) (.visit (.statement st a (a + Item.codeSize is)))
  | give (l : Option Label) {a : Nat} {is : List Item} {st : Tree.Statement}
    (hst : st.Written known a (.statement :: (is ++ [.instruction .exit [], .instruction .ret []])))
    (his : ∀ i ∈ is, i.IsStraight) :
    FlowCode known l a (.statement :: (is ++ [.instruction .exit [], .instruction .ret []]))
      (.give (.statement st a
        (a + Item.codeSize (is ++ [.instruction .exit [], .instruction .ret []]))))
  | leave (l : Label) (a : Nat) : FlowCode known (some l) a [.jump .jmp l] .leave
  | seq {l : Option Label} {a : Nat} {is js : List Item} {g g' : Flow Site}
    (h : FlowCode known l a is g) (h' : FlowCode known l (a + Item.codeSize is) js g') :
    FlowCode known l a (is ++ js) (.seq g g')
  | branch {l : Option Label} {a : Nat} {f : Label} {gs is : List Item} {cs : Tree.Condition}
    {g : Flow Site} (hguard : cs.Guards known a gs f)
    (h : FlowCode known l (a + Item.codeSize gs) is g) :
    FlowCode known l a (gs ++ (is ++ [.place f]))
      (.branch (.condition cs a (a + Item.codeSize gs) (a + Item.codeSize gs + Item.codeSize is)) g
        .skip)
  | branchElse {l : Option Label} {a b : Nat} {f l' : Label} {gs is js : List Item}
    {cs : Tree.Condition} {g g' : Flow Site} (hguard : cs.Guards known a gs f)
    (h : FlowCode known l (a + Item.codeSize gs) is g)
    (hb : b = a + Item.codeSize gs + Item.codeSize is + Opcode.jmp.size)
    (h' : FlowCode known l b js g') :
    FlowCode known l a
      (gs ++ (is ++ .label :: .jump .jmp l' :: .place f :: (js ++ [.place l'])))
      (.branch (.condition cs a (a + Item.codeSize gs) b) g g')
  | loop {l : Option Label} {a b : Nat} {f t : Label} {gs is : List Item} {cs : Tree.Condition}
    {g : Flow Site} (hguard : cs.Guards known a gs f)
    (h : FlowCode known (some f) (a + Item.codeSize gs) is g)
    (hb : b = a + Item.codeSize gs + Item.codeSize is + Opcode.jmp.size) :
    FlowCode known l a (.label :: .place t :: (gs ++ (is ++ [.jump .jmp t, .place f])))
      (.loop (.condition cs a (a + Item.codeSize gs) b) g)

/-- The code of a piece is found where it stands. That of a condition leads to its two addresses. -/
def Site.Holds (known : SymbolTable) (code : List Instruction) (target : Nat → Label → Int) :
    Site → Prop
  | .statement st start stop => ∃ is, st.Written known start is ∧ stop = start + Item.codeSize is ∧
      code.filter (fun i => start ≤ i.pc && i.pc < stop) = Item.decoded target start is
  | .condition cs start whenTrue whenFalse => ∃ terms,
      ShortCircuits cs known code target start whenTrue whenFalse terms

theorem Tree.Statement.Written.holds {known : SymbolTable} {st : Tree.Statement} {a : Nat}
    {is whole : List Item} {target : Nat → Label → Int} (h : st.Written known a (.statement :: is))
    (hstands : Item.Stands whole a (.statement :: is)) :
    (Site.statement st a (a + Item.codeSize is)).Holds known (Item.decoded target 0 whole) target := by
  rw [← Item.codeSize_statement]
  exact ⟨_, h, rfl, hstands.filter_decoded⟩

/-- The items stand in a whole whose ways there are written down, and the pieces that begin there are
the given ones. -/
structure Emitter.Hosts (e : Emitter) (whole : List Item) (sites : List Site) (a : Nat)
    (is : List Item) (xs : List Site) : Prop where
  settled : e.Settled whole a (a + Item.codeSize is)
  stands : Item.Stands whole a is
  marks : Site.Marks sites xs a (a + Item.codeSize is)

namespace Emitter.Hosts

variable {e : Emitter} {whole is js : List Item} {sites xs ys : List Site} {a : Nat} {i : Item}

theorem init (h : e.Hosts whole sites a (is ++ js) xs) : e.Hosts whole sites a is xs := by
  obtain ⟨hsettled, hstands, hmarks⟩ := h
  rw [Item.codeSize_append] at hsettled hmarks
  exact ⟨hsettled.mono le_rfl (by omega), hstands.left, hmarks.mono le_rfl (by omega)⟩

theorem left (h : e.Hosts whole sites a (is ++ js) (xs ++ ys))
    (hys : Site.Row (a + Item.codeSize is) (a + Item.codeSize (is ++ js)) ys) :
    e.Hosts whole sites a is xs :=
  ⟨h.init.settled, h.stands.left, h.marks.left hys⟩

theorem right (h : e.Hosts whole sites a (is ++ js) (xs ++ ys))
    (hxs : Site.Row a (a + Item.codeSize is) xs) :
    e.Hosts whole sites (a + Item.codeSize is) js ys := by
  obtain ⟨hsettled, hstands, hmarks⟩ := h
  rw [Item.codeSize_append, ← Nat.add_assoc] at hsettled hmarks
  exact ⟨hsettled.mono (by omega) le_rfl, hstands.right, hmarks.right hxs⟩

/-- Behind all pieces none begins. -/
theorem last (h : e.Hosts whole sites a (is ++ js) xs) (hxs : Site.Row a (a + Item.codeSize is) xs) :
    e.Hosts whole sites (a + Item.codeSize is) js [] := by
  rw [← List.append_nil xs] at h
  exact h.right hxs

/-- The code behind that of the first piece. -/
theorem behind {x : Site} (h : e.Hosts whole sites a (is ++ js) (x :: xs))
    (hx : Site.Row a (a + Item.codeSize is) [x]) : e.Hosts whole sites (a + Item.codeSize is) js xs := by
  have h : e.Hosts whole sites a (is ++ js) ([x] ++ xs) := h
  exact h.right hx

/-- The first piece begins where its code does. -/
theorem at?_start {x : Site} (h : e.Hosts whole sites a (is ++ js) (x :: xs)) (hx : x.start = a)
    (his : 0 < Item.codeSize is) : Site.at? sites a = some x := by
  subst hx
  exact h.init.marks.at?_start (Nat.lt_add_of_pos_right his)

theorem tail (h : e.Hosts whole sites a (i :: is) xs) (hi : i.size = 0) :
    e.Hosts whole sites a is xs := by
  obtain ⟨hsettled, hstands, hmarks⟩ := h
  have hstands := hstands.tail
  rw [Item.codeSize_cons, hi, Nat.zero_add] at hsettled hmarks
  rw [hi] at hstands
  exact ⟨hsettled, hstands, hmarks⟩

/-- From a jump at which no piece begins control goes on where its label is placed. -/
theorem next?_jump {b : Nat} {l : Label} (h : e.Hosts whole sites a (.jump .jmp l :: is) xs)
    (hxs : Site.at? xs a = none) (hb : (b, .place l) ∈ Item.located 0 whole) :
    Site.at? sites a = none ∧ Control.next? (Item.decoded e.leadsTo 0 whole) a = some b := by
  have hsize : a < a + Item.codeSize (.jump .jmp l :: is) :=
    Nat.lt_add_of_pos_right (Nat.add_pos_left (Item.size_jump_pos .jmp l) _)
  exact ⟨(h.marks a le_rfl hsize).trans hxs, h.settled.next?_jump h.stands.mem hb le_rfl hsize⟩

/-- Control leaves the method with a statement. -/
theorem tracks_give {st : Tree.Statement} {b : Nat} {behind : Option Nat}
    (h : e.Hosts whole sites a (is ++ [.instruction .exit [], .instruction .ret []])
      [.statement st a (a + Item.codeSize (is ++ [.instruction .exit [], .instruction .ret []]))])
    (his : ∀ i ∈ is, i.IsStraight) :
    Tracks (Item.decoded e.leadsTo 0 whole) sites
      (.give (.statement st a
        (a + Item.codeSize (is ++ [.instruction .exit [], .instruction .ret []])))) a b behind := by
  intro answers visited
  obtain ⟨-, hstands, hmarks⟩ := h
  have hexit := hstands.right.mem
  rw [List.append_cons] at hstands
  have hret := hstands.right.mem
  have hbehind : a + Item.codeSize (is ++ [.instruction .exit []]) =
      a + Item.codeSize is + Opcode.exit.size := by
    rw [Item.codeSize_append, Nat.add_assoc]
    rfl
  have hend : a + Item.codeSize (is ++ [.instruction .exit [], .instruction .ret []]) =
      a + Item.codeSize (is ++ [.instruction .exit []]) + Opcode.ret.size := by
    rw [List.append_cons, Item.codeSize_append, ← Nat.add_assoc]
    rfl
  have hsize : 0 < Opcode.exit.size := Item.size_jump_pos .exit 0
  have hsize' : 0 < Opcode.ret.size := Item.size_jump_pos .ret 0
  have hgoes : ∀ i ∈ is ++ [.instruction .exit []], i.GoesOn :=
    List.forall_mem_append.2 ⟨fun i hi => .inl (his i hi), List.forall_mem_singleton.2 (.inr rfl)⟩
  have hleaves : Leaves (Item.decoded e.leadsTo 0 whole) sites
      (a + Item.codeSize (is ++ [.instruction .exit []])) := by
    refine ⟨⟨_, Item.find?_decoded hexit rfl, hbehind⟩, Item.find?_decoded hret rfl, ?_⟩
    exact hmarks.at?_of_ne (by omega) (by omega) (by change a ≠ _; omega)
  rw [Flow.run]
  refine ⟨_, hstands.left.reaches_visit (by simp) hgoes hmarks (by omega), rfl, rfl, ?_, hleaves⟩
  exact ⟨st, a, by rw [hend]⟩

end Emitter.Hosts

namespace Tree.Condition.Guards

variable {known known' : SymbolTable} {a b : Nat} {is whole : List Item} {f : Label} {cs : Condition}
  {e : Emitter}

theorem mono (h : cs.Guards known' a is f) (hknown : known.Extends known') : cs.Guards known a is f := by
  obtain ⟨t, xs, x, hf, hterms, hrow, his⟩ := h
  exact ⟨t, xs, x, hf, hterms, hrow.mono hknown, his⟩

theorem codeSize_pos (h : cs.Guards known a is f) : 0 < Item.codeSize is := by
  obtain ⟨t, xs, x, -, -, -, rfl⟩ := h
  have hjump := Item.size_jump_pos x.last.comparison.asked.negation.jump x.label
  simp only [Clause.items, Clause.flatMap_tests, Item.codeSize_append, Item.codeSize_cons]
  omega

theorem row (h : cs.Guards known a is f) :
    Site.Row a (a + Item.codeSize is) [.condition cs a (a + Item.codeSize is) b] :=
  ⟨le_rfl, Nat.lt_add_of_pos_right h.codeSize_pos, le_rfl⟩

theorem exists_shortCircuits (h : cs.Guards known a is f)
    (hsettled : e.Settled whole a (a + Item.codeSize is)) (hstands : Item.Stands whole a is)
    (hb : (b, .place f) ∈ Item.located 0 whole) : ∃ terms, ShortCircuits cs known
      (Item.decoded e.leadsTo 0 whole) e.leadsTo a (a + Item.codeSize is) b terms := by
  obtain ⟨t, xs, x, rfl, hterms, hrow, rfl⟩ := h
  have hend : a + Item.codeSize ([.label, .label] ++ Clause.items t xs x ++ [.place t]) =
      a + Item.codeSize (Clause.items t xs x) := by
    simp [Item.size]
  have hplace := hstands.right.mem
  have hlabels : a + Item.codeSize ([.label, .label] ++ Clause.items t xs x) =
      a + Item.codeSize (Clause.items t xs x) := by
    simp [Item.size]
  rw [hlabels] at hplace
  rw [hend] at hsettled ⊢
  exact ⟨_, hsettled.shortCircuits hrow hterms hstands.left.right hplace rfl hb⟩

end Tree.Condition.Guards

namespace FlowCode

variable {known : SymbolTable} {l : Option Label} {a : Nat} {is whole : List Item} {g : Flow Site}
  {e : Emitter} {sites : List Site} {behind : Option Nat}

/-- The pieces of a flow stand one after the other. -/
theorem row (h : FlowCode known l a is g) : Site.Row a (a + Item.codeSize is) g.pieces := by
  induction h with
  | skip l a => exact Nat.le_add_right _ _
  | mark h ih => simpa [Item.size] using ih
  | visit l hst hne his =>
      obtain ⟨i, is, rfl⟩ := List.exists_cons_of_ne_nil hne
      have hsize := Item.GoesOn.size_pos (.inl (his _ List.mem_cons_self))
      rw [Item.codeSize_statement]
      exact ⟨le_rfl, Nat.lt_add_of_pos_right (by rw [Item.codeSize_cons]; omega), le_rfl⟩
  | give l hst his =>
      have hret : 0 < Opcode.ret.size := Item.size_jump_pos .ret 0
      rw [Item.codeSize_statement]
      refine ⟨le_rfl, Nat.lt_add_of_pos_right ?_, le_rfl⟩
      simp only [Item.codeSize_append, Item.codeSize_cons, Item.size]
      omega
  | leave l a => exact Nat.le_add_right _ _
  | seq h h' ih ih' =>
      rw [Item.codeSize_append, ← Nat.add_assoc]
      exact ih.append ih'
  | branch hguard h ih =>
      simp only [Item.codeSize_append, ← Nat.add_assoc]
      exact hguard.row.append ((ih.append le_rfl).extend (Nat.le_add_right _ _))
  | branchElse hguard h hb h' ih ih' =>
      subst hb
      simp only [Item.codeSize_append, Item.codeSize_cons, Item.size, ← Nat.add_assoc]
      refine hguard.row.append ((ih.append (ih'.mono ?_)).extend ?_)
      · omega
      · omega
  | loop hguard h hb ih =>
      simp only [Item.codeSize_append, Item.codeSize_cons, Item.size]
      refine (hguard.row.append ih).extend ?_
      omega

/-- The code of a flow does what the flow says. -/
structure Realizes (known : SymbolTable) (code : List Instruction) (target : Nat → Label → Int)
    (sites : List Site) (g : Flow Site) (a b : Nat) (behind : Option Nat) : Prop where
  holds : ∀ x ∈ g.pieces, x.Holds known code target
  tracks : Tracks code sites g a b behind

theorem realizes (h : FlowCode known l a is g) (hosts : e.Hosts whole sites a is g.pieces)
    (hbehind : ∀ f, l = some f → ∃ b, behind = some b ∧ (b, .place f) ∈ Item.located 0 whole) :
    Realizes known (Item.decoded e.leadsTo 0 whole) e.leadsTo sites g a (a + Item.codeSize is)
      behind := by
  induction h generalizing behind with
  | skip l a => exact ⟨by simp [Flow.pieces], .skip⟩
  | mark h ih =>
      rw [Item.codeSize_statement]
      exact ih (hosts.tail rfl) hbehind
  | @visit l a is st hst hne his =>
      have hvisit := hosts.tail rfl
      rw [Item.codeSize_statement]
      refine ⟨List.forall_mem_singleton.2 (hst.holds hosts.stands), fun answers visited => ?_⟩
      rw [Flow.run]
      exact ⟨_, hvisit.stands.reaches_visit hne (fun i hi => .inl (his i hi)) hvisit.marks le_rfl,
        rfl, rfl, rfl⟩
  | @give l a is st hst his =>
      rw [Item.codeSize_statement]
      exact ⟨List.forall_mem_singleton.2 (hst.holds hosts.stands), (hosts.tail rfl).tracks_give his⟩
  | leave l a =>
      obtain ⟨b, rfl, hb⟩ := hbehind l rfl
      obtain ⟨hunmarked, hnext⟩ := hosts.next?_jump rfl hb
      exact ⟨List.forall_mem_nil _, .leave hunmarked hnext⟩
  | seq h h' ih ih' =>
      rw [Item.codeSize_append, ← Nat.add_assoc]
      have hrow := h'.row
      rw [Nat.add_assoc, ← Item.codeSize_append] at hrow
      have hg := ih (hosts.left hrow) hbehind
      have hg' := ih' (hosts.right h.row) hbehind
      exact ⟨List.forall_mem_append.2 ⟨hg.holds, hg'.holds⟩, hg.tracks.seq hg'.tracks⟩
  | @branch l a f gs is cs g hguard h ih =>
      rw [Flow.pieces, Flow.pieces, List.append_nil] at hosts
      have hend : a + Item.codeSize (gs ++ (is ++ [.place f])) =
          a + Item.codeSize gs + Item.codeSize is := by
        simp [Item.size, Nat.add_assoc]
      have hbody := hosts.behind hguard.row
      have hplace := hbody.stands.right.mem
      have hg := ih hbody.init hbehind
      rw [hend]
      refine ⟨List.forall_mem_cons.2 ⟨?_, ?_⟩, .branch (hosts.at?_start rfl hguard.codeSize_pos) rfl
        hg.tracks .skip⟩
      · exact hguard.exists_shortCircuits hosts.init.settled hosts.init.stands hplace
      · rw [Flow.pieces, List.append_nil]
        exact hg.holds
  | @branchElse l a b f l' gs is js cs g g' hguard h hb h' ih ih' =>
      have hend : a + Item.codeSize (gs ++ (is ++ .label :: .jump .jmp l' :: .place f ::
          (js ++ [.place l']))) = b + Item.codeSize js := by
        simp only [hb, Item.codeSize_append, Item.codeSize_cons, Item.codeSize_nil, Item.size]
        omega
      have hjump : a + Item.codeSize gs + Item.codeSize is < b :=
        hb ▸ Nat.lt_add_of_pos_right (Item.size_jump_pos .jmp l')
      have hbody := hosts.behind hguard.row
      have hbehindBody : Site.Row (a + Item.codeSize gs + Item.codeSize is) (a + Item.codeSize gs +
          Item.codeSize (is ++ .label :: .jump .jmp l' :: .place f :: (js ++ [.place l'])))
          g'.pieces := by
        refine (h'.row.mono hjump.le).extend ?_
        rw [← hend, Item.codeSize_append, Nat.add_assoc]
      have hmiddle : e.Hosts whole sites _ ([.jump .jmp l', .place f] ++ (js ++ [.place l']))
        ([] ++ g'.pieces) := (hbody.right h.row).tail rfl
      have hother : e.Hosts whole sites b (js ++ [.place l']) g'.pieces :=
        hb ▸ hmiddle.right (Nat.le_add_right _ _)
      have hplace : (b, .place f) ∈ Item.located 0 whole := hb ▸ hmiddle.stands.tail.mem
      have hg := ih (hbody.left hbehindBody) hbehind
      have hg' := ih' hother.init hbehind
      obtain ⟨hunmarked, hnext⟩ := hmiddle.next?_jump (h'.row.at?_eq_none (.inl hjump))
        hother.stands.right.mem
      rw [hend]
      refine ⟨List.forall_mem_cons.2 ⟨?_, List.forall_mem_append.2 ⟨hg.holds, hg'.holds⟩⟩,
        .branch (hosts.at?_start rfl hguard.codeSize_pos) rfl (hg.tracks.jump hunmarked hnext)
          hg'.tracks⟩
      exact hguard.exists_shortCircuits hosts.init.settled hosts.init.stands hplace
  | @loop l a b f t gs is cs g hguard h hb ih =>
      have hend : a + Item.codeSize (.label :: .place t :: (gs ++ (is ++ [.jump .jmp t, .place f]))) =
          b := by
        simp only [hb, Item.codeSize_append, Item.codeSize_cons, Item.codeSize_nil, Item.size]
        omega
      have htop := hosts.stands.tail.mem
      have hosts := (hosts.tail rfl).tail rfl
      have hbody := hosts.behind hguard.row
      have hback := hbody.last h.row
      have hplace : (b, .place f) ∈ Item.located 0 whole := hb ▸ hback.stands.tail.mem
      have hg := ih hbody.init fun _ hf => ⟨b, rfl, Option.some.inj hf ▸ hplace⟩
      obtain ⟨hunmarked, hnext⟩ := hback.next?_jump rfl htop
      rw [hend]
      refine ⟨List.forall_mem_cons.2 ⟨?_, hg.holds⟩, .loop (hosts.at?_start rfl hguard.codeSize_pos) rfl
        (hg.tracks.jump hunmarked hnext)⟩
      exact hguard.exists_shortCircuits hosts.init.settled hosts.init.stands hplace

end FlowCode

end MicroJava
