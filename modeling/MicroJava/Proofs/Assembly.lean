import MicroJava.Proofs.Layout

/-!
# Assembling symbolic code

`e.Assembles is` says that the emitter `e` is what comes of writing the items `is`: a label is
placed where its item stands, the jumps that wait for a label are those to it, and the code has the
bytes of the items, where a jump to a label without a place leads to itself for the time being.
An item that the emitter accepts keeps this true (`Assembles.write`).

`Item.Leads is a t` says that the jump or call at `a` leads to `t`. Unless a way that is too far was
counted, all ways fit into their operands (`Assembles.near_write`).
-/

namespace MicroJava

/-- The address of a label that has one. -/
def LabelState.address? : LabelState → Option Nat
  | placed address => some address
  | pending _ => none

namespace Emitter

/-- The address of a label that has one. -/
def address? (e : Emitter) (l : Label) : Option Nat :=
  (e.label l).address?

/-- Where a jump at `pc` leads to. A label without a place stands for the jump itself. -/
def leadsTo (e : Emitter) (pc : Nat) (l : Label) : Int :=
  (((e.address? l).getD pc : Nat) : Int)

theorem address?_eq_some {e : Emitter} {l : Label} {a : Nat} :
    e.address? l = some a ↔ e.label l = .placed a := by
  unfold address?
  cases h : e.label l <;> simp [LabelState.address?]

theorem address?_eq_none {e : Emitter} {l : Label} :
    e.address? l = none ↔ ∃ sites, e.label l = .pending sites := by
  unfold address?
  cases h : e.label l <;> simp [LabelState.address?]

theorem lt_of_address? {e : Emitter} {l : Label} {a : Nat} (h : e.address? l = some a) :
    l < e.labels.size := by
  rw [address?_eq_some] at h
  by_contra hl
  simp [label, Array.getElem?_eq_none (Nat.le_of_not_lt hl), LabelState.fresh] at h

/-! ### Effects on the parts of an emitter -/

section Parts

variable (e : Emitter)

@[simp] theorem toList_code_emit (op : Opcode) (operands : List Int) :
    (e.emit op operands).code.toList = e.code.toList ++ Instruction.encode ⟨e.pc, op, operands⟩ := by
  simp [emit, append]

@[simp] theorem labels_emit (op : Opcode) (operands : List Int) :
    (e.emit op operands).labels = e.labels := rfl

@[simp] theorem clash_emit (op : Opcode) (operands : List Int) :
    (e.emit op operands).clash = e.clash := rfl

@[simp] theorem farCount_emit (op : Opcode) (operands : List Int) :
    (e.emit op operands).farCount = e.farCount := rfl

@[simp] theorem code_noteWay (way : Int) : (e.noteWay way).code = e.code := by
  unfold noteWay
  split <;> rfl

@[simp] theorem labels_noteWay (way : Int) : (e.noteWay way).labels = e.labels := by
  unfold noteWay
  split <;> rfl

@[simp] theorem clash_noteWay (way : Int) : (e.noteWay way).clash = e.clash := by
  unfold noteWay
  split <;> rfl

@[simp] theorem pc_noteWay (way : Int) : (e.noteWay way).pc = e.pc := by
  rw [pc, code_noteWay, pc]

theorem farCount_noteWay (way : Int) : (e.noteWay way).farCount =
    e.farCount + if isFar way then 1 else 0 := by
  unfold noteWay
  split <;> rfl

/-- The bytes of a jump. Without a place of its label it leads to itself for the time being. -/
theorem toList_code_jump (op : Opcode) (l : Label) : (e.jump op l).code.toList =
    e.code.toList ++ Instruction.encode ⟨e.pc, op, [e.leadsTo e.pc l]⟩ := by
  unfold jump
  cases hl : e.label l with
  | placed a => simp [emitTo, leadsTo, address?, hl, LabelState.address?]
  | pending sites => simp [leadsTo, address?, hl, LabelState.address?, setLabel, pc]

@[simp] theorem clash_jump (op : Opcode) (l : Label) : (e.jump op l).clash = e.clash := by
  unfold jump
  split <;> simp [emitTo, setLabel]

@[simp] theorem labels_resolve (address site : Nat) :
    (resolve address e site).labels = e.labels :=
  labels_noteWay e _

@[simp] theorem clash_resolve (address site : Nat) :
    (resolve address e site).clash = e.clash :=
  clash_noteWay e _

@[simp] theorem labels_foldl_resolve (address : Nat) (sites : List Nat) :
    (sites.foldl (resolve address) e).labels = e.labels := by
  induction sites generalizing e with
  | nil => rfl
  | cons site sites ih => rw [List.foldl_cons, ih, labels_resolve]

@[simp] theorem clash_foldl_resolve (address : Nat) (sites : List Nat) :
    (sites.foldl (resolve address) e).clash = e.clash := by
  induction sites generalizing e with
  | nil => rfl
  | cons site sites ih => rw [List.foldl_cons, ih, clash_resolve]

theorem clash_place {l : Label} (h : e.address? l = none) : (e.place l).clash = e.clash := by
  rcases address?_eq_none.1 h with ⟨sites, hl⟩
  rw [place, hl]
  exact clash_foldl_resolve _ _ _

/-- A new label is pending like one that was never made. -/
@[simp] theorem label_addLabel (l : Label) : e.addLabel.label l = e.label l := by
  unfold label addLabel
  rw [Array.getElem?_push]
  split
  · next h => simp [h]
  · rfl

theorem label_setLabel {l : Label} (hl : l < e.labels.size) (s : LabelState) (l' : Label) :
    (e.setLabel l s).label l' = if l' = l then s else e.label l' := by
  unfold label setLabel
  rw [Array.getElem?_setIfInBounds]
  split_ifs with h h' h'
  · simp
  · exact absurd h.symm h'
  · exact absurd h'.symm h
  · rfl

end Parts

/-! ### Labels -/

section Labels

variable {e : Emitter} {l l' : Label}

/-- The items that an emitter can assemble: a jump leads to a label that was made, and the label
that is placed was made and not yet placed. -/
def Accepts (e : Emitter) : Item → Prop
  | .jump op l => op.isJump = true ∧ l < e.labels.size
  | .place l => l < e.labels.size ∧ e.address? l = none
  | i => i.WellFormed

theorem Accepts.wellFormed {i : Item} (h : e.Accepts i) : i.WellFormed := by
  cases i with
  | jump op l => exact h.1
  | place l => trivial
  | _ => exact h

theorem Accepts.of_isStraight {i : Item} (h : i.IsStraight) : e.Accepts i := by
  cases i with
  | instruction op operands => exact h.isInner.wellFormed
  | call address => trivial
  | _ => exact h.elim

theorem label_congr {e' : Emitter} (h : e'.labels = e.labels) (l : Label) :
    e'.label l = e.label l := by
  rw [label, label, h]

@[simp] theorem label_emitTo (op : Opcode) (target : Int) :
    (e.emitTo op target).label l = e.label l :=
  label_congr (labels_noteWay e _) l

/-- The labels after a jump: those that wait for `l` are one more. -/
theorem label_jump {op : Opcode} (hl : l < e.labels.size) : (e.jump op l).label l' =
    match e.label l with
    | .placed _ => e.label l'
    | .pending sites => if l' = l then .pending ((e.pc + 1) :: sites) else e.label l' := by
  unfold jump
  cases h : e.label l with
  | placed address => exact label_emitTo op address
  | pending sites =>
      change ((e.setLabel l (.pending ((e.pc + 1) :: sites))).emit op [(e.pc : Int)]).label l' =
        if l' = l then .pending ((e.pc + 1) :: sites) else e.label l'
      rw [label_congr (labels_emit _ _ _), label_setLabel e hl]

theorem label_place (hl : l < e.labels.size) (h : e.address? l = none) :
    (e.place l).label l' = if l' = l then .placed e.pc else e.label l' := by
  rcases address?_eq_none.1 h with ⟨sites, hsites⟩
  unfold place
  rw [hsites, ← label_setLabel e hl, label_congr (labels_foldl_resolve _ _ _)]

/-- Only placing a label gives it an address. -/
theorem address?_write {i : Item} (hi : e.Accepts i) : (e.write i).address? l' =
    if i = .place l' then some e.pc else e.address? l' := by
  cases i with
  | jump op l =>
      rw [if_neg Item.noConfusion]
      change ((e.jump op l).label l').address? = _
      rw [label_jump hi.2]
      cases h : e.label l with
      | placed a => rfl
      | pending sites =>
          by_cases hl' : l' = l
          · simp [hl', address?, h, LabelState.address?]
          · simp [hl', address?]
  | place l =>
      change ((e.place l).label l').address? = _
      rw [label_place hi.1 hi.2]
      by_cases hl' : l' = l
      · simp [hl', LabelState.address?]
      · simp [hl', Ne.symm hl', address?]
  | label =>
      rw [if_neg Item.noConfusion]
      change (e.addLabel.label l').address? = _
      rw [label_addLabel, address?]
  | statement => rfl
  | instruction op operands => rfl
  | call address =>
      rw [if_neg Item.noConfusion]
      change ((e.emitTo .call address).label l').address? = _
      rw [label_emitTo, address?]

theorem size_labels_write (i : Item) : (e.write i).labels.size =
    e.labels.size + if i = .label then 1 else 0 := by
  cases i with
  | jump op l =>
      change (e.jump op l).labels.size = _
      unfold jump
      split <;> simp [emitTo, setLabel]
  | place l =>
      change (e.place l).labels.size = _
      unfold place
      split <;> simp [setLabel]
  | label => simp [write, addLabel]
  | call address => simp [write, emitTo]
  | _ => rfl

end Labels

end Emitter

namespace Item

/-- Where a jump or call leads to: a jump to where its label is placed, a call to the address that
it names. -/
inductive Leads (is : List Item) : Nat → Int → Prop where
  | jump {a t : Nat} {op : Opcode} {l : Label} (h : (a, .jump op l) ∈ located 0 is)
    (h' : (t, .place l) ∈ located 0 is) : Leads is a t
  | call {a : Nat} {t : Int} (h : (a, .call t) ∈ located 0 is) : Leads is a t

/-- More items leave a jump or call leading to where it leads. -/
theorem Leads.append {is : List Item} {a : Nat} {t : Int} (h : Leads is a t) (js : List Item) :
    Leads (is ++ js) a t := by
  have hold {j : Nat × Item} (hj : j ∈ located 0 is) : j ∈ located 0 (is ++ js) := by
    rw [located_append]
    exact List.mem_append_left _ hj
  cases h with
  | jump h h' => exact .jump (hold h) (hold h')
  | call h => exact .call (hold h)

end Item

namespace Emitter

/-- The emitter is what comes of writing the items. -/
structure Assembles (e : Emitter) (is : List Item) : Prop where
  wellFormed : ∀ i ∈ is, i.WellFormed
  placed : ∀ l a, e.address? l = some a ↔ (a, .place l) ∈ Item.located 0 is
  sites : ∀ l sites, e.label l = .pending sites →
    ∀ site, site ∈ sites ↔ ∃ a op, site = a + 1 ∧ (a, .jump op l) ∈ Item.located 0 is
  known : ∀ op l, .jump op l ∈ is → l < e.labels.size
  code : e.code.toList = Item.bytes e.leadsTo 0 is
  clash : e.clash = none

theorem assembles_empty : Emitter.empty.Assembles [] where
  wellFormed := by simp
  placed := by simp [address?, label, empty, LabelState.fresh, LabelState.address?]
  sites := by simp [label, empty, LabelState.fresh]
  known := by simp
  code := rfl
  clash := rfl

namespace Assembles

variable {e : Emitter} {is : List Item} {i : Item}

theorem pc_eq (h : e.Assembles is) : e.pc = Item.codeSize is := by
  rw [pc, ← Array.length_toList, h.code, Item.length_bytes h.wellFormed]

theorem located_concat (h : e.Assembles is) (i : Item) :
    Item.located 0 (is ++ [i]) = Item.located 0 is ++ [(e.pc, i)] := by
  rw [Item.located_append, ← h.pc_eq, Nat.zero_add]
  rfl

/-- The bytes of the code when one item more is written, for the targets that are known then. -/
theorem bytes_concat (h : e.Assembles is) (target : Nat → Label → Int) (i : Item) :
    Item.bytes target 0 (is ++ [i]) = Item.bytes target 0 is ++ i.encode target e.pc := by
  rw [Item.bytes_append, Item.bytes_cons, Item.bytes_nil, List.append_nil, ← h.pc_eq, Nat.zero_add]

theorem wellFormed_write (h : e.Assembles is) (hi : e.Accepts i) :
    ∀ j ∈ is ++ [i], j.WellFormed := by
  intro j hj
  rcases List.mem_append.1 hj with hj | hj
  · exact h.wellFormed j hj
  · rw [List.mem_singleton.1 hj]
    exact hi.wellFormed

theorem placed_write (h : e.Assembles is) (hi : e.Accepts i) (l : Label) (a : Nat) :
    (e.write i).address? l = some a ↔ (a, .place l) ∈ Item.located 0 (is ++ [i]) := by
  rw [address?_write hi, h.located_concat, List.mem_append, List.mem_singleton, Prod.mk.injEq,
    ← h.placed]
  by_cases hl : i = .place l
  · subst hl
    simp [hi.2, eq_comm]
  · simp [hl, Ne.symm hl]

theorem known_write (h : e.Assembles is) (hi : e.Accepts i) (op : Opcode) (l : Label)
    (hj : .jump op l ∈ is ++ [i]) : l < (e.write i).labels.size := by
  rw [size_labels_write]
  rcases List.mem_append.1 hj with hj | hj
  · exact Nat.lt_add_right _ (h.known op l hj)
  · rw [← List.mem_singleton.1 hj] at hi ⊢
    exact hi.2

theorem sites_write (h : e.Assembles is) (hi : e.Accepts i) (l : Label) (sites : List Nat)
    (hl : (e.write i).label l = .pending sites) (site : Nat) :
    site ∈ sites ↔ ∃ a op, site = a + 1 ∧ (a, .jump op l) ∈ Item.located 0 (is ++ [i]) := by
  simp only [h.located_concat, List.mem_append, List.mem_singleton, Prod.mk.injEq]
  have hold : ∀ sites, e.label l = .pending sites → (∀ op, i ≠ .jump op l) →
      (site ∈ sites ↔ ∃ a op, site = a + 1 ∧
        ((a, .jump op l) ∈ Item.located 0 is ∨ a = e.pc ∧ .jump op l = i)) := by
    intro sites hl hne
    rw [h.sites l sites hl site]
    simp [fun op => Ne.symm (hne op)]
  cases i with
  | jump op m =>
      change (e.jump op m).label l = _ at hl
      rw [label_jump hi.2] at hl
      cases hm : e.label m with
      | placed a =>
          rw [hm] at hl
          refine hold sites hl fun op' heq => ?_
          rcases heq with ⟨rfl, rfl⟩
          simp [hm] at hl
      | pending old =>
          simp only [hm] at hl
          by_cases hlm : l = m
          · subst hlm
            rw [if_pos rfl, LabelState.pending.injEq] at hl
            rw [← hl, List.mem_cons, h.sites l old hm site]
            constructor
            · rintro (rfl | ⟨a, op', rfl, ha⟩)
              · exact ⟨_, op, rfl, .inr ⟨rfl, rfl⟩⟩
              · exact ⟨a, op', rfl, .inl ha⟩
            · rintro ⟨a, op', rfl, ha | ⟨rfl, -⟩⟩
              · exact .inr ⟨a, op', rfl, ha⟩
              · exact .inl rfl
          · rw [if_neg hlm] at hl
            exact hold sites hl fun op' heq => hlm (Item.jump.inj heq).2.symm
  | place m =>
      change (e.place m).label l = _ at hl
      rw [label_place hi.1 hi.2] at hl
      split at hl
      · cases hl
      · exact hold sites hl fun op' heq => Item.noConfusion heq
  | label =>
      change e.addLabel.label l = _ at hl
      rw [label_addLabel] at hl
      exact hold sites hl fun op' heq => Item.noConfusion heq
  | call address =>
      change (e.emitTo .call address).label l = _ at hl
      rw [label_emitTo] at hl
      exact hold sites hl fun op' heq => Item.noConfusion heq
  | _ => exact hold sites hl fun op' heq => Item.noConfusion heq

/-- Filling in the ways to the label `l` at some sites changes the targets of these jumps. -/
theorem code_foldl_resolve {target : Nat → Label → Int} {l : Label} {address : Nat}
    {sites : List Nat} (hwell : ∀ i ∈ is, i.WellFormed)
    (hsites : ∀ site ∈ sites, ∃ a op, site = a + 1 ∧ (a, .jump op l) ∈ Item.located 0 is)
    (hcode : e.code.toList = Item.bytes target 0 is) :
    (sites.foldl (resolve address) e).code.toList =
      Item.bytes (fun pc m => if pc + 1 ∈ sites then address else target pc m) 0 is := by
  induction sites generalizing e target with
  | nil => simpa using hcode
  | cons site sites ih =>
      rcases hsites site List.mem_cons_self with ⟨a, op, rfl, ha⟩
      have hresolve : (resolve address e (a + 1)).code.toList =
          Item.bytes (Function.update target a fun _ => address) 0 is := by
        rw [← Item.fillIn_bytes hcode hwell ha]
        simp [resolve]
      rw [List.foldl_cons, ih (fun s hs => hsites s (List.mem_cons_of_mem _ hs)) hresolve]
      congr 1
      funext pc m
      by_cases hpc : pc = a
      · subst hpc
        simp
      · simp [hpc, Function.update_of_ne]

/-- A jump whose way is filled in leads to the label that is placed. -/
theorem bytes_place (h : e.Assembles is) {l : Label} {sites : List Nat}
    (hl : e.label l = .pending sites) (hi : e.Accepts (.place l)) :
    Item.bytes (fun pc m => if pc + 1 ∈ sites then e.pc else e.leadsTo pc m) 0 is =
      Item.bytes (e.write (.place l)).leadsTo 0 is := by
  refine Item.bytes_congr fun a op m ha => ?_
  rw [leadsTo, leadsTo, address?_write hi]
  by_cases hm : m = l
  · subst hm
    have hmem : a + 1 ∈ sites := (h.sites m sites hl _).2 ⟨a, op, rfl, ha⟩
    simp [hmem]
  · have hmem : a + 1 ∉ sites := by
      intro hmem
      rcases (h.sites l sites hl _).1 hmem with ⟨b, op', hab, hb⟩
      obtain rfl : a = b := by omega
      have := Item.located_unique ha hb (Item.size_jump_pos _ _) (Item.size_jump_pos _ _)
      exact hm (Item.jump.inj this).2
    simp [hmem, Ne.symm hm]

theorem code_write (h : e.Assembles is) (hi : e.Accepts i) :
    (e.write i).code.toList = Item.bytes (e.write i).leadsTo 0 (is ++ [i]) := by
  rw [h.bytes_concat]
  have hold : (∀ l, i ≠ .place l) → (e.write i).leadsTo = e.leadsTo := by
    intro hne
    funext pc l
    rw [leadsTo, address?_write hi, if_neg (hne l), leadsTo]
  cases i with
  | place l =>
      rcases address?_eq_none.1 hi.2 with ⟨sites, hl⟩
      have hsites : ∀ site ∈ sites, ∃ a op, site = a + 1 ∧ (a, .jump op l) ∈ Item.located 0 is :=
        fun site => (h.sites l sites hl site).1
      have hcode : (sites.foldl (resolve e.pc) (e.setLabel l (.placed e.pc))).code.toList = _ :=
        code_foldl_resolve h.wellFormed hsites h.code
      change (e.place l).code.toList = _ ++ []
      rw [List.append_nil, ← h.bytes_place hl hi, ← hcode, place, hl]
  | jump op l =>
      rw [hold fun _ => Item.noConfusion, ← h.code]
      exact toList_code_jump e op l
  | call address =>
      rw [hold fun _ => Item.noConfusion, ← h.code]
      change (e.emitTo .call address).code.toList = _
      simp [emitTo, Item.encode, Item.instruction?]
  | instruction op operands =>
      rw [hold fun _ => Item.noConfusion, ← h.code]
      exact toList_code_emit e op operands
  | label =>
      rw [hold fun _ => Item.noConfusion, ← h.code]
      exact (List.append_nil _).symm
  | statement =>
      rw [hold fun _ => Item.noConfusion, ← h.code]
      exact (List.append_nil _).symm

theorem clash_write (h : e.Assembles is) (hi : e.Accepts i) : (e.write i).clash = none := by
  rw [← h.clash]
  cases i with
  | jump op l => exact clash_jump e op l
  | place l => exact clash_place e hi.2
  | call address => simp [Emitter.write, emitTo]
  | _ => rfl

/-- The emitter goes on to assemble if it accepts the next item. -/
theorem write (h : e.Assembles is) (hi : e.Accepts i) : (e.write i).Assembles (is ++ [i]) where
  wellFormed := h.wellFormed_write hi
  placed := h.placed_write hi
  sites := h.sites_write hi
  known := h.known_write hi
  code := h.code_write hi
  clash := h.clash_write hi

end Assembles

/-! ### Ways that are too far -/

/-- Unless a way was too far since the count began anew, the ways of all jumps and calls from the
address `n` on fit into their operands. -/
def Near (e : Emitter) (n : Nat) (is : List Item) : Prop :=
  e.farCount = 0 → ∀ a t, n ≤ a → Item.Leads is a t → isFar (t - a) = false

theorem countP_farCount_foldl_resolve (e : Emitter) (address : Nat) (sites : List Nat) :
    (sites.foldl (resolve address) e).farCount =
      e.farCount + sites.countP fun site : Nat => isFar (address - (site - 1)) := by
  induction sites generalizing e with
  | nil => rfl
  | cons site sites ih =>
      have hsite : (resolve address e site).farCount =
          e.farCount + if isFar (address - (site - 1)) then 1 else 0 := farCount_noteWay e _
      rw [List.foldl_cons, ih, hsite, List.countP_cons]
      omega

/-- The ways that are known when an item is written: the way of a jump or call to a known address, and
those of the jumps that waited for a label. -/
def ways (e : Emitter) : Item → List Int
  | .jump _ l => ((e.address? l).map fun a : Nat => (a : Int) - e.pc).toList
  | .place l => (e.label l).sites.map fun site : Nat => (e.pc : Int) - (site - 1)
  | .call address => [address - e.pc]
  | _ => []

/-- Of the ways that become known those are counted that are too far. -/
theorem farCount_write (e : Emitter) (i : Item) :
    (e.write i).farCount = e.farCount + (e.ways i).countP isFar := by
  have hto (op : Opcode) (target : Int) : (e.emitTo op target).farCount =
      e.farCount + [target - e.pc].countP isFar := by
    rw [emitTo, farCount_emit, farCount_noteWay, List.countP_singleton]
  cases i with
  | jump op l =>
      change (e.jump op l).farCount = e.farCount + (e.ways (.jump op l)).countP isFar
      unfold jump
      split
      · next a hl => rw [hto, ways, address?_eq_some.2 hl, Option.map_some, Option.toList_some]
      · next sites hl =>
          rw [ways, address?_eq_none.2 ⟨sites, hl⟩]
          rfl
  | place l =>
      change (e.place l).farCount = e.farCount + (e.ways (.place l)).countP isFar
      unfold place
      split
      · next sites hl =>
          rw [countP_farCount_foldl_resolve, ways, hl, List.countP_map]
          rfl
      · next a hl =>
          rw [ways, hl]
          rfl
  | call address => exact hto _ _
  | _ => rfl

/-- The jumps before the address `n` lead to labels that have their places. If a way was too far since
the count began anew, it is that of a jump or call from `n` on. -/
structure Measured (e : Emitter) (n : Nat) (is : List Item) : Prop where
  le : n ≤ e.pc
  settled : ∀ a op l, (a, .jump op l) ∈ Item.located 0 is → a < n → e.address? l ≠ none
  far : e.farCount ≠ 0 → ∃ a t, n ≤ a ∧ Item.Leads is a t ∧ isFar (t - a) = true

namespace Assembles

variable {e : Emitter} {is : List Item} {i : Item} {n : Nat}

/-- A jump or call leads on as before, or it is the new item, or its label is placed now. -/
theorem leads_concat (h : e.Assembles is) {a : Nat} {t : Int}
    (hl : Item.Leads (is ++ [i]) a t) :
    Item.Leads is a t ∨
      (∃ op l p, i = .jump op l ∧ a = e.pc ∧ t = (p : Nat) ∧ e.address? l = some p) ∨
      (∃ op l, i = .place l ∧ (a, .jump op l) ∈ Item.located 0 is ∧ t = e.pc) ∨
      (i = .call t ∧ a = e.pc) := by
  cases hl with
  | @jump p op l hj hp =>
      rw [h.located_concat] at hj hp
      simp only [List.mem_append, List.mem_singleton, Prod.mk.injEq] at hj hp
      rcases hj with hj | ⟨rfl, rfl⟩ <;> rcases hp with hp | ⟨rfl, hp⟩
      · exact .inl (.jump hj hp)
      · exact .inr (.inr (.inl ⟨op, l, hp.symm, hj, rfl⟩))
      · exact .inr (.inl ⟨op, l, p, rfl, rfl, rfl, (h.placed l p).2 hp⟩)
      · exact Item.noConfusion hp
  | call hc =>
      rw [h.located_concat] at hc
      rcases List.mem_append.1 hc with hc | hc
      · exact .inl (.call hc)
      · rcases Prod.mk.inj (List.mem_singleton.1 hc) with ⟨rfl, rfl⟩
        exact .inr (.inr (.inr ⟨rfl, rfl⟩))

/-- A jump or call leads on as before, or its way becomes known now. -/
theorem leads_or_mem_ways (h : e.Assembles is) (hi : e.Accepts i) {a : Nat} {t : Int}
    (hl : Item.Leads (is ++ [i]) a t) : Item.Leads is a t ∨ t - a ∈ e.ways i := by
  rcases h.leads_concat hl with hl | ⟨op, l, p, rfl, rfl, rfl, hp⟩ | ⟨op, l, rfl, hj, rfl⟩ |
    ⟨rfl, rfl⟩
  · exact .inl hl
  · exact .inr (by simp [ways, hp])
  · rcases address?_eq_none.1 hi.2 with ⟨sites, hs⟩
    have hmem : a + 1 ∈ sites := (h.sites l sites hs _).2 ⟨a, op, rfl, hj⟩
    exact .inr (List.mem_map.2 ⟨a + 1, by rwa [hs], by omega⟩)
  · exact .inr (List.mem_singleton_self _)

/-- A way that becomes known is that of the new item or of a jump that waited for its label. -/
theorem exists_leads_of_mem_ways (h : e.Assembles is) {way : Int} (hw : way ∈ e.ways i) :
    ∃ (a : Nat) (t : Int), Item.Leads (is ++ [i]) a t ∧ t - a = way ∧
      (a = e.pc ∨ ∃ op l, i = .place l ∧ (a, .jump op l) ∈ Item.located 0 is) := by
  have hnew : (e.pc, i) ∈ Item.located 0 (is ++ [i]) := by
    rw [h.located_concat]
    exact List.mem_append_right _ (List.mem_singleton_self _)
  have hold {j : Nat × Item} (hj : j ∈ Item.located 0 is) : j ∈ Item.located 0 (is ++ [i]) := by
    rw [h.located_concat]
    exact List.mem_append_left _ hj
  cases i with
  | jump op l =>
      obtain ⟨p, hp, rfl⟩ : ∃ p, e.address? l = some p ∧ (p : Int) - e.pc = way := by
        simpa [ways] using hw
      exact ⟨e.pc, p, .jump hnew (hold ((h.placed l p).1 hp)), rfl, .inl rfl⟩
  | place l =>
      obtain ⟨site, hsite, rfl⟩ := List.mem_map.1 hw
      cases hl : e.label l with
      | placed a =>
          rw [hl] at hsite
          cases hsite
      | pending sites =>
          rw [hl] at hsite
          obtain ⟨a, op, rfl, ha⟩ := (h.sites l sites hl site).1 hsite
          exact ⟨a, e.pc, .jump (hold ha) hnew, by omega, .inr ⟨op, l, rfl, ha⟩⟩
  | call t =>
      obtain rfl := List.mem_singleton.1 hw
      exact ⟨e.pc, t, .call hnew, rfl, .inl rfl⟩
  | _ => cases hw

theorem near_write (h : e.Assembles is) (hi : e.Accepts i) (hn : e.Near n is) :
    (e.write i).Near n (is ++ [i]) := by
  intro hzero a t ha hl
  rw [farCount_write, Nat.add_eq_zero_iff, List.countP_eq_zero] at hzero
  rcases h.leads_or_mem_ways hi hl with hl | hway
  · exact hn hzero.1 a t ha hl
  · exact Bool.eq_false_iff.2 (hzero.2 _ hway)

theorem measured_write (h : e.Assembles is) (hi : e.Accepts i) (hm : e.Measured n is) :
    (e.write i).Measured n (is ++ [i]) := by
  have hpc : e.pc ≤ (e.write i).pc := by
    rw [h.pc_eq, (h.write hi).pc_eq, Item.codeSize_append]
    exact Nat.le_add_right _ _
  refine ⟨Nat.le_trans hm.le hpc, fun a op l hj ha => ?_, fun hfar => ?_⟩
  · rw [h.located_concat] at hj
    rcases List.mem_append.1 hj with hj | hj
    · rw [address?_write hi]
      split
      · exact Option.some_ne_none _
      · exact hm.settled a op l hj ha
    · obtain ⟨rfl, -⟩ := Prod.mk.inj (List.mem_singleton.1 hj)
      exact absurd ha (Nat.not_lt.2 hm.le)
  · by_cases hzero : e.farCount = 0
    · rw [farCount_write, hzero, Nat.zero_add] at hfar
      obtain ⟨_, hway, hfar⟩ := List.countP_pos_iff.1 (Nat.pos_of_ne_zero hfar)
      obtain ⟨a, t, hl, rfl, ha⟩ := h.exists_leads_of_mem_ways hway
      refine ⟨a, t, ?_, hl, hfar⟩
      rcases ha with rfl | ⟨op, l, rfl, hj⟩
      · exact hm.le
      · -- the label has no place yet, so the jump stands behind `n`
        by_contra hlt
        exact hm.settled a op l hj (Nat.not_le.1 hlt) hi.2
    · obtain ⟨a, t, ha, hl, hfar⟩ := hm.far hzero
      exact ⟨a, t, ha, hl.append [i], hfar⟩

/-- There is no jump or call behind the end of the code. -/
theorem near_pc (h : e.Assembles is) : e.Near e.pc is := by
  intro _ a t ha hl
  rw [h.pc_eq] at ha
  cases hl with
  | @jump _ op l hj _ =>
      have := Item.bounds_of_mem_located hj
      have := Item.size_jump_pos op l
      omega
  | call hc =>
      have := Item.bounds_of_mem_located hc
      have := Item.size_call_pos t
      omega

/-- A new count begins where all labels have their places. -/
theorem measured_pc (h : e.Assembles is) (hplaced : ∀ l, l < e.labels.size → e.address? l ≠ none)
    (hzero : e.farCount = 0) : e.Measured e.pc is where
  le := Nat.le_refl _
  settled := fun _ op l hj _ => hplaced l (h.known op l (Item.mem_of_mem_located hj))
  far := fun hfar => absurd hzero hfar

/-- A jump or call leads to one address only. -/
theorem leads_unique (h : e.Assembles is) {a : Nat} {t t' : Int} (hl : Item.Leads is a t)
    (hl' : Item.Leads is a t') : t = t' := by
  cases hl with
  | @jump p op l hj hp =>
      cases hl' with
      | @jump p' op' l' hj' hp' =>
          have := Item.located_unique hj hj' (Item.size_jump_pos _ _) (Item.size_jump_pos _ _)
          rcases Item.jump.inj this with ⟨rfl, rfl⟩
          rw [Option.some.inj (((h.placed l p).2 hp).symm.trans ((h.placed l p').2 hp'))]
      | call hc =>
          have := Item.located_unique hj hc (Item.size_jump_pos _ _) (Item.size_call_pos _)
          cases this
  | call hc =>
      cases hl' with
      | jump hj' hp' =>
          have := Item.located_unique hj' hc (Item.size_jump_pos _ _) (Item.size_call_pos _)
          cases this
      | call hc' =>
          have := Item.located_unique hc hc' (Item.size_call_pos _) (Item.size_call_pos _)
          exact Item.call.inj this

end Assembles

end Emitter

end MicroJava
