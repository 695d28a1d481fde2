import MicroJava.Proofs.Decoding
import MicroJava.Proofs.StackEffect

/-!
# Running code with conditional jumps

What a conditional jump does depends on the two values that the code before it pushed. `Run` leaves
the values open: an `order` tells for the address of every conditional jump how the values compare
that are found there. Straight code runs through (`Item.Stands.run_straight`), and a conditional
jump goes to its label or on, as its relation says (`Emitter.Assembles.run_jump`).
-/

namespace MicroJava

/-- Whether a relation holds between two values that compare in the given way. -/
def Relation.holds (o : Ordering) : Relation → Bool
  | eq => o.isEq
  | ne => o.isNe
  | lt => o.isLT
  | le => o.isLE
  | gt => o.isGT
  | ge => o.isGE

theorem Relation.holds_negation (o : Ordering) (r : Relation) :
    r.negation.holds o = !r.holds o := by
  cases r <;> cases o <;> rfl

/-- Values can be such that a relation holds between them, and such that it does not. -/
theorem Relation.exists_holds (r : Relation) (b : Bool) : ∃ o, r.holds o = b := by
  cases r <;> cases b <;> first | exact ⟨.lt, rfl⟩ | exact ⟨.eq, rfl⟩ | exact ⟨.gt, rfl⟩

/-- The relation that a conditional jump asks for. -/
def Opcode.relation? : Opcode → Option Relation
  | jeq => some .eq
  | jne => some .ne
  | jlt => some .lt
  | jle => some .le
  | jgt => some .gt
  | jge => some .ge
  | _ => none

@[simp] theorem Opcode.relation?_jump (r : Relation) : r.jump.relation? = some r := by
  cases r <;> rfl

theorem Opcode.relation?_eq_none {op : Opcode} (h : op.isJump = false) : op.relation? = none := by
  cases op <;> first | rfl | cases h

theorem Opcode.isJump_of_isStraight {op : Opcode} (h : op.isStraight = true) :
    op.isJump = false := by
  cases op <;> first | rfl | cases h

theorem Opcode.fallsThrough_of_isStraight {op : Opcode} (h : op.isStraight = true) :
    op.fallsThrough = true := by
  cases op <;> first | rfl | cases h

/-- Where execution goes on after an instruction, if the values at conditional jumps compare as
`order` says. A call comes back. -/
def Instruction.next? (order : Nat → Ordering) (i : Instruction) : Option Int :=
  match i.op.relation? with
  | some r => if r.holds (order i.pc) then i.target? else some (i.pc + i.op.size : Nat)
  | none => if i.op.fallsThrough then some (i.pc + i.op.size : Nat) else i.target?

theorem Instruction.next?_of_isStraight {order : Nat → Ordering} {i : Instruction}
    (h : i.op.isStraight = true) : i.next? order = some (i.pc + i.op.size : Nat) := by
  simp [next?, Opcode.relation?_eq_none (Opcode.isJump_of_isStraight h),
    Opcode.fallsThrough_of_isStraight h]

/-- Execution leads from one address to another one by way of the given instructions. -/
inductive Run (code : List Instruction) (order : Nat → Ordering) :
    Nat → List Instruction → Nat → Prop where
  | done (a : Nat) : Run code order a [] a
  | step {a b c : Nat} {i : Instruction} {is : List Instruction}
    (hi : code.find? (fun i => i.pc = a) = some i) (hnext : i.next? order = some (b : Int))
    (h : Run code order b is c) : Run code order a (i :: is) c

namespace Run

variable {code is js : List Instruction} {order : Nat → Ordering} {a b c : Nat}

theorem trans (h : Run code order a is b) (h' : Run code order b js c) :
    Run code order a (is ++ js) c := by
  induction h with
  | done a => exact h'
  | step hi hnext _ ih => exact .step hi hnext (ih h')

theorem single {i : Instruction} (hi : code.find? (fun i => i.pc = a) = some i)
    (hnext : i.next? order = some (b : Int)) : Run code order a [i] b :=
  .step hi hnext (.done b)

end Run

namespace Item

variable {target : Nat → Label → Int} {pc a : Nat} {i : Item} {is js whole : List Item}

/-- The instructions as they are read from the code of several items. -/
def decoded (target : Nat → Label → Int) (pc : Nat) (is : List Item) : List Instruction :=
  (instructions target pc is).map Instruction.readBack

@[simp] theorem decoded_nil : decoded target pc [] = [] := rfl

theorem decoded_append : decoded target pc (is ++ js) =
    decoded target pc is ++ decoded target (pc + codeSize is) js := by
  simp [decoded, instructions_append]

/-- Instructions are found where their items stand. -/
theorem find?_decoded {j : Instruction} (h : (a, i) ∈ located pc is)
    (hj : i.instruction? target a = some j) :
    (decoded target pc is).find? (fun i => i.pc = a) = some j.readBack := by
  apply List.find?_eq_some_of_forall
  · exact List.mem_map_of_mem (mem_instructions.2 ⟨a, i, h, hj⟩)
  · have hpc : j.pc = a := pc_of_instruction? hj
    exact decide_eq_true hpc
  · intro k hk hpc
    obtain ⟨j', hj', rfl⟩ := List.mem_map.1 hk
    obtain ⟨a', i', h', hinstruction⟩ := mem_instructions.1 hj'
    obtain rfl : a' = a := (pc_of_instruction? hinstruction).symm.trans (of_decide_eq_true hpc)
    have heq : i' = i := located_unique h' h (size_pos_of_instruction? hinstruction)
      (size_pos_of_instruction? hj)
    rw [heq, hj] at hinstruction
    rw [Option.some.inj hinstruction]

theorem bounds_of_mem_decoded {i : Instruction} (h : i ∈ decoded target pc is) :
    pc ≤ i.pc ∧ i.pc < pc + codeSize is := by
  obtain ⟨j, hj, rfl⟩ := List.mem_map.1 h
  obtain ⟨a, item, hitem, hinstruction⟩ := mem_instructions.1 hj
  have hbounds := bounds_of_mem_located hitem
  have hsize := size_pos_of_instruction? hinstruction
  have hpc : j.pc = a := pc_of_instruction? hinstruction
  change pc ≤ j.pc ∧ j.pc < _
  omega

/-- There is no conditional jump in straight code. -/
theorem relation?_of_mem_decoded (h : ∀ i ∈ is, i.IsStraight) {j : Instruction}
    (hj : j ∈ decoded target pc is) : j.op.relation? = none := by
  obtain ⟨k, hk, rfl⟩ := List.mem_map.1 hj
  obtain ⟨a, i, hi, hinstruction⟩ := mem_instructions.1 hk
  have hi := h i (mem_of_mem_located hi)
  cases i with
  | instruction op operands =>
      cases hinstruction
      exact Opcode.relation?_eq_none (Opcode.isJump_of_isStraight hi.1)
  | call address =>
      cases hinstruction
      rfl
  | _ => exact hi.elim

/-- The items stand in a whole at the given address. -/
def Stands (whole : List Item) (a : Nat) (is : List Item) : Prop :=
  ∃ before after, whole = before ++ is ++ after ∧ a = codeSize before

namespace Stands

theorem left (h : Stands whole a (is ++ js)) : Stands whole a is := by
  obtain ⟨before, after, rfl, rfl⟩ := h
  exact ⟨before, js ++ after, by simp, rfl⟩

theorem right (h : Stands whole a (is ++ js)) : Stands whole (a + codeSize is) js := by
  obtain ⟨before, after, rfl, rfl⟩ := h
  exact ⟨before ++ is, after, by simp, by simp⟩

theorem tail (h : Stands whole a (i :: is)) : Stands whole (a + i.size) is := by
  rw [← List.singleton_append] at h
  simpa using h.right

theorem mem (h : Stands whole a (i :: is)) : (a, i) ∈ located 0 whole := by
  obtain ⟨before, after, rfl, rfl⟩ := h
  rw [List.append_assoc, located_append, Nat.zero_add]
  exact List.mem_append_right _ List.mem_cons_self

/-- Items that stand in a whole are located there. -/
theorem mem_located (h : Stands whole a is) {b : Nat} (hi : (b, i) ∈ located a is) :
    (b, i) ∈ located 0 whole := by
  obtain ⟨before, after, rfl, rfl⟩ := h
  rw [located_append, located_append, Nat.zero_add]
  exact List.mem_append_left _ (List.mem_append_right _ hi)

/-- The instructions of the items are those between their beginning and their end. -/
theorem filter_decoded (h : Stands whole a is) :
    (decoded target 0 whole).filter (fun i => a ≤ i.pc && i.pc < a + codeSize is) =
      decoded target a is := by
  obtain ⟨before, after, rfl, rfl⟩ := h
  rw [decoded_append, decoded_append, codeSize_append, Nat.zero_add, Nat.zero_add, List.filter_append,
    List.filter_append]
  have hbefore : ∀ i ∈ decoded target 0 before, i.pc < codeSize before := by
    intro i hi
    simpa using (bounds_of_mem_decoded hi).2
  have hafter : ∀ i ∈ decoded target (codeSize before + codeSize is) after,
      codeSize before + codeSize is ≤ i.pc := fun i hi => (bounds_of_mem_decoded hi).1
  rw [List.filter_eq_nil_iff.2, List.filter_eq_self.2, List.filter_eq_nil_iff.2, List.nil_append,
    List.append_nil]
  · intro i hi
    simpa using fun _ => hafter i hi
  · intro i hi
    simpa using bounds_of_mem_decoded hi
  · intro i hi
    have := hbefore i hi
    simp
    omega

/-- Straight code runs through. -/
theorem run_straight {order : Nat → Ordering} (h : Stands whole a is) (his : ∀ i ∈ is, i.IsStraight) :
    Run (decoded target 0 whole) order a (decoded target a is) (a + codeSize is) := by
  induction is generalizing a with
  | nil => exact .done a
  | cons i is ih =>
      have hrest := ih h.tail fun j hj => his j (List.mem_cons_of_mem i hj)
      rw [codeSize_cons, ← Nat.add_assoc, ← List.singleton_append, decoded_append]
      have hi := his i List.mem_cons_self
      cases i with
      | instruction op operands =>
          refine .trans (.single (find?_decoded h.mem rfl) ?_) hrest
          exact Instruction.next?_of_isStraight hi.1
      | call address => exact .trans (.single (find?_decoded h.mem rfl) rfl) hrest
      | _ => exact hi.elim

end Stands

end Item

/-- A conditional jump leads to its label if its relation holds, and on otherwise. -/
theorem Emitter.Assembles.run_jump {e : Emitter} {whole : List Item} (h : e.Assembles whole)
    {order : Nat → Ordering} {a b : Nat} {r : Relation} {l : Label}
    (ha : (a, .jump r.jump l) ∈ Item.located 0 whole) (hb : (b, .place l) ∈ Item.located 0 whole)
    (hnear : isFar (b - a) = false) :
    Run (Item.decoded e.leadsTo 0 whole) order a (Item.decoded e.leadsTo a [.jump r.jump l])
      (if r.holds (order a) then b else a + (Item.jump r.jump l).size) := by
  have htarget : e.leadsTo a l = (b : Int) := by
    rw [leadsTo, (h.placed l b).2 hb, Option.getD_some]
  have hop : r.jump.hasTarget = true := by simp [Opcode.hasTarget, r.isJump_jump]
  have hread := Instruction.target?_readBack hop hnear
  have hrelation : (Instruction.readBack ⟨a, r.jump, [(b : Int)]⟩).op.relation? = some r :=
    Opcode.relation?_jump r
  apply Run.single (Item.find?_decoded ha rfl)
  rw [htarget, Instruction.next?, hread, hrelation]
  change (if r.holds (order a) = true then some (b : Int) else some ((a + r.jump.size : Nat) : Int)) = _
  split
  · rfl
  · rfl

end MicroJava
