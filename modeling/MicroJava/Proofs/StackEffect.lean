import Mathlib.Data.Nat.Basic
import Mathlib.Order.Basic
import MicroJava.Proofs.Layout

/-!
# Stack depths along symbolic code

`Opcode.pops` and `Opcode.pushes` are the numbers of words that an operation takes from the stack
and leaves there. `Walk sig result d is d'` follows the items `is` from the depth `d` to the depth
`d'`, where no instruction pops more than is there, jumps leave nothing on the stack, labels and
statements stand where there is nothing on it, and a method is left with `result` words on it.

A walk gives every address a depth (`Walk.exists_depth`), and each item takes the depth at its
address to that behind it.
-/

namespace MicroJava

namespace Opcode

/-- The number of words that an operation pops. Those of a call depend on the method. -/
def pops : Opcode → Nat
  | store | store0 | store1 | store2 | store3 | putStatic | getField | neg | newArray
  | arrayLength | pop | dup => 1
  | putField | add | sub | mul | div | rem | shl | shr | aload | baload | dup2
  | jeq | jne | jlt | jle | jgt | jge | print | bprint => 2
  | astore | bastore => 3
  | _ => 0

/-- The number of words that an operation pushes. Those of a call depend on the method. -/
def pushes : Opcode → Nat
  | load | load0 | load1 | load2 | load3 | getStatic | getField
  | const0 | const1 | const2 | const3 | const4 | const5 | constM1 | const
  | add | sub | mul | div | rem | neg | shl | shr | new | newArray | aload | baload | arrayLength
  | read | bread => 1
  | dup => 2
  | dup2 => 4
  | _ => 0

/-- Whether execution may go on with the next instruction. -/
def fallsThrough (op : Opcode) : Bool :=
  op ≠ .jmp && op ≠ .ret && op ≠ .trap

theorem pushes_of_isJump {op : Opcode} (h : op.isJump = true) : op.pushes = 0 := by
  cases op <;> first | rfl | cases h

end Opcode

/-- The numbers of words that a call of the method at an address pops and pushes. -/
abbrev CallEffect := Int → Nat × Nat

/-- An item takes the depth of the stack from the first number to the second one. Nothing follows a
return, so the depth behind it is free. -/
inductive Item.Takes (sig : CallEffect) (result : Nat) : Nat → Item → Nat → Prop where
  | straight (d : Nat) {op : Opcode} (operands : List Int) (h : op.isStraight = true) :
    Takes sig result (d + op.pops) (.instruction op operands) (d + op.pushes)
  | call (d : Nat) (a : Int) : Takes sig result (d + (sig a).1) (.call a) (d + (sig a).2)
  | enter (operands : List Int) : Takes sig result 0 (.instruction .enter operands) 0
  | exit : Takes sig result result (.instruction .exit []) result
  | ret (d d' : Nat) : Takes sig result d (.instruction .ret []) d'
  | trap (operands : List Int) : Takes sig result 0 (.instruction .trap operands) 0
  | jump (op : Opcode) (l : Label) : Takes sig result op.pops (.jump op l) 0
  | label : Takes sig result 0 .label 0
  | place (l : Label) : Takes sig result 0 (.place l) 0
  | statement : Takes sig result 0 .statement 0

/-- An item that takes no room leaves the depth as it is. -/
theorem Item.Takes.eq_of_size {sig : CallEffect} {result d d' : Nat} {i : Item}
    (h : i.Takes sig result d d') (hsize : i.size = 0) :
    d' = d := by
  cases h with
  | label => rfl
  | place l => rfl
  | statement => rfl
  | call a => exact absurd hsize (Item.size_call_pos _).ne'
  | jump op l => exact absurd hsize (Item.size_jump_pos op l).ne'
  | _ => exact absurd hsize (Item.size_jump_pos _ 0).ne'

/-- What an instruction that is no call takes from the stack is there, and it leaves the rest and what
it pushes to the instruction behind it. -/
theorem Item.Takes.instruction {sig : CallEffect} {result d d' : Nat} {op : Opcode}
    {operands : List Int} (h : (Item.instruction op operands).Takes sig result d d') :
    op.pops ≤ d ∧ (op.fallsThrough = true → d' = d - op.pops + op.pushes) := by
  cases h with
  | straight k => exact ⟨Nat.le_add_left _ _, fun _ => by rw [Nat.add_sub_cancel]⟩
  | enter => exact ⟨le_rfl, fun _ => rfl⟩
  | exit => exact ⟨Nat.zero_le _, fun _ => rfl⟩
  | ret => exact ⟨Nat.zero_le _, fun h => by cases h⟩
  | trap => exact ⟨Nat.zero_le _, fun h => by cases h⟩

theorem Item.Takes.of_jump {sig : CallEffect} {result d d' : Nat} {op : Opcode} {l : Label}
    (h : (Item.jump op l).Takes sig result d d') : d = op.pops ∧ d' = 0 := by
  cases h
  exact ⟨rfl, rfl⟩

theorem Item.Takes.of_call {sig : CallEffect} {result d d' : Nat} {a : Int}
    (h : (Item.call a).Takes sig result d d') :
    ∃ k, d = k + (sig a).1 ∧ d' = k + (sig a).2 := by
  cases h with
  | call k => exact ⟨k, rfl, rfl⟩

theorem Item.Takes.of_place {sig : CallEffect} {result d d' : Nat} {l : Label}
    (h : (Item.place l).Takes sig result d d') : d = 0 := by
  cases h
  rfl

theorem Item.Takes.of_statement {sig : CallEffect} {result d d' : Nat}
    (h : Item.statement.Takes sig result d d') : d = 0 := by
  cases h
  rfl

theorem Item.Takes.of_enter {sig : CallEffect} {result d d' : Nat} {operands : List Int}
    (h : (Item.instruction .enter operands).Takes sig result d d') : d' = 0 := by
  cases h with
  | straight k _ hop => cases hop
  | enter => rfl

theorem Item.Takes.of_exit {sig : CallEffect} {result d d' : Nat} {operands : List Int}
    (h : (Item.instruction .exit operands).Takes sig result d d') : d = result := by
  cases h with
  | straight k _ hop => cases hop
  | exit => rfl

/-- Items one after the other take the depth of the stack from the first number to the last one. -/
inductive Walk (sig : CallEffect) (result : Nat) : Nat → List Item → Nat → Prop where
  | nil (d : Nat) : Walk sig result d [] d
  | cons {d d' d'' : Nat} {i : Item} {is : List Item} (h : i.Takes sig result d d')
    (h' : Walk sig result d' is d'') : Walk sig result d (i :: is) d''

namespace Walk

variable {sig : CallEffect} {result d d' d'' : Nat} {i : Item} {is js : List Item}

theorem append (h : Walk sig result d is d') (h' : Walk sig result d' js d'') :
    Walk sig result d (is ++ js) d'' := by
  induction h with
  | nil d => exact h'
  | cons h _ ih => exact .cons h (ih h')

theorem single (h : i.Takes sig result d d') : Walk sig result d [i] d' :=
  .cons h (.nil d')

/-- A walk gives every address a depth. -/
theorem exists_depth (h : Walk sig result d is d') (pc : Nat) :
    ∃ depth : Nat → Nat, depth pc = d ∧ depth (pc + Item.codeSize is) = d' ∧
      ∀ a i, (a, i) ∈ Item.located pc is → i.Takes sig result (depth a) (depth (a + i.size)) := by
  induction h generalizing pc with
  | nil d => exact ⟨fun _ => d, rfl, rfl, by simp⟩
  | @cons d d' d'' i is h _ ih =>
      rcases ih (pc + i.size) with ⟨depth, hfirst, hlast, hitems⟩
      rw [Nat.add_assoc] at hlast
      by_cases hsize : i.size = 0
      · rw [hsize, Nat.add_zero] at hfirst
        refine ⟨depth, by rw [hfirst, h.eq_of_size hsize], hlast, fun a j hj => ?_⟩
        rcases List.mem_cons.1 hj with hj | hj
        · rcases Prod.mk.inj hj with ⟨rfl, rfl⟩
          rw [hsize, Nat.add_zero, hfirst]
          rwa [← h.eq_of_size hsize] at h
        · exact hitems a j hj
      · -- nothing behind the first item stands at its address
        have hbehind : ∀ a, pc + i.size ≤ a → Function.update depth pc d a = depth a :=
          fun a ha => Function.update_of_ne (by omega) d depth
        refine ⟨Function.update depth pc d, Function.update_self pc d depth, ?_, fun a j hj => ?_⟩
        · rw [hbehind _ (by rw [Item.codeSize_cons]; omega)]
          exact hlast
        · rcases List.mem_cons.1 hj with hj | hj
          · rcases Prod.mk.inj hj with ⟨rfl, rfl⟩
            rwa [Function.update_self, hbehind _ le_rfl, hfirst]
          · have hge := (Item.bounds_of_mem_located hj).1
            rw [hbehind a hge, hbehind _ (hge.trans (Nat.le_add_right _ _))]
            exact hitems a j hj

end Walk

end MicroJava
