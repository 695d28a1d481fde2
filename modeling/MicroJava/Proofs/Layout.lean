import Mathlib.Logic.Function.Basic
import MicroJava.Item
import MicroJava.Proofs.Emission

/-!
# Where symbolic code stands

`Item.located pc is` gives every item its address when the first of them stands at `pc`. Once it is
known where each jump leads to, `Item.instructions` are the instructions and `Item.bytes` the bytes
of the code.

Filling in the way of a single jump makes the bytes what they are for the new target of this jump
(`Item.fillIn_bytes`), so the code never has to be read again: whatever was filled in so far, the
bytes are those of the same items for some targets.
-/

namespace MicroJava

/-- If one element of a list has a property, it is found. -/
theorem List.find?_eq_some_of_forall {α : Type} {p : α → Bool} {xs : List α} {x : α} (hx : x ∈ xs)
    (hp : p x = true) (h : ∀ y ∈ xs, p y = true → y = x) : xs.find? p = some x := by
  rcases Option.isSome_iff_exists.1 (List.find?_isSome.2 ⟨x, hx, hp⟩) with ⟨y, hy⟩
  rw [hy, h y (List.mem_of_find?_eq_some hy) (List.find?_some hy)]

namespace Item

/-- The number of bytes of several items. -/
def codeSize : List Item → Nat
  | [] => 0
  | i :: is => i.size + codeSize is

@[simp] theorem codeSize_nil : codeSize [] = 0 := rfl

@[simp] theorem codeSize_cons (i : Item) (is : List Item) :
    codeSize (i :: is) = i.size + codeSize is := rfl

@[simp] theorem codeSize_append (is js : List Item) :
    codeSize (is ++ js) = codeSize is + codeSize js := by
  induction is with
  | nil => simp
  | cons i is ih => simp [ih, Nat.add_assoc]

/-- The items with their addresses, if the first one stands at `pc`. -/
def located (pc : Nat) : List Item → List (Nat × Item)
  | [] => []
  | i :: is => (pc, i) :: located (pc + i.size) is

@[simp] theorem located_nil (pc : Nat) : located pc [] = [] := rfl

@[simp] theorem located_cons (pc : Nat) (i : Item) (is : List Item) :
    located pc (i :: is) = (pc, i) :: located (pc + i.size) is := rfl

theorem located_append (pc : Nat) (is js : List Item) :
    located pc (is ++ js) = located pc is ++ located (pc + codeSize is) js := by
  induction is generalizing pc with
  | nil => simp
  | cons i is ih => simp [ih, Nat.add_assoc]

theorem mem_of_mem_located {pc a : Nat} {i : Item} {is : List Item} (h : (a, i) ∈ located pc is) :
    i ∈ is := by
  induction is generalizing pc with
  | nil => simp at h
  | cons j is ih =>
      rcases List.mem_cons.1 h with h | h
      · simp_all
      · exact List.mem_cons_of_mem j (ih h)

theorem exists_mem_located {i : Item} {is : List Item} (pc : Nat) (h : i ∈ is) :
    ∃ a, (a, i) ∈ located pc is := by
  induction is generalizing pc with
  | nil => simp at h
  | cons j is ih =>
      rcases List.mem_cons.1 h with rfl | h
      · exact ⟨pc, List.mem_cons_self⟩
      · rcases ih (pc + j.size) h with ⟨a, ha⟩
        exact ⟨a, List.mem_cons_of_mem _ ha⟩

/-- An item stands between the beginning and the end of the code. -/
theorem bounds_of_mem_located {pc a : Nat} {i : Item} {is : List Item}
    (h : (a, i) ∈ located pc is) : pc ≤ a ∧ a + i.size ≤ pc + codeSize is := by
  induction is generalizing pc with
  | nil => simp at h
  | cons j is ih =>
      rw [codeSize_cons]
      rcases List.mem_cons.1 h with h | h
      · rcases Prod.mk.inj h with ⟨rfl, rfl⟩
        omega
      · have := ih h
        omega

/-- An item stands behind those before it. -/
theorem exists_append_of_mem_located {pc a : Nat} {i : Item} {is : List Item}
    (h : (a, i) ∈ located pc is) :
    ∃ before after, is = before ++ i :: after ∧ a = pc + codeSize before := by
  induction is generalizing pc with
  | nil => cases h
  | cons j is ih =>
      rcases List.mem_cons.1 h with h | h
      · rcases Prod.mk.inj h with ⟨rfl, rfl⟩
        exact ⟨[], is, rfl, rfl⟩
      · rcases ih h with ⟨before, after, rfl, rfl⟩
        exact ⟨j :: before, after, rfl, Nat.add_assoc _ _ _⟩

/-- Two items that take room do not stand at one address. -/
theorem located_unique {pc a : Nat} {i j : Item} {is : List Item} (hi : (a, i) ∈ located pc is)
    (hj : (a, j) ∈ located pc is) (isize : 0 < i.size) (jsize : 0 < j.size) : i = j := by
  induction is generalizing pc with
  | nil => simp at hi
  | cons k is ih =>
      rcases List.mem_cons.1 hi with hi | hi <;> rcases List.mem_cons.1 hj with hj | hj
      · exact (Prod.mk.inj hi).2.trans (Prod.mk.inj hj).2.symm
      · rcases Prod.mk.inj hi with ⟨rfl, rfl⟩
        have := bounds_of_mem_located hj
        omega
      · rcases Prod.mk.inj hj with ⟨rfl, rfl⟩
        have := bounds_of_mem_located hi
        omega
      · exact ih hi hj

theorem size_jump_pos (op : Opcode) (l : Label) : 0 < (jump op l).size := by
  change 0 < 1 + _
  omega

theorem size_call_pos (address : Int) : 0 < (call address).size :=
  size_jump_pos .call 0

/-! ### Instructions and bytes -/

/-- The instruction that an item at `pc` stands for, where a jump at an address to a label leads to
the given target. -/
def instruction? (target : Nat → Label → Int) (pc : Nat) : Item → Option Instruction
  | instruction op operands => some { pc, op, operands }
  | jump op l => some { pc, op, operands := [target pc l] }
  | call address => some { pc, op := .call, operands := [address] }
  | _ => none

/-- The bytes of an item at `pc`. -/
def encode (target : Nat → Label → Int) (pc : Nat) (i : Item) : Bytes :=
  ((i.instruction? target pc).map Instruction.encode).getD []

/-- The instructions of several items. -/
def instructions (target : Nat → Label → Int) (pc : Nat) (is : List Item) : List Instruction :=
  (located pc is).filterMap fun (a, i) => i.instruction? target a

/-- The bytes of several items. -/
def bytes (target : Nat → Label → Int) (pc : Nat) (is : List Item) : Bytes :=
  (instructions target pc is).flatMap Instruction.encode

variable {target target' : Nat → Label → Int} {pc : Nat} {is js : List Item}

theorem instructions_append : instructions target pc (is ++ js) =
    instructions target pc is ++ instructions target (pc + codeSize is) js := by
  simp [instructions, located_append]

theorem instructions_cons (i : Item) : instructions target pc (i :: is) =
    (i.instruction? target pc).toList ++ instructions target (pc + i.size) is := by
  cases h : i.instruction? target pc <;> simp [instructions, h]

@[simp] theorem bytes_nil : bytes target pc [] = [] := rfl

theorem bytes_cons (i : Item) : bytes target pc (i :: is) =
    i.encode target pc ++ bytes target (pc + i.size) is := by
  cases h : i.instruction? target pc <;> simp [bytes, instructions_cons, encode, h]

theorem bytes_append : bytes target pc (is ++ js) =
    bytes target pc is ++ bytes target (pc + codeSize is) js := by
  simp [bytes, instructions_append]

theorem mem_instructions {i : Instruction} : i ∈ instructions target pc is ↔
    ∃ a item, (a, item) ∈ located pc is ∧ item.instruction? target a = some i := by
  simp [instructions]

/-- If there is any code, some instruction stands where it begins. -/
theorem exists_mem_instructions (target : Nat → Label → Int) (pc : Nat) (h : 0 < codeSize is) :
    ∃ j ∈ instructions target pc is, j.pc = pc := by
  induction is with
  | nil => cases h
  | cons i is ih =>
      rw [instructions_cons]
      cases i with
      | instruction op operands => exact ⟨⟨pc, op, operands⟩, by simp [instruction?], rfl⟩
      | jump op l => exact ⟨⟨pc, op, [target pc l]⟩, by simp [instruction?], rfl⟩
      | call address => exact ⟨⟨pc, .call, [address]⟩, by simp [instruction?], rfl⟩
      | _ =>
          rw [codeSize_cons, size, Nat.zero_add] at h
          exact ih h

/-- An instruction is at the address of its item. -/
theorem pc_of_instruction? {a : Nat} {i : Item} {j : Instruction}
    (h : i.instruction? target a = some j) : j.pc = a := by
  cases i <;> cases h <;> rfl

theorem size_pos_of_instruction? {a : Nat} {i : Item} {j : Instruction}
    (h : i.instruction? target a = some j) : 0 < i.size := by
  cases i with
  | instruction op operands => exact size_jump_pos op 0
  | jump op l => exact size_jump_pos op l
  | call address => exact size_call_pos address
  | _ => cases h

/-- The bytes depend on the targets of the jumps that occur. -/
theorem instructions_congr
    (h : ∀ a op l, (a, jump op l) ∈ located pc is → target a l = target' a l) :
    instructions target pc is = instructions target' pc is := by
  induction is generalizing pc with
  | nil => rfl
  | cons i is ih =>
      rw [instructions_cons, instructions_cons,
        ih fun a op l ha => h a op l (List.mem_cons_of_mem _ ha)]
      cases i with
      | jump op l => rw [instruction?, instruction?, h pc op l List.mem_cons_self]
      | _ => rfl

theorem bytes_congr (h : ∀ a op l, (a, jump op l) ∈ located pc is → target a l = target' a l) :
    bytes target pc is = bytes target' pc is := by
  rw [bytes, bytes, instructions_congr h]

end Item

/-! ### Lengths -/

theorem Opcode.immediates_of_isJump {op : Opcode} (h : op.isJump = true) :
    op.immediates = [.offset] := by
  cases op <;> first | rfl | cases h

theorem Instruction.length_operandBytes (pc : Nat) :
    ∀ (forms : List Immediate) (xs : List Int), xs.length = forms.length →
      (List.zipWith (fun form x => form.bytes pc x) forms xs).flatten.length =
        Immediate.totalWidth forms
  | [], [], _ => rfl
  | form :: forms, x :: xs, h => by
      have ih := length_operandBytes pc forms xs (by simpa using h)
      rw [List.zipWith_cons_cons, List.flatten_cons, List.length_append, ih, Immediate.totalWidth]
      simp [Immediate.bytes]

theorem Instruction.length_encode {i : Instruction}
    (h : i.operands.length = i.op.immediates.length) : i.encode.length = i.op.size := by
  rw [encode, List.length_cons, length_operandBytes i.pc _ _ h, Opcode.size, Nat.add_comm]

namespace Item

variable {target target' : Nat → Label → Int} {pc : Nat} {is js : List Item}

theorem encode_jump (pc : Nat) {op : Opcode} (h : op.isJump = true) (t : Int) :
    Instruction.encode { pc, op, operands := [t] } =
      [op.byte, BigEndian.lowByte ((t - pc) / 256), BigEndian.lowByte (t - pc)] := by
  simp [Instruction.encode, Opcode.immediates_of_isJump h, Immediate.bytes, BigEndian.bytes,
    Immediate.width]

theorem length_encode {i : Item} (h : i.WellFormed) : (i.encode target pc).length = i.size := by
  cases i with
  | instruction op operands => exact Instruction.length_encode h.2
  | jump op l =>
      have hform := Opcode.immediates_of_isJump h
      exact Instruction.length_encode (i := ⟨pc, op, [target pc l]⟩) (by simp [hform])
  | call address => exact Instruction.length_encode (i := ⟨pc, .call, [address]⟩) rfl
  | _ => rfl

theorem length_bytes (h : ∀ i ∈ is, i.WellFormed) : (bytes target pc is).length = codeSize is := by
  induction is generalizing pc with
  | nil => rfl
  | cons i is ih =>
      rw [bytes_cons, List.length_append, length_encode (h i List.mem_cons_self),
        ih fun j hj => h j (List.mem_cons_of_mem i hj), codeSize_cons]

/-! ### Filling in -/

/-- Filling in the way of the jump at `a` changes the target of this jump and nothing else. -/
theorem set_bytes (h : ∀ i ∈ is, i.WellFormed) {a : Nat} {op : Opcode} {l : Label}
    (ha : (a, jump op l) ∈ located pc is) (t : Int) :
    ((bytes target pc is).set (a + 1 - pc) (BigEndian.lowByte ((t - a) / 256))).set (a + 2 - pc)
        (BigEndian.lowByte (t - a)) =
      bytes (Function.update target a fun _ => t) pc is := by
  induction is generalizing pc with
  | nil => simp at ha
  | cons i is ih =>
      have hi := h i List.mem_cons_self
      have hlen : (i.encode target pc).length = i.size := length_encode hi
      rw [bytes_cons i, bytes_cons i]
      rcases List.mem_cons.1 ha with ha | ha
      · -- the jump comes first, and no other jump stands at its address
        rcases Prod.mk.inj ha with ⟨rfl, rfl⟩
        have hrest : bytes (Function.update target a fun _ => t) (a + (jump op l).size) is =
            bytes target (a + (jump op l).size) is := by
          refine bytes_congr fun b _ _ hb => ?_
          have := bounds_of_mem_located hb
          have := size_jump_pos op l
          rw [Function.update_of_ne (by omega)]
        rw [hrest, encode, encode, instruction?, instruction?, Option.map_some, Option.map_some,
          Option.getD_some, Option.getD_some, encode_jump a hi, encode_jump a hi]
        simp
      · have hbound := bounds_of_mem_located ha
        have hfirst : i.encode (Function.update target a fun _ => t) pc = i.encode target pc := by
          cases i with
          | jump op' l' =>
              have := size_jump_pos op' l'
              rw [encode, encode, instruction?, instruction?, Function.update_of_ne (by omega)]
          | _ => rfl
        rw [hfirst, List.set_append_right _ _ (by omega), List.set_append_right _ _ (by omega), hlen,
          ← ih (fun j hj => h j (List.mem_cons_of_mem i hj)) ha, Nat.sub_sub, Nat.sub_sub]

/-- Filling in the way of the jump at `a` in the code of some items. -/
theorem fillIn_bytes {code : Array UInt8} (hcode : code.toList = bytes target 0 is)
    (h : ∀ i ∈ is, i.WellFormed) {a : Nat} {op : Opcode} {l : Label}
    (ha : (a, jump op l) ∈ located 0 is) (t : Int) :
    (Emitter.fillIn code (a + 1) (t - a)).toList =
      bytes (Function.update target a fun _ => t) 0 is := by
  rw [← set_bytes h ha t, Emitter.fillIn, Array.toList_setIfInBounds, Array.toList_setIfInBounds,
    hcode]
  rfl

end Item

end MicroJava
