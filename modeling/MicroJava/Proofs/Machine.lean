import MicroJava.Proofs.Limits
import MicroJava.Proofs.Runs

/-!
# What the machine does

The machine works on a stack of words and on a memory, in which every variable, field and element has a
cell. `Processor.exec` is what an operation does that expressions and assignments are made of; what other
operations do is left open. What the machine takes from outside is a parameter: division, input, the
allocation of objects and arrays, and what happens while a method is called.

Straight code runs through. It does what its items do one after the other (`Item.Stands.run_decoded`),
although it is read from the bytes of the code, where the operands are as small as they are.
-/

namespace MicroJava

/-- A word of the machine. -/
abbrev Word := BitVec 32

/-- What stops the machine. An operation is `undefined` if it is none of those that are described here
or does not find the words that it needs. -/
inductive Trap where
  | division
  | null
  | index
  | input
  | memory
  | method
  | undefined
  deriving DecidableEq, Inhabited

/-- The reasons for which an operation on words, fields and elements can fail. -/
def Trap.IsFailure : Trap → Prop
  | division | null | index => True
  | _ => False

/-- Where a word is kept. Objects and arrays are named by their references. The elements of arrays of
characters are bytes. -/
inductive Cell where
  | localVar (slot : Int)
  | globalVar (address : Int)
  | field (object : Word) (offset : Int)
  | word (array index : Word)
  | byte (array index : Word)
  deriving DecidableEq, Inhabited

/-- What a cell keeps of a word. -/
def Cell.keep : Cell → Word → Word
  | byte .., v => (v.setWidth 8).setWidth 32
  | _, v => v

/-- The contents of all cells, the lengths of the arrays, and whatever else there is, such as the input
that is left. -/
structure Memory (ι : Type) where
  cells : Cell → Word
  length : Word → Word
  world : ι

/-- The memory after a word was put into a cell. -/
def Memory.set {ι : Type} (m : Memory ι) (c : Cell) (v : Word) : Memory ι :=
  { m with cells := fun c' => if c' = c then c.keep v else m.cells c' }

/-- A word has come into one cell, and no other cell and no length has changed. -/
structure Memory.Receives {ι : Type} (m : Memory ι) (c : Cell) (v : Word) (m' : Memory ι) : Prop where
  self : m'.cells c = c.keep v
  others : ∀ c', c' ≠ c → m'.cells c' = m.cells c'
  length : m'.length = m.length

theorem Memory.receives_set {ι : Type} (m : Memory ι) (c : Cell) (v : Word) :
    m.Receives c v (m.set c v) :=
  ⟨if_pos rfl, fun _ h => if_neg h, rfl⟩

/-- What yields a value, may change the memory, and may stop the machine. -/
abbrev Effect (ι α : Type) := StateT (Memory ι) (Except Trap) α

namespace Cell

variable {ι : Type}

/-- A cell can be used unless its reference is null or its index is out of range. -/
def access (m : Memory ι) : Cell → Except Trap Unit
  | localVar _ | globalVar _ => .ok ()
  | field r _ => if r = 0 then .error .null else .ok ()
  | word r i | byte r i =>
    if r = 0 then .error .null
    else if 0 ≤ i.toInt ∧ i.toInt < (m.length r).toInt then .ok ()
    else .error .index

/-- The word in a cell. Bytes are no words with a sign. -/
def fetch (c : Cell) : Effect ι Word := fun m => do
  c.access m
  return (c.keep (m.cells c), m)

/-- Puts a word into a cell. -/
def put (c : Cell) (v : Word) : Effect ι Unit := fun m => do
  c.access m
  return ((), m.set c v)

theorem isFailure_of_access {m : Memory ι} {c : Cell} {e : Trap} (h : c.access m = .error e) :
    e.IsFailure := by
  cases c with
  | localVar _ | globalVar _ => cases h
  | field r _ =>
      rw [access] at h
      split at h
      · obtain rfl := Except.error.inj h
        trivial
      · cases h
  | word r i | byte r i =>
      rw [access] at h
      split at h
      · obtain rfl := Except.error.inj h
        trivial
      · split at h
        · cases h
        · obtain rfl := Except.error.inj h
          trivial

theorem eq_set_of_put {m m' : Memory ι} {c : Cell} {v : Word} (h : c.put v m = .ok ((), m')) :
    m' = m.set c v := by
  rw [put] at h
  cases haccess : c.access m with
  | error e =>
      rw [haccess] at h
      cases h
  | ok _ =>
      rw [haccess] at h
      exact (Prod.mk.inj (Except.ok.inj h)).2.symm

end Cell

/-- The number of elements of an array. -/
def arrayLength {ι : Type} (r : Word) : Effect ι Word := fun m =>
  if r = 0 then .error .null else .ok (m.length r, m)

/-- What a method does with the values of its parameters until it yields a value. -/
structure Method (ι : Type) where
  arity : Nat
  call : List Word → Effect ι Word

/-- What the machine takes from outside. Methods are named by the addresses of their code, objects are
made with a number of fields, and arrays, of characters or not, with a length. -/
structure Processor (ι : Type) where
  div : Word → Word → Word
  rem : Word → Word → Word
  read : ι → Except Trap (Word × ι)
  readChar : ι → Except Trap (Word × ι)
  new : Int → Effect ι Word
  newArray : Bool → Word → Effect ι Word
  method : Int → Method ι

namespace Processor

variable {ι : Type} (P : Processor ι)

/-- The quotient of two words. -/
def quotient (a b : Word) : Effect ι Word :=
  if b = 0 then throw .division else pure (P.div a b)

/-- The remainder of a division. -/
def remainder (a b : Word) : Effect ι Word :=
  if b = 0 then throw .division else pure (P.rem a b)

/-- Reads a number, or a character. -/
def input (char : Bool) : Effect ι Word := fun m =>
  ((if char then P.readChar else P.read) m.world).map fun (v, world) => (v, { m with world })

/-- Reading changes no cell. -/
theorem keeps_input {char : Bool} {m m' : Memory ι} {v : Word} (h : P.input char m = .ok (v, m')) :
    m'.cells = m.cells ∧ m'.length = m.length := by
  unfold input at h
  cases hread : (if char then P.readChar else P.read) m.world with
  | error e =>
      rw [hread] at h
      cases h
  | ok r =>
      rw [hread] at h
      obtain ⟨-, rfl⟩ := Prod.mk.inj (Except.ok.inj h)
      exact ⟨rfl, rfl⟩

/-- What an operation does. The head of the list is the top of the stack. -/
def exec : Operation → List Word → Effect ι (List Word)
  | (.load, [slot]), ws => do return (← (Cell.localVar slot).fetch) :: ws
  | (.load0, []), ws => do return (← (Cell.localVar 0).fetch) :: ws
  | (.load1, []), ws => do return (← (Cell.localVar 1).fetch) :: ws
  | (.load2, []), ws => do return (← (Cell.localVar 2).fetch) :: ws
  | (.load3, []), ws => do return (← (Cell.localVar 3).fetch) :: ws
  | (.store, [slot]), v :: ws => do (Cell.localVar slot).put v; return ws
  | (.store0, []), v :: ws => do (Cell.localVar 0).put v; return ws
  | (.store1, []), v :: ws => do (Cell.localVar 1).put v; return ws
  | (.store2, []), v :: ws => do (Cell.localVar 2).put v; return ws
  | (.store3, []), v :: ws => do (Cell.localVar 3).put v; return ws
  | (.getStatic, [a]), ws => do return (← (Cell.globalVar a).fetch) :: ws
  | (.putStatic, [a]), v :: ws => do (Cell.globalVar a).put v; return ws
  | (.getField, [k]), r :: ws => do return (← (Cell.field r k).fetch) :: ws
  | (.putField, [k]), v :: r :: ws => do (Cell.field r k).put v; return ws
  | (.const0, []), ws => pure (0 :: ws)
  | (.const1, []), ws => pure (1 :: ws)
  | (.const2, []), ws => pure (2 :: ws)
  | (.const3, []), ws => pure (3 :: ws)
  | (.const4, []), ws => pure (4 :: ws)
  | (.const5, []), ws => pure (5 :: ws)
  | (.constM1, []), ws => pure (-1 :: ws)
  | (.const, [n]), ws => pure (BitVec.ofInt 32 n :: ws)
  | (.add, []), b :: a :: ws => pure ((a + b) :: ws)
  | (.sub, []), b :: a :: ws => pure ((a - b) :: ws)
  | (.mul, []), b :: a :: ws => pure ((a * b) :: ws)
  | (.div, []), b :: a :: ws => do return (← P.quotient a b) :: ws
  | (.rem, []), b :: a :: ws => do return (← P.remainder a b) :: ws
  | (.neg, []), a :: ws => pure (-a :: ws)
  | (.inc, [slot, k]), ws => do
    let v ← (Cell.localVar slot).fetch
    (Cell.localVar slot).put (v + BitVec.ofInt 32 k)
    return ws
  | (.new, [n]), ws => do return (← P.new n) :: ws
  | (.newArray, [kind]), n :: ws => do return (← P.newArray (kind = 0) n) :: ws
  | (.aload, []), i :: r :: ws => do return (← (Cell.word r i).fetch) :: ws
  | (.astore, []), v :: i :: r :: ws => do (Cell.word r i).put v; return ws
  | (.baload, []), i :: r :: ws => do return (← (Cell.byte r i).fetch) :: ws
  | (.bastore, []), v :: i :: r :: ws => do (Cell.byte r i).put v; return ws
  | (.arrayLength, []), r :: ws => do return (← MicroJava.arrayLength r) :: ws
  | (.pop, []), _ :: ws => pure ws
  | (.dup, []), a :: ws => pure (a :: a :: ws)
  | (.dup2, []), b :: a :: ws => pure (b :: a :: b :: a :: ws)
  | (.call, [a]), ws =>
    let f := P.method a
    if ws.length < f.arity then throw .undefined
    else do return (← f.call (ws.take f.arity).reverse) :: ws.drop f.arity
  | (.read, []), ws => do return (← P.input false) :: ws
  | (.bread, []), ws => do return (← P.input true) :: ws
  | _, _ => throw .undefined

end Processor

/-- What changes while code is run. -/
structure Machine (ι : Type) where
  pc : Nat
  stack : List Word
  memory : Memory ι

namespace Processor

variable {ι : Type} (P : Processor ι)

/-- Executes the instruction at the address `s.pc`. -/
def step (code : List Instruction) (s : Machine ι) : Except Trap (Machine ι) :=
  match code.find? (fun i => i.pc = s.pc) with
  | none => .error .undefined
  | some i => do
    let (stack, memory) ← P.exec (i.op, i.operands) s.stack s.memory
    return ⟨s.pc + i.op.size, stack, memory⟩

/-- Executes `n` instructions. -/
def run (code : List Instruction) : Nat → Machine ι → Except Trap (Machine ι)
  | 0, s => .ok s
  | n + 1, s => do run code n (← P.step code s)

/-- What the items of straight code do, one after the other. -/
def execAll : List Item → List Word → Effect ι (List Word)
  | [], ws => pure ws
  | i :: is, ws =>
    match i.operation? with
    | none => throw .undefined
    | some o => do execAll is (← P.exec o ws)

theorem execAll_single {i : Item} {o : Operation} (h : i.operation? = some o) (ws : List Word) :
    P.execAll [i] ws = P.exec o ws := by
  rw [execAll, h]
  exact bind_pure (P.exec o ws)

theorem execAll_append (is js : List Item) (ws : List Word) :
    P.execAll (is ++ js) ws = P.execAll is ws >>= P.execAll js := by
  induction is generalizing ws with
  | nil => exact (pure_bind ws (P.execAll js)).symm
  | cons i is ih =>
      rw [List.cons_append, execAll, execAll]
      cases i.operation? with
      | none => rfl
      | some o =>
          dsimp only
          rw [bind_assoc]
          exact bind_congr ih

end Processor

/-! ### Straight code -/

variable {ι : Type} {t : SymbolTable} {localCount dataSize : Nat}

/-- A constant is the same word before and after its high bits are lost. -/
@[simp] theorem ofInt_wrapWord (n : Int) : BitVec.ofInt 32 (wrapWord n) = BitVec.ofInt 32 n := by
  apply BitVec.eq_of_toInt_eq
  rw [BitVec.toInt_ofInt, BitVec.toInt_ofInt]
  exact Int.bmod_bmod

/-- What is read back from the code does what was written. -/
theorem Processor.exec_readBack (P : Processor ι) (ht : t.Limited localCount dataSize) {i : Instruction}
    (h : Operation.InRange (fun _ => True) t localCount dataSize (i.op, i.operands))
    (htarget : i.op.hasTarget = false) :
    P.exec (i.op, i.readBack.operands) = P.exec (i.op, i.operands) := by
  obtain ⟨pc, op, operands⟩ := i
  by_cases hop : op = .const
  · subst hop
    obtain ⟨n, rfl, -⟩ := h
    have hread : BigEndian.intValue (BigEndian.bytes 4 n) = wrapWord n := by
      rw [BigEndian.intValue, BigEndian.length_bytes, BigEndian.natValue_bytes, Int.emod_bmod]
      rfl
    have hpush (n : Int) (ws : List Word) :
        P.exec (.const, [n]) ws = pure (BitVec.ofInt 32 n :: ws) := rfl
    have hwords (ws : List Word) : P.exec (.const, [wrapWord n]) ws = P.exec (.const, [n]) ws := by
      rw [hpush, hpush, ofInt_wrapWord]
    change P.exec (.const, [BigEndian.intValue (BigEndian.bytes 4 n)]) = _
    rw [hread]
    exact funext hwords
  · have hrange : Operation.InRange IsWord t localCount dataSize (op, operands) := by
      cases op <;> first | exact h | exact absurd rfl hop
    have hkeeps := hrange.keeps ht.ranged.slotted ht.locals ht.globals htarget pc
    rw [Instruction.readBack_eq (i := ⟨pc, op, operands⟩) hkeeps]

namespace Item.Stands

variable {whole is : List Item} {a : Nat}

/-- Straight code whose operands are in range does what its items do, if the methods that it calls are
near enough. -/
theorem run_decoded (P : Processor ι) (target : Nat → Label → Int) (ht : t.Limited localCount dataSize)
    (h : Stands whole a is)
    (hstraight : ∀ i ∈ is, i.IsStraight) (hrange : AllInRange (fun _ => True) t localCount dataSize is)
    (hnear : ∀ b k, (b, .call k) ∈ located a is → Emitter.isFar (k - b) = false)
    (ws : List Word) (m : Memory ι) :
    P.run (decoded target 0 whole) is.length ⟨a, ws, m⟩ =
      (P.execAll is ws m).map fun (ws, m) => ⟨a + codeSize is, ws, m⟩ := by
  induction is generalizing a ws m with
  | nil => rfl
  | cons i is ih =>
      have hrest := ih h.tail (fun j hj => hstraight j (List.mem_cons_of_mem i hj))
        (fun j hj => hrange j (List.mem_cons_of_mem i hj))
        fun b k hb => hnear b k (List.mem_cons_of_mem _ hb)
      -- the instruction that is found does what the item does, and execution goes on behind it
      obtain ⟨o, ho, hstep⟩ : ∃ o, i.operation? = some o ∧ P.step (decoded target 0 whole) ⟨a, ws, m⟩ =
          (P.exec o ws m).map fun (ws, m) => ⟨a + i.size, ws, m⟩ := by
        have hi := hstraight i List.mem_cons_self
        cases i with
        | instruction op operands =>
            refine ⟨_, rfl, ?_⟩
            have htarget : op.hasTarget = false := hi.isInner.2.1
            rw [Processor.step, find?_decoded h.mem rfl]
            change P.exec (op, (Instruction.readBack ⟨a, op, operands⟩).operands) ws m >>= _ = _
            rw [P.exec_readBack ht (i := ⟨a, op, operands⟩) (hrange _ List.mem_cons_self _ rfl) htarget]
            rfl
        | call k =>
            refine ⟨_, rfl, ?_⟩
            have hkeeps : Operation.Keeps a (.call, [k]) := .cons (hnear a k List.mem_cons_self) .nil
            rw [Processor.step, find?_decoded h.mem rfl,
              Instruction.readBack_eq (i := ⟨a, .call, [k]⟩) hkeeps]
            rfl
        | _ => exact hi.elim
      rw [List.length_cons, Processor.run, hstep, Processor.execAll, ho, codeSize_cons, ← Nat.add_assoc]
      change _ = ((P.exec o ws m) >>= fun r => P.execAll is r.1 r.2).map _
      cases P.exec o ws m with
      | error e => rfl
      | ok r => exact hrest r.1 r.2

end Item.Stands

end MicroJava
