import MicroJava.Proofs.Members
import MicroJava.Proofs.StackEffect

/-!
# The stack while operands are worked with

As many words as belong to an operand (`Operand.held`) are on the stack for it, and whoever loads
the operand or stores to it pops them. A call pops the arguments and leaves the value, if there is
one; `Calls` says of a symbol table which method is called how.

`Moves c result I x pre post` says that the step `x` writes items that take the stack from the depth
`pre` to the depth `post a` above whatever is below, unless there is a fault. What is below is one
of the depths in `I`; nothing is if code with labels is written.
-/

namespace MicroJava

/-- The number of words on the stack that belong to a place. -/
def Location.held : Location → Nat
  | stack | field _ => 1
  | element => 2
  | _ => 0

/-- The number of words on the stack that belong to an operand. -/
def Operand.held (x : Operand) : Nat := x.location.held

/-- The number of words on the stack for a value of a type. -/
def Ty.words (type : Ty) : Nat := if type = .void then 0 else 1

namespace Walk

variable {sig : CallEffect} {result : Nat}

/-- An operation that goes on with the next instruction, with `k` words below its operands. -/
theorem operation {op : Opcode} {operands : List Int} {d d' d'' : Nat} {is : List Item} (k : Nat)
    (hop : op.isStraight = true) (h : d = k + op.pops) (h' : d' = k + op.pushes)
    (hwalk : Walk sig result d' is d'') :
    Walk sig result d (Operation.item (op, operands) :: is) d'' := by
  subst h h'
  exact .cons (.straight k operands hop) hwalk

theorem replicate_dup (n d : Nat) :
    Walk sig result (d + 1) ((List.replicate n (.dup, [])).map Operation.item) (d + 1 + n) := by
  induction n generalizing d with
  | zero => exact .nil _
  | succ n ih =>
      rw [← Nat.add_assoc, Nat.add_right_comm]
      exact operation d rfl rfl rfl (ih (d + 1))

theorem replicate_mul (n d : Nat) :
    Walk sig result (d + 1 + n) ((List.replicate n (.mul, [])).map Operation.item) (d + 1) := by
  induction n generalizing d with
  | zero => exact .nil _
  | succ n ih =>
      refine operation (d + n) rfl ?_ rfl ?_
      · change _ = d + n + 2
        omega
      · rw [Nat.add_right_comm]
        exact ih d

/-- A power takes the place of its base. -/
theorem power (k : Int) (d : Nat) :
    Walk sig result (d + 1) ((powerCode k).map Operation.item) (d + 1) := by
  unfold powerCode
  split
  · exact operation d rfl rfl rfl (operation d rfl rfl rfl (.nil _))
  · rw [List.map_append]
    exact (replicate_dup _ d).append (replicate_mul _ d)

theorem pushConstant (n : Int) (d : Nat) :
    Walk sig result d [Operation.item (pushConstant n)] (d + 1) := by
  unfold MicroJava.pushConstant
  split_ifs <;> exact operation d rfl rfl rfl (.nil _)

theorem pushLocal (slot : Int) (d : Nat) :
    Walk sig result d [Operation.item (pushLocal slot)] (d + 1) := by
  unfold MicroJava.pushLocal
  split_ifs <;> exact operation d rfl rfl rfl (.nil _)

theorem popLocal (slot : Int) (d : Nat) :
    Walk sig result (d + 1) [Operation.item (popLocal slot)] d := by
  unfold MicroJava.popLocal
  split_ifs <;> exact operation d rfl rfl rfl (.nil _)

/-- Loading an operand leaves its value in place of what belongs to it. -/
theorem loadCode? {x : Operand} {os : List Operation} (h : x.loadCode? = some os) (d : Nat) :
    Walk sig result (d + x.held) (os.map Operation.item) (d + 1) := by
  rcases x with ⟨location, type⟩
  cases location with
  | constant n =>
      cases h
      exact pushConstant n d
  | localVar slot =>
      cases h
      exact pushLocal slot d
  | globalVar address =>
      cases h
      exact operation d rfl rfl rfl (.nil _)
  | stack =>
      cases h
      exact .nil _
  | field offset =>
      cases h
      exact operation d rfl rfl rfl (.nil _)
  | element =>
      cases h
      by_cases hchar : type = .char
      · rw [if_pos hchar]
        exact operation d rfl rfl rfl (.nil _)
      · rw [if_neg hchar]
        exact operation d rfl rfl rfl (.nil _)
  | method id => cases h
  | condition relation whenTrue whenFalse => cases h

/-- Storing to an operand takes a value and what belongs to the operand. -/
theorem storeCode? {x : Operand} {os : List Operation} (h : x.storeCode? = some os) (d : Nat) :
    Walk sig result (d + (x.held + 1)) (os.map Operation.item) d := by
  rcases x with ⟨location, type⟩
  cases location with
  | localVar slot =>
      cases h
      exact popLocal slot d
  | globalVar address =>
      cases h
      exact operation d rfl rfl rfl (.nil _)
  | field offset =>
      cases h
      exact operation d rfl rfl rfl (.nil _)
  | element =>
      cases h
      by_cases hchar : type = .char
      · rw [if_pos hchar]
        exact operation d rfl rfl rfl (.nil _)
      · rw [if_neg hchar]
        exact operation d rfl rfl rfl (.nil _)
  | _ => cases h

/-- What belongs to an operand that can be assigned to is there twice. -/
theorem duplicateCode {x : Operand} (h : x.location.isAssignable = true) (d : Nat) :
    Walk sig result (d + x.held) (x.duplicateCode.map Operation.item) (d + (x.held + x.held)) := by
  rcases x with ⟨location, type⟩
  cases location with
  | localVar slot => exact .nil _
  | globalVar address => exact .nil _
  | field offset => exact operation d rfl rfl rfl (.nil _)
  | element => exact operation d rfl rfl rfl (.nil _)
  | _ => cases h

end Walk

/-- A symbol table with the effects of calls of its methods. -/
structure Calls where
  table : SymbolTable
  effect : CallEffect
  declared : ∀ id, (table.symbol id).kind = .method →
    (id ≠ SymbolTable.ordId ∧ id ≠ SymbolTable.chrId) → id ≠ SymbolTable.lenId →
    effect (table.symbol id).address =
      ((table.symbol id).parameters.size, (table.symbol id).type.words)
  predeclared : ∀ id, (id = SymbolTable.ordId ∨ id = SymbolTable.chrId) ∨ id = SymbolTable.lenId →
    (table.symbol id).parameters.size = 1 ∧ (table.symbol id).type ≠ .void

namespace Calls

/-- The number of parameters of the method that an operand stands for. -/
def arity (c : Calls) (x : Operand) : Nat :=
  match x.location with
  | .method id => (c.table.symbol id).parameters.size
  | _ => 0

/-- If an operand stands for a method, the table has it. -/
def Knows (c : Calls) (x : Operand) : Prop :=
  ∀ id, x.location = .method id →
    (c.table.symbol id).kind = .method ∧ (c.table.symbol id).type = x.type

variable {c : Calls} {x : Operand}

theorem knows_of_location (h : x.location.isMethod = false) : c.Knows x := by
  intro id hid
  rw [hid] at h
  cases h

end Calls

namespace Compiler

variable {α β : Type} {c : Calls} {result : Nat} {I : Nat → Prop}

/-- The step takes the stack from the depth `pre` to the depth `post`, unless there is a fault, and
`A` holds of its value. -/
def Moves (c : Calls) (result : Nat) (I : Nat → Prop) (x : CompilerM α) (pre : Nat)
    (post : α → Nat) (A : α → Prop := fun _ => True) : Prop :=
  ∀ s : Compiler, s.table.symbols = c.table.symbols → Ensures x s fun a s' =>
    s'.table.symbols = c.table.symbols ∧ s.Logs s' ∧ A a ∧
    (¬ s'.Faulty → ∃ is, s.Writes is s' ∧
      ∀ d, I d → Walk c.effect result (d + pre) is (d + post a))

namespace Moves

variable {pre : Nat} {mid post : α → Nat} {last : β → Nat} {A : α → Prop} {B : β → Prop}
  {x : CompilerM α} {f : α → CompilerM β}

theorem pure {a : α} (h : pre = post a) (ha : A a) : Moves c result I (Pure.pure a) pre post A :=
  fun s hs => ⟨hs, .refl s, ha, fun _ => ⟨[], .nil rfl rfl, fun _ _ => h ▸ .nil _⟩⟩

theorem bind (hx : Moves c result I x pre mid A)
    (hf : ∀ a, A a → Moves c result I (f a) (mid a) last B) :
    Moves c result I (x >>= f) pre last B := by
  intro s hs
  refine (hx s hs).bind fun a s' ⟨hs', hlogs, ha, hmoves⟩ => ?_
  refine (hf a ha s' hs').mono fun b s'' ⟨hs'', hlogs', hb, hmoves'⟩ =>
    ⟨hs'', hlogs.trans hlogs', hb, fun hclean => ?_⟩
  rcases hmoves fun hfaulty => hclean (hlogs'.faulty hfaulty) with ⟨is, hw, hwalk⟩
  rcases hmoves' hclean with ⟨js, hw', hwalk'⟩
  exact ⟨is ++ js, hw.append hw', fun d hd => (hwalk d hd).append (hwalk' d hd)⟩

theorem mono {B : α → Prop} (hx : Moves c result I x pre post A) (h : ∀ a, A a → B a) :
    Moves c result I x pre post B :=
  fun s hs => (hx s hs).mono fun a _ ⟨hs', hlogs, ha, hmoves⟩ => ⟨hs', hlogs, h a ha, hmoves⟩

/-- The depth behind a step has to be right only if there is no fault. -/
theorem congr {post' : α → Nat} (hx : Moves c result I x pre post A)
    (h : ∀ s : Compiler, s.table.symbols = c.table.symbols →
      Ensures x s fun a s' => ¬ s'.Faulty → post a = post' a) :
    Moves c result I x pre post' A := by
  intro s hs
  refine ((h s hs).and (hx s hs)).mono fun a s' ⟨heq, hs', hlogs, ha, hmoves⟩ =>
    ⟨hs', hlogs, ha, fun hclean => ?_⟩
  rw [← heq hclean]
  exact hmoves hclean

/-- Nothing has to be known of what ends with a fault. -/
theorem of_faulty (hx : Emits Item.IsInner x) (ha : ∀ s, Ensures x s fun a _ => A a)
    (h : ∀ s : Compiler, s.table.symbols = c.table.symbols → Ensures x s fun _ s' => s'.Faulty) :
    Moves c result I x pre post A :=
  fun s hs => ⟨(hx s).table_extends.symbols.trans hs, (hx s).logs, ha s,
    fun hclean => absurd (h s hs) hclean⟩

/-- A step that writes nothing. -/
theorem silent (hx : Emits (fun _ => False) x)
    (ha : ∀ s : Compiler, s.table.symbols = c.table.symbols → Ensures x s fun a _ => A a) :
    Moves c result I x pre (fun _ => pre) A := by
  intro s hs
  have hsteps : Ensures x s fun _ s' => Steps (fun _ => False) s s' := hx s
  refine ((ha s hs).and hsteps).mono fun a s' ⟨ha, hsteps⟩ =>
    ⟨hsteps.table_extends.symbols.trans hs, hsteps.logs, ha,
      fun _ => ⟨[], hsteps.writes_nil, fun _ _ => .nil _⟩⟩

theorem silent_bind (hx : Emits (fun _ => False) x) (hf : ∀ a, Moves c result I (f a) pre last B) :
    Moves c result I (x >>= f) pre last B :=
  (silent (A := fun _ => True) hx fun _ _ => trivial).bind fun a _ => hf a

theorem write {i : Item} {last : Nat} (h : ∀ d, I d → i.Takes c.effect result (d + pre) (d + last)) :
    Moves c result I (write i) pre fun _ => last := by
  refine fun s hs => ⟨hs, .of_eq rfl, trivial, fun _ => ⟨[i], ⟨?_, rfl⟩, fun d hd => .single (h d hd)⟩⟩
  exact Array.toList_push

/-- The same words may be below what was there before and what is there afterwards. -/
theorem frame (k : Nat) (h : Moves c result (fun d => ∃ d₀, I d₀ ∧ d₀ + k = d) x pre post A) :
    Moves c result I x (k + pre) (fun a => k + post a) A := by
  intro s hs
  refine (h s hs).mono fun a s' ⟨hs', hlogs, ha, hmoves⟩ => ⟨hs', hlogs, ha, fun hclean => ?_⟩
  rcases hmoves hclean with ⟨is, hw, hwalk⟩
  refine ⟨is, hw, fun d hd => ?_⟩
  have := hwalk (d + k) ⟨d, hd, rfl⟩
  rwa [Nat.add_assoc, Nat.add_assoc] at this

/-- If a step is taken after a fault, nothing has to be known of it. -/
theorem fault_bind (m : Message) {f : Unit → CompilerM β} (hemits : Emits Item.IsInner (f ()))
    (hb : ∀ s, Ensures (f ()) s fun b _ => B b) :
    Moves c result I (Compiler.fault m >>= f) pre last B := by
  refine of_faulty ((Emits.fault m).bind fun _ => hemits) (fun s => hb _) fun s _ => ?_
  have hfault : Ensures (Compiler.fault m) s fun _ s' => s'.Faulty := faulty_fault m s
  exact hfault.bind fun _ s' h => (hemits s').logs.faulty h

theorem fault (m : Message) {post : Unit → Nat} : Moves c result I (Compiler.fault m) pre post :=
  of_faulty (.fault m) (fun _ => trivial) fun s _ => faulty_fault m s

/-- Unless there is a fault, what it was checked for does not hold. -/
theorem faultIf_bind {b : Bool} {m : Message} {f : Unit → CompilerM β}
    (hemits : Emits Item.IsInner (f ())) (hb : ∀ s, Ensures (f ()) s fun b _ => B b)
    (hf : b = false → Moves c result I (f ()) pre last B) :
    Moves c result I (faultIf b m >>= f) pre last B := by
  cases b with
  | false => exact hf rfl
  | true => exact fault_bind m hemits hb

theorem faultIf {b : Bool} {m : Message} {post : Unit → Nat} (h : b = false → pre = post ()) :
    Moves c result I (faultIf b m) pre post := by
  cases b with
  | false => exact pure (h rfl) trivial
  | true => exact fault m

/-! ### Operands -/

section Operands

variable {k : Nat} {x : Operand}

theorem symbol (id : SymbolId) :
    Moves c result I (symbol id) pre (fun _ => pre) fun s => s = c.table.symbol id := by
  refine silent (.symbol id) fun s hs => ?_
  change s.table.symbol id = c.table.symbol id
  rw [SymbolTable.symbol, hs]
  rfl

theorem operandOf (id : SymbolId) :
    Moves c result I (operandOf id) 0 Operand.held c.Knows := by
  apply (symbol id).bind
  rintro s rfl
  split
  · next x hx =>
      unfold Operand.ofSymbol? at hx
      split at hx
      · cases hx
        exact pure rfl (Calls.knows_of_location rfl)
      · cases hx
        refine pure ?_ (Calls.knows_of_location ?_) <;> dsimp only [Operand.held] <;> split <;> rfl
      · next hkind =>
          cases hx
          refine pure rfl fun id' hid => ?_
          obtain rfl : id = id' := Location.method.inj hid
          exact ⟨hkind, rfl⟩
      · cases hx
      · cases hx
  · exact fault_bind _ .pure fun _ => Calls.knows_of_location rfl

theorem emitAll {os : List Operation} {post : Unit → Nat}
    (h : ∀ d, Walk c.effect result (d + pre) (os.map Operation.item) (d + post ())) :
    Moves c result I (emitAll os) pre post :=
  fun _ hs => (ensures_emitAll os).mono fun _ s' ⟨⟨_, _, hs'⟩, hw⟩ =>
    ⟨by rwa [hs'], .of_eq (by rw [hs']), trivial, fun _ => ⟨_, hw, fun d _ => h d⟩⟩

theorem emit {op : Opcode} (operands : List Int) (k : Nat) (hop : op.isStraight = true) :
    Moves c result I (emit op operands) (k + op.pops) fun _ => k + op.pushes := by
  refine write fun d _ => ?_
  rw [← Nat.add_assoc, ← Nat.add_assoc]
  exact .straight (d + k) operands hop

/-- An operation that combines two values. -/
theorem combine {op : Opcode} (k : Nat) (hop : op.isStraight = true) (hpops : op.pops = 2)
    (hpushes : op.pushes = 1) : Moves c result I (Compiler.emit op []) (k + 2) fun _ => k + 1 := by
  rw [← hpops, ← hpushes]
  exact emit [] k hop

theorem power (n : Int) : Moves c result I (Compiler.emitAll (powerCode n)) 1 fun _ => 1 :=
  emitAll (Walk.power n)

/-- What was loaded is on the stack. -/
theorem load (x : Operand) :
    Moves c result I (load x) x.held (fun _ => 1) fun y => y = x.onStack := by
  unfold Compiler.load
  split
  · next os hx =>
      have hload : Moves c result I (Compiler.emitAll os) x.held fun _ => 1 :=
        emitAll (Walk.loadCode? hx)
      exact hload.bind fun _ _ => pure rfl rfl
  · exact fault_bind _ .pure fun _ => rfl

theorem store (x : Operand) : Moves c result I (store x) (x.held + 1) fun _ => 0 := by
  unfold Compiler.store
  split
  · next os hx => exact emitAll (Walk.storeCode? hx)
  · exact fault _

theorem assign (x y : Operand) : Moves c result I (assign x y) (x.held + y.held) fun _ => 0 :=
  ((load y).frame x.held).bind fun _ _ => (store x).bind fun _ _ => pure rfl trivial

theorem prepareUpdate (h : x.location.isAssignable = true) :
    Moves c result I (prepareUpdate x) x.held fun _ => x.held + 1 := by
  have hduplicate : Moves c result I (Compiler.emitAll x.duplicateCode) x.held
      fun _ => x.held + x.held := emitAll (Walk.duplicateCode h)
  exact hduplicate.bind fun _ _ => ((load x).frame x.held).bind fun _ _ => pure rfl trivial

theorem update (x y : Operand) {op : Opcode} (hop : op.isStraight = true) (hpops : op.pops = 2)
    (hpushes : op.pushes = 1) :
    Moves c result I (update x y op) (x.held + 1 + y.held) fun _ => 0 :=
  ((load y).frame (x.held + 1)).bind fun _ _ => (combine x.held hop hpops hpushes).bind fun _ _ =>
    (store x).bind fun _ _ => pure rfl trivial

theorem increment (h : x.location.isAssignable = true) (n : Int) :
    Moves c result I (increment x n) x.held fun _ => 0 := by
  have general : Moves c result I (do
      Compiler.prepareUpdate x
      let _ ← Compiler.update x (Operand.constant n .int) .add) x.held fun _ => 0 :=
    (prepareUpdate h).bind fun _ _ => (update x (.constant n .int) rfl rfl rfl).bind fun _ _ =>
      pure rfl trivial
  unfold Compiler.increment
  split
  · next slot hlocal =>
      split
      · rw [Operand.held, hlocal]
        have hinc : Opcode.inc.isStraight = true := rfl
        exact emit [slot, n] 0 hinc
      · exact general
  · exact general

/-- A method takes its arguments and leaves its value. -/
theorem call {id : SymbolId} (hx : c.Knows x) (hid : x.location = .method id) :
    Moves c result I (call x) (c.arity x) fun _ => x.type.words := by
  rcases hx id hid with ⟨hkind, htype⟩
  have harity : c.arity x = (c.table.symbol id).parameters.size := by
    rw [Calls.arity, hid]
  have hconvert : (id = SymbolTable.ordId ∨ id = SymbolTable.chrId) ∨ id = SymbolTable.lenId →
      c.arity x = 1 ∧ x.type.words = 1 := by
    intro h
    rcases c.predeclared id h with ⟨hone, hvalue⟩
    rw [htype] at hvalue
    exact ⟨harity.trans hone, if_neg hvalue⟩
  unfold Compiler.call
  rw [hid]
  by_cases hconv : id = SymbolTable.ordId ∨ id = SymbolTable.chrId
  · rcases hconvert (.inl hconv) with ⟨hone, hwords⟩
    rw [hone, hwords]
    simp only [hconv, if_true]
    exact pure rfl trivial
  · simp only [hconv, if_false]
    by_cases hlen : id = SymbolTable.lenId
    · rcases hconvert (.inr hlen) with ⟨hone, hwords⟩
      rw [hone, hwords, if_pos hlen]
      have hlength : Opcode.arrayLength.isStraight = true := rfl
      exact emit [] 0 hlength
    · rw [if_neg hlen, harity, ← htype]
      apply (symbol id).bind
      rintro s rfl
      refine write fun d _ => ?_
      have htakes : Item.Takes c.effect result _ (.call (c.table.symbol id).address) _ := .call d _
      rwa [c.declared id hkind (not_or.1 hconv) hlen] at htakes

theorem negate (x : Operand) :
    Moves c result I (negate x) x.held Operand.held c.Knows := by
  unfold MicroJava.negate
  split
  · next n hconstant =>
      refine pure ?_ (Calls.knows_of_location rfl)
      rw [Operand.held, hconstant]
      rfl
  · apply (load x).bind
    rintro y rfl
    have hneg : Opcode.neg.isStraight = true := rfl
    exact (emit [] 0 hneg).bind fun _ _ => pure rfl (Calls.knows_of_location rfl)

end Operands

end Moves

end Compiler

end MicroJava
