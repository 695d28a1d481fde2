import MicroJava.Proofs.Machine

/-!
# What expressions mean

The meaning of an expression follows its tree. Operands are evaluated from the left to the right, the
operators of a sum and of a product are applied in the order in which they stand, a power is that of the
product before it, and a leading minus negates the whole first product (`Expr.eval`). All arithmetic is
that of words.

A designator stands for a constant or for a cell, which is found by evaluating the reference and the
index in it (`Designator.locate`). Looking into the cell is a step of its own, which fails for a null
reference and for an index out of range.

Only what an expression calls and allocates can change the memory (`Expr.looks_eval`).
-/

namespace MicroJava

variable {ι : Type}

/-- What a designator stands for. -/
inductive Place where
  | constant (v : Word)
  | cell (c : Cell)
  deriving DecidableEq, Inhabited

namespace Place

/-- The value at a place. -/
def fetch : Place → Effect ι Word
  | constant v => pure v
  | cell c => c.fetch

/-- Puts a word at a place. A constant cannot be changed. -/
def put : Place → Word → Effect ι Unit
  | constant _, _ => throw .undefined
  | cell c, v => c.put v

/-- The words that the machine needs for a place on its stack. -/
def words : Place → List Word
  | constant _ | cell (.localVar _) | cell (.globalVar _) => []
  | cell (.field r _) => [r]
  | cell (.word r i) | cell (.byte r i) => [i, r]

end Place

/-- The place of an operand for which the given words are on the stack. -/
def Operand.toPlace (x : Operand) (ws : List Word) : Place :=
  match x.location with
  | .constant n => .constant (BitVec.ofInt 32 n)
  | .localVar slot => .cell (.localVar slot)
  | .globalVar address => .cell (.globalVar address)
  | .field offset => .cell (.field (ws.headD 0) offset)
  | .element =>
    .cell (if x.type = .char then .byte (ws.getD 1 0) (ws.headD 0)
      else .word (ws.getD 1 0) (ws.headD 0))
  | .stack | .method _ | .condition .. => .constant 0

/-- The operand is the place, its reference and index apart. Methods, and values that are on the stack
already, are none. -/
def Operand.Denotes (x : Operand) (p : Place) : Prop :=
  match x.location with
  | .constant n => p = .constant (BitVec.ofInt 32 n)
  | .localVar slot => p = .cell (.localVar slot)
  | .globalVar address => p = .cell (.globalVar address)
  | .field offset => ∃ r, p = .cell (.field r offset)
  | .element => ∃ r i, p = .cell (if x.type = .char then .byte r i else .word r i)
  | .stack | .method _ | .condition .. => False

/-- The methods that convert between numbers and characters, and the one that yields the length of an
array. -/
def SymbolTable.IsPredeclared (id : SymbolId) : Prop :=
  (id = ordId ∨ id = chrId) ∨ id = lenId

/-- What a method does with its arguments. Conversions yield their argument. -/
def Processor.invoke (P : Processor ι) (t : SymbolTable) (x : Operand) (vs : List Word) : Effect ι Word :=
  match x.location with
  | .method id =>
    if id = SymbolTable.ordId ∨ id = SymbolTable.chrId then pure (vs.headD 0)
    else if id = SymbolTable.lenId then arrayLength (vs.headD 0)
    else (P.method (t.symbol id).address).call vs
  | _ => pure 0

/-- The processor knows how many arguments the method takes, unless it is predeclared. -/
def Processor.Knows (P : Processor ι) (t : SymbolTable) (id : SymbolId) : Prop :=
  SymbolTable.IsPredeclared id ∨
    (P.method (t.symbol id).address).arity = (t.symbol id).parameters.size

namespace Tree

/-- An operator of sums, applied. -/
def AddOp.apply : AddOp → Word → Word → Word
  | plus, a, b => a + b
  | minus, a, b => a - b

/-- An operator of products, applied. -/
def MulOp.apply (P : Processor ι) : MulOp → Word → Word → Effect ι Word
  | times, a, b => pure (a * b)
  | slash, a, b => P.quotient a b
  | percent, a, b => P.remainder a b

mutual

/-- The value of a sum. -/
def Expr.eval (P : Processor ι) (t : SymbolTable) : Expr → Effect ι Word
  | .term x => x.eval P t
  | .neg x => do return -(← x.eval P t)
  | .add e op x => do
    let a ← e.eval P t
    let b ← x.eval P t
    return op.apply a b

/-- The value of a product. -/
def Term.eval (P : Processor ι) (t : SymbolTable) : Term → Effect ι Word
  | .factor f => f.eval P t
  | .mul x op f => do
    let a ← x.eval P t
    let b ← f.eval P t
    op.apply P a b
  | .power x k => do return (← x.eval P t) ^ (k.getD 1).toNat

/-- The value of a factor. -/
def Factor.eval (P : Processor ι) (t : SymbolTable) : Factor → Effect ι Word
  | .designator d => do (← d.locate P t).fetch
  | .call d arguments _ => do P.invoke t (d.place t) (← evalArguments P t arguments)
  | .number n | .char n => pure (BitVec.ofInt 32 n)
  | .newObject name => P.new (((t.type? name).map t.fields).getD #[]).size
  | .newArray name size _ => do P.newArray (t.type? name = some .char) (← size.eval P t)
  | .group e _ => e.eval P t
  | .missing => pure 0

/-- The place that a designator stands for. -/
def Designator.locate (P : Processor ι) (t : SymbolTable) : Designator → Effect ι Place
  | .name n => pure (((Designator.name n).place t).toPlace [])
  | .field d n => do
    let r ← (← d.locate P t).fetch
    return ((Designator.field d n).place t).toPlace [r]
  | .element d index closed => do
    let r ← (← d.locate P t).fetch
    let i ← index.eval P t
    return ((Designator.element d index closed).place t).toPlace [i, r]

/-- The values of the arguments of a call. -/
def evalArguments (P : Processor ι) (t : SymbolTable) : List Expr → Effect ι (List Word)
  | [] => pure []
  | e :: es => do
    let v ← e.eval P t
    let vs ← evalArguments P t es
    return v :: vs

end

mutual

/-- Only such methods are called in a sum, nothing is allocated in it unless `A` holds, and no exponent
is negative. -/
def Expr.Uses (t : SymbolTable) (K : SymbolId → Prop) (A : Prop) : Expr → Prop
  | .term x | .neg x => x.Uses t K A
  | .add e _ x => e.Uses t K A ∧ x.Uses t K A

/-- Only such methods are called in a product, and so on. -/
def Term.Uses (t : SymbolTable) (K : SymbolId → Prop) (A : Prop) : Term → Prop
  | .factor f => f.Uses t K A
  | .mul x _ f => x.Uses t K A ∧ f.Uses t K A
  | .power x k => x.Uses t K A ∧ ∀ n ∈ k, 0 ≤ n

/-- Only such methods are called in a factor, and so on. -/
def Factor.Uses (t : SymbolTable) (K : SymbolId → Prop) (A : Prop) : Factor → Prop
  | .designator d => d.Uses t K A
  | .call d arguments _ =>
    d.Uses t K A ∧ UsesOfArguments t K A arguments ∧ ∀ id, (d.place t).location = .method id → K id
  | .number _ | .char _ | .missing => True
  | .newObject _ => A
  | .newArray _ size _ => A ∧ size.Uses t K A
  | .group e _ => e.Uses t K A

/-- Only such methods are called in a designator, and so on. -/
def Designator.Uses (t : SymbolTable) (K : SymbolId → Prop) (A : Prop) : Designator → Prop
  | .name _ => True
  | .field d _ => d.Uses t K A
  | .element d index _ => d.Uses t K A ∧ index.Uses t K A

/-- Only such methods are called in the arguments of a call, and so on. -/
def UsesOfArguments (t : SymbolTable) (K : SymbolId → Prop) (A : Prop) : List Expr → Prop
  | [] => True
  | e :: es => e.Uses t K A ∧ UsesOfArguments t K A es

end

/-- A sum without calls of declared methods and without allocation. -/
def Expr.Simple (t : SymbolTable) (e : Expr) : Prop := e.Uses t SymbolTable.IsPredeclared False

end Tree

/-! ### What changes nothing -/

/-- What comes after a step begins with its value and its memory. -/
theorem Effect.exists_of_bind {α β : Type} {x : Effect ι α} {f : α → Effect ι β} {m : Memory ι}
    {r : β × Memory ι} (h : (x >>= f) m = .ok r) :
    ∃ a m', x m = .ok (a, m') ∧ f a m' = .ok r := by
  change (x m >>= fun p => f p.1 p.2) = _ at h
  cases hx : x m with
  | error e =>
      rw [hx] at h
      cases h
  | ok p =>
      rw [hx] at h
      exact ⟨p.1, p.2, rfl, h⟩

/-- A step that leaves the memory as it is and can fail for the usual reasons only. -/
def Effect.Looks {α : Type} (x : Effect ι α) : Prop :=
  ∀ m, ∃ r : Except Trap α, x m = r.map (·, m) ∧ ∀ e, r = .error e → e.IsFailure

namespace Effect.Looks

variable {α β : Type} {x : Effect ι α} {f : α → Effect ι β}

theorem bind (hx : Looks x) (hf : ∀ a, Looks (f a)) : Looks (x >>= f) := by
  intro m
  obtain ⟨r, hr, hfailure⟩ := hx m
  have hbind : (x >>= f) m = x m >>= fun p => f p.1 p.2 := rfl
  rw [hbind, hr]
  cases r with
  | error e => exact ⟨.error e, rfl, fun _ he => by cases he; exact hfailure e rfl⟩
  | ok a => exact hf a m

/-- After a step that only looks the memory is the same. -/
theorem eq_of_ok (hx : Looks x) {m m' : Memory ι} {a : α} (h : x m = .ok (a, m')) : m' = m := by
  obtain ⟨r, hr, -⟩ := hx m
  rw [hr] at h
  cases r with
  | error e => cases h
  | ok b => exact (Prod.mk.inj (Except.ok.inj h)).2.symm

theorem pure (a : α) : Looks (Pure.pure a : Effect ι α) := fun _ => ⟨.ok a, rfl, nofun⟩

theorem throw {e : Trap} (h : e.IsFailure) : Looks (MonadExcept.throw e : Effect ι α) :=
  fun _ => ⟨.error e, rfl, fun _ he => by cases he; exact h⟩

theorem cell (c : Cell) : Looks (c.fetch : Effect ι Word) := by
  intro m
  unfold Cell.fetch
  cases haccess : c.access m with
  | error e => exact ⟨.error e, rfl, fun _ he => by cases he; exact Cell.isFailure_of_access haccess⟩
  | ok _ => exact ⟨.ok (c.keep (m.cells c)), rfl, nofun⟩

theorem fetch (p : Place) : Looks (p.fetch : Effect ι Word) := by
  cases p with
  | constant v => exact pure v
  | cell c => exact cell c

theorem arrayLength (r : Word) : Looks (MicroJava.arrayLength r : Effect ι Word) := by
  intro m
  unfold MicroJava.arrayLength
  split
  · exact throw (e := .null) trivial m
  · exact pure (m.length r) m

variable (P : Processor ι)

theorem quotient (a b : Word) : Looks (P.quotient a b) := by
  unfold Processor.quotient
  split
  · exact throw trivial
  · exact pure _

theorem remainder (a b : Word) : Looks (P.remainder a b) := by
  unfold Processor.remainder
  split
  · exact throw trivial
  · exact pure _

theorem invoke {t : SymbolTable} {x : Operand}
    (h : ∀ id, x.location = .method id → SymbolTable.IsPredeclared id) (vs : List Word) :
    Looks (P.invoke t x vs) := by
  unfold Processor.invoke
  split
  · next id hid =>
      have hid := h id hid
      split
      · exact pure _
      · next hconversion =>
          rw [if_pos (hid.resolve_left hconversion)]
          exact arrayLength _
  · exact pure 0

end Effect.Looks

namespace Tree

open Effect

variable (P : Processor ι) {t : SymbolTable}

theorem MulOp.looks_apply (op : MulOp) (a b : Word) : Looks (op.apply P a b) := by
  cases op with
  | times => exact .pure _
  | slash => exact .quotient P a b
  | percent => exact .remainder P a b

mutual

/-- Evaluating a simple expression changes nothing, and it fails only if an operation in it fails. -/
theorem Expr.looks_eval : (e : Expr) → e.Simple t → Looks (e.eval P t)
  | .term x, h => by
      rw [Expr.Simple, Expr.Uses] at h
      rw [Expr.eval]
      exact x.looks_eval h
  | .neg x, h => by
      rw [Expr.Simple, Expr.Uses] at h
      rw [Expr.eval]
      exact (x.looks_eval h).bind fun _ => .pure _
  | .add e op x, h => by
      rw [Expr.Simple, Expr.Uses] at h
      rw [Expr.eval]
      exact (e.looks_eval h.1).bind fun _ => (x.looks_eval h.2).bind fun _ => .pure _

theorem Term.looks_eval : (x : Term) → x.Uses t SymbolTable.IsPredeclared False → Looks (x.eval P t)
  | .factor f, h => by
      rw [Term.Uses] at h
      rw [Term.eval]
      exact f.looks_eval h
  | .mul x op f, h => by
      rw [Term.Uses] at h
      rw [Term.eval]
      exact (x.looks_eval h.1).bind fun a => (f.looks_eval h.2).bind fun b => op.looks_apply P a b
  | .power x k, h => by
      rw [Term.Uses] at h
      rw [Term.eval]
      exact (x.looks_eval h.1).bind fun _ => .pure _

theorem Factor.looks_eval : (f : Factor) → f.Uses t SymbolTable.IsPredeclared False →
    Looks (f.eval P t)
  | .designator d, h => by
      rw [Factor.Uses] at h
      rw [Factor.eval]
      exact (d.looks_locate h).bind fun p => .fetch p
  | .call d arguments _, h => by
      rw [Factor.Uses] at h
      rw [Factor.eval]
      exact (looks_evalArguments arguments h.2.1).bind fun vs => .invoke P h.2.2 vs
  | .number n, _ | .char n, _ => by
      rw [Factor.eval]
      exact .pure _
  | .newObject _, h => by
      rw [Factor.Uses] at h
      exact h.elim
  | .newArray _ _ _, h => by
      rw [Factor.Uses] at h
      exact h.1.elim
  | .group e _, h => by
      rw [Factor.Uses] at h
      rw [Factor.eval]
      exact e.looks_eval h
  | .missing, _ => by
      rw [Factor.eval]
      exact .pure 0

theorem Designator.looks_locate : (d : Designator) → d.Uses t SymbolTable.IsPredeclared False →
    Looks (d.locate P t)
  | .name n, _ => by
      rw [Designator.locate]
      exact .pure _
  | .field d n, h => by
      rw [Designator.Uses] at h
      rw [Designator.locate]
      exact (d.looks_locate h).bind fun p => (Looks.fetch p).bind fun _ => .pure _
  | .element d index closed, h => by
      rw [Designator.Uses] at h
      rw [Designator.locate]
      exact (d.looks_locate h.1).bind fun p => (Looks.fetch p).bind fun _ =>
        (index.looks_eval h.2).bind fun _ => .pure _

theorem looks_evalArguments : (es : List Expr) →
    UsesOfArguments t SymbolTable.IsPredeclared False es → Looks (evalArguments P t es)
  | [], _ => by
      rw [evalArguments]
      exact .pure _
  | e :: es, h => by
      rw [UsesOfArguments] at h
      rw [evalArguments]
      exact (e.looks_eval h.1).bind fun _ => (looks_evalArguments es h.2).bind fun _ => .pure _

end

end Tree

end MicroJava
