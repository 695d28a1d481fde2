import MicroJava.Proofs.Assembly

/-!
# Work on code as a sequence of steps

Any work on code is a sequence of steps: bytes are written, values are loaded and stored, methods
are called, labels are made, jumped to and placed, and the ways that are too far are counted.
`CodeStep.trace` lists the steps with the addresses at which they were taken.

However a step comes about, it does one of six things to the code (`CodeStep.does_act`). All but
those on labels and on the count of far ways write bytes at the end.
-/

namespace MicroJava

open Compiler

/-- A step of work on code. `put` and `putInt` write raw bytes. The methods that are called are those
of a symbol table. -/
inductive CodeStep where
  | put (op : Opcode)
  | putInt (n : Nat) (x : Int)
  | pushConstant (n : Int)
  | load (x : Operand)
  | store (x : Operand)
  | assign (x y : Operand)
  | prepareUpdate (x : Operand)
  | update (x y : Operand) (op : Opcode)
  | increment (x : Operand) (n : Int)
  | call (t : SymbolTable) (x : Operand)
  | newLabel
  | jump (l : Label)
  | jumpIf (r : Relation) (l : Label)
  | jumpUnless (r : Relation) (l : Label)
  | place (l : Label)
  | takeFarCount

namespace CodeStep

/-- Takes a step. -/
def act : CodeStep → CompilerM Unit
  | put op => modifyCode (·.put op)
  | putInt n x => modifyCode (·.putInt n x)
  | pushConstant n => emitAll [MicroJava.pushConstant n]
  | load x => do let _ ← Compiler.load x
  | store x => Compiler.store x
  | assign x y => do let _ ← Compiler.assign x y
  | prepareUpdate x => Compiler.prepareUpdate x
  | update x y op => do let _ ← Compiler.update x y op
  | increment x n => Compiler.increment x n
  | call t x => do
    modifyTable fun _ => t
    Compiler.call x
  | newLabel => do let _ ← Compiler.newLabel
  | jump l => Compiler.jump l
  | jumpIf r l => Compiler.jumpIf r l
  | jumpUnless r l => Compiler.jumpUnless r l
  | place l => Compiler.place l
  | takeFarCount => do let _ ← Compiler.takeFarCount

/-- The state after some steps. -/
def run (s : Compiler) : List CodeStep → Compiler
  | [] => s
  | c :: cs => run (c.act s).2 cs

/-- The steps with the addresses at which they are taken. -/
def trace (s : Compiler) : List CodeStep → List (Nat × CodeStep)
  | [] => []
  | c :: cs => (s.code.pc, c) :: trace (c.act s).2 cs

/-- The label that a jump leads to. -/
def target? : CodeStep → Option Label
  | jump l | jumpIf _ l | jumpUnless _ l => some l
  | _ => none

/-- The label that is placed. -/
def placed? : CodeStep → Option Label
  | place l => some l
  | _ => none

/-- The address of the method that is called. Conversions and `len` are no calls. -/
def callee? : CodeStep → Option Int
  | call t x =>
    match x.location with
    | .method id =>
      if (id = SymbolTable.ordId ∨ id = SymbolTable.chrId) ∨ id = SymbolTable.lenId then none
      else some (t.symbol id).address
    | _ => none
  | _ => none

/-- Whether a label is made. -/
def isNewLabel : CodeStep → Bool
  | newLabel => true
  | _ => false

/-- Whether the count of ways that are too far begins anew. -/
def isTakeFarCount : CodeStep → Bool
  | takeFarCount => true
  | _ => false

/-- Labels are made before they are used, and none is placed twice. Before the steps `made` labels
were made, and those in `placed` have a place. -/
def Allowed (made : Nat) (placed : List Label) : List CodeStep → Prop
  | [] => True
  | c :: cs => (∀ l ∈ c.target?, l < made) ∧ (∀ l ∈ c.placed?, l < made ∧ l ∉ placed) ∧
      Allowed (if c.isNewLabel then made + 1 else made) (c.placed?.toList ++ placed) cs

/-! ### What steps do to the code -/

/-- A step that neither calls a method nor has to do with labels or with the count of ways. -/
structure IsPlain (c : CodeStep) : Prop where
  target : c.target? = none
  placed : c.placed? = none
  callee : c.callee? = none
  label : c.isNewLabel = false
  count : c.isTakeFarCount = false

/-- What a step makes of the code. -/
inductive Does (e : Emitter) : CodeStep → Emitter → Prop where
  | write {c : CodeStep} (h : c.IsPlain) (bs : Bytes) : Does e c (e.append bs)
  | call {t : SymbolTable} {x : Operand} {address : Int} (h : (call t x).callee? = some address) :
    Does e (.call t x) (e.emitTo .call address)
  | jump {c : CodeStep} {op : Opcode} {l : Label} (h : c.target? = some l) (hop : op.isJump = true) :
    Does e c (e.jump op l)
  | newLabel : Does e .newLabel e.addLabel
  | place (l : Label) : Does e (.place l) (e.place l)
  | takeFarCount : Does e .takeFarCount e.resetFarCount

end CodeStep

theorem Emitter.append_append (e : Emitter) (bs cs : Bytes) :
    (e.append bs).append cs = e.append (bs ++ cs) := by
  have hcode : (e.code.appendList bs).appendList cs = e.code.appendList (bs ++ cs) :=
    Array.toList_inj.1 (by simp)
  simp only [append, hcode]

namespace Compiler

/-- A step that writes bytes and does nothing else to the code. -/
def WritesBytes {α : Type} (x : CompilerM α) : Prop :=
  ∀ s, ∃ bs, (x s).2.code = s.code.append bs

namespace WritesBytes

variable {α β : Type} {x : CompilerM α} {f : α → CompilerM β}

theorem of_code (h : ∀ s, (x s).2.code = s.code) : WritesBytes x := by
  intro s
  refine ⟨[], ?_⟩
  rw [h s]
  rfl

theorem bind (hx : WritesBytes x) (hf : ∀ a, WritesBytes (f a)) : WritesBytes (x >>= f) := by
  intro s
  obtain ⟨bs, hbs⟩ := hx s
  obtain ⟨cs, hcs⟩ := hf (x s).1 (x s).2
  refine ⟨bs ++ cs, ?_⟩
  change (f (x s).1 (x s).2).2.code = _
  rw [hcs, hbs, Emitter.append_append]

theorem pure {a : α} : WritesBytes (Pure.pure a) := of_code fun _ => rfl

theorem fault (m : Message) : WritesBytes (fault m) := of_code fun _ => rfl

theorem symbol (id : SymbolId) : WritesBytes (symbol id) := of_code fun _ => rfl

theorem emit (op : Opcode) (operands : List Int) : WritesBytes (emit op operands) :=
  fun _ => ⟨_, rfl⟩

theorem emitAll (os : List Operation) : WritesBytes (emitAll os) := by
  induction os with
  | nil => exact pure
  | cons o os ih => exact (emit o.1 o.2).bind fun _ => ih

theorem load (x : Operand) : WritesBytes (load x) := by
  unfold Compiler.load
  split
  · exact (emitAll _).bind fun _ => pure
  · exact (fault _).bind fun _ => pure

theorem store (x : Operand) : WritesBytes (store x) := by
  unfold Compiler.store
  split
  · exact emitAll _
  · exact fault _

theorem prepareUpdate (x : Operand) : WritesBytes (prepareUpdate x) :=
  (emitAll _).bind fun _ => (load x).bind fun _ => pure

theorem update (x y : Operand) (op : Opcode) : WritesBytes (update x y op) :=
  (load y).bind fun _ => (emit op []).bind fun _ => (store x).bind fun _ => pure

theorem increment (x : Operand) (n : Int) : WritesBytes (increment x n) := by
  have general : WritesBytes (do
      Compiler.prepareUpdate x
      let _ ← Compiler.update x (Operand.constant n .int) .add) :=
    (prepareUpdate x).bind fun _ => (update x _ _).bind fun _ => pure
  unfold Compiler.increment
  split
  · split
    · exact emit _ _
    · exact general
  · exact general

end WritesBytes

end Compiler

namespace CodeStep

theorem does_write (c : CodeStep) (h : c.IsPlain) (hact : WritesBytes c.act) (s : Compiler) :
    Does s.code c (c.act s).2.code := by
  obtain ⟨bs, hbs⟩ := hact s
  rw [hbs]
  exact .write h bs

/-- A call is written only for a method that is neither a conversion nor `len`. -/
theorem does_call (t : SymbolTable) (x : Operand) (s : Compiler) :
    Does s.code (.call t x) ((call t x).act s).2.code := by
  have hact : (call t x).act s = Compiler.call x { s with table := t } := rfl
  rw [hact]
  rcases x with ⟨location, type⟩
  cases location with
  | method id =>
      have hcallee : (call t ⟨.method id, type⟩).callee? =
        if (id = SymbolTable.ordId ∨ id = SymbolTable.chrId) ∨ id = SymbolTable.lenId then none
        else some (t.symbol id).address := rfl
      unfold Compiler.call
      dsimp only
      by_cases hconv : id = SymbolTable.ordId ∨ id = SymbolTable.chrId
      · rw [if_pos hconv]
        exact .write ⟨rfl, rfl, hcallee.trans (if_pos (.inl hconv)), rfl, rfl⟩ []
      · rw [if_neg hconv]
        by_cases hlen : id = SymbolTable.lenId
        · rw [if_pos hlen]
          exact .write ⟨rfl, rfl, hcallee.trans (if_pos (.inr hlen)), rfl, rfl⟩ _
        · rw [if_neg hlen]
          exact .call (hcallee.trans (if_neg (not_or.2 ⟨hconv, hlen⟩)))
  | _ => exact .write ⟨rfl, rfl, rfl, rfl, rfl⟩ []

theorem does_act (c : CodeStep) (s : Compiler) : Does s.code c (c.act s).2.code := by
  cases c with
  | put op => exact .write ⟨rfl, rfl, rfl, rfl, rfl⟩ [op.byte]
  | putInt n x => exact .write ⟨rfl, rfl, rfl, rfl, rfl⟩ _
  | pushConstant n =>
      exact does_write (.pushConstant n) ⟨rfl, rfl, rfl, rfl, rfl⟩ (.emitAll _) s
  | load x =>
      have hload : WritesBytes (load x).act := (WritesBytes.load x).bind fun _ => .pure
      exact does_write _ ⟨rfl, rfl, rfl, rfl, rfl⟩ hload s
  | store x => exact does_write (.store x) ⟨rfl, rfl, rfl, rfl, rfl⟩ (.store x) s
  | assign x y =>
      have hassign : WritesBytes (assign x y).act := (WritesBytes.load y).bind fun _ =>
        (WritesBytes.store x).bind fun _ => .pure
      exact does_write _ ⟨rfl, rfl, rfl, rfl, rfl⟩ hassign s
  | prepareUpdate x =>
      exact does_write (.prepareUpdate x) ⟨rfl, rfl, rfl, rfl, rfl⟩ (.prepareUpdate x) s
  | update x y op =>
      have hupdate : WritesBytes (update x y op).act :=
        (WritesBytes.update x y op).bind fun _ => .pure
      exact does_write _ ⟨rfl, rfl, rfl, rfl, rfl⟩ hupdate s
  | increment x n =>
      exact does_write (.increment x n) ⟨rfl, rfl, rfl, rfl, rfl⟩ (.increment x n) s
  | call t x => exact does_call t x s
  | newLabel => exact .newLabel
  | jump l => exact .jump rfl rfl
  | jumpIf r l => exact .jump rfl (by cases r <;> rfl)
  | jumpUnless r l => exact .jump rfl (by cases r <;> rfl)
  | place l => exact .place l
  | takeFarCount => exact .takeFarCount

/-! ### Steps that were taken -/

/-- The addresses of the jumps to a label. -/
def jumpsTo (l : Label) (t : List (Nat × CodeStep)) : List Nat :=
  (t.filter fun x => x.2.target? = some l).map Prod.fst

/-- The addresses at which a label is placed. -/
def placesOf (l : Label) (t : List (Nat × CodeStep)) : List Nat :=
  (t.filter fun x => x.2.placed? = some l).map Prod.fst

/-- The number of bytes that a step takes at least. -/
def room (c : CodeStep) : Nat := if c.target?.isSome then 3 else 0

/-- Two steps take their room at different places. -/
def Apart (x y : Nat × CodeStep) : Prop :=
  x.1 + x.2.room ≤ y.1 ∨ y.1 + y.2.room ≤ x.1

instance : Std.Symm Apart := ⟨fun _ _ => Or.symm⟩

/-- The operand of the jump at `a` is the given way. -/
def HasWay (code : Array UInt8) (a : Nat) (way : Int) : Prop :=
  code[a + 1]? = some (BigEndian.lowByte (way / 256)) ∧
    code[a + 2]? = some (BigEndian.lowByte way)

section Traces

variable {t : List (Nat × CodeStep)} {a : Nat} {c : CodeStep} {l : Label}

theorem placed?_eq_some : c.placed? = some l ↔ c = .place l := by
  cases c <;> simp [placed?]

theorem mem_jumpsTo : a ∈ jumpsTo l t ↔ ∃ c, (a, c) ∈ t ∧ c.target? = some l := by
  simp [jumpsTo]

theorem mem_placesOf : a ∈ placesOf l t ↔ (a, .place l) ∈ t := by
  simp [placesOf, placed?_eq_some]

theorem jumpsTo_concat : jumpsTo l (t ++ [(a, c)]) =
    jumpsTo l t ++ if c.target? = some l then [a] else [] := by
  by_cases h : c.target? = some l <;> simp [jumpsTo, h]

theorem room_of_target? (h : c.target? = some l) : c.room = 3 := by
  simp [room, h]

theorem room_of_isPlain (h : c.target? = none) : c.room = 0 := by
  simp [room, h]

/-- A step that jumps places no label. -/
theorem ne_place_of_target? {m : Label} (h : c.target? = some l) : c ≠ .place m := by
  rintro rfl
  simp [target?] at h

theorem isNewLabel_of_target? (h : c.target? = some l) : c.isNewLabel = false := by
  cases c <;> simp_all [target?, isNewLabel]

end Traces

end CodeStep

end MicroJava
