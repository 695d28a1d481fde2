import MicroJava.Proofs.ExpressionCode

/-!
# The plain code of statements

The jumps and labels of a statement apart, what is written for it is the code of its expressions and
what is done with their values, one after the other (`Statement.plain`). So every instruction with an
operand of its own is one that the tree asks for in its place.
-/

namespace MicroJava

/-- An item of code that is neither a jump nor concerned with labels. -/
def Item.isPlain : Item → Bool
  | instruction .. | call _ => true
  | _ => false

namespace Item

@[simp] theorem isPlain_instruction (op : Opcode) (operands : List Int) :
    (instruction op operands).isPlain = true := rfl

@[simp] theorem isPlain_call (a : Int) : (call a).isPlain = true := rfl

@[simp] theorem isPlain_jump (op : Opcode) (l : Label) : (jump op l).isPlain = false := rfl

@[simp] theorem isPlain_place (l : Label) : (place l).isPlain = false := rfl

@[simp] theorem isPlain_label : label.isPlain = false := rfl

@[simp] theorem isPlain_statement : statement.isPlain = false := rfl

@[simp] theorem isPlain_operation (o : Operation) : (Operation.item o).isPlain = true := rfl

end Item

theorem Item.IsStraight.isPlain {i : Item} (h : i.IsStraight) : i.isPlain = true := by
  cases i <;> first | rfl | exact h.elim

/-- Straight code is plain. -/
theorem filter_isPlain_of_isStraight {is : List Item} (h : ∀ i ∈ is, i.IsStraight) :
    is.filter Item.isPlain = is :=
  List.filter_eq_self.2 fun i hi => (h i hi).isPlain

namespace Operand

/-- The code that adds a number to the value of an operand. -/
def stepping (x : Operand) (k : Int) : List Item :=
  match x.location with
  | .localVar slot => [.instruction .inc [slot, k]]
  | _ => x.duplicating ++ x.loading ++ (constant k .int).loading ++ [.instruction .add []] ++ x.storing

end Operand

namespace Tree

variable (t : SymbolTable)

/-- The code of a comparison, its jump apart. -/
def Comparison.code (c : Comparison) : List Item :=
  c.left.code t ++ c.right.code t

/-- The plain code of a conjunction. -/
def Conjunction.plain : Conjunction → List Item
  | .comparison c => c.code t
  | .and cs c => cs.plain ++ c.code t

/-- The plain code of a condition. -/
def Condition.plain : Condition → List Item
  | .conjunction c => c.plain t
  | .or cs c => cs.plain ++ c.plain t

/-- The code of what happens to a designator whose place is `x`. -/
def Action.code (x : Operand) : Action → List Item
  | .assign op value =>
    match op.opcode? with
    | none => value.code t ++ x.storing
    | some operation =>
      x.duplicating ++ x.loading ++ value.code t ++ [.instruction operation []] ++ x.storing
  | .call arguments _ =>
    codeOfArguments t arguments ++ x.calling t ++
      if x.type = .void then [] else [.instruction .pop []]
  | .increment => x.stepping 1
  | .decrement => x.stepping (-1)
  | .missing => []

mutual

/-- The plain code of a statement. -/
def Statement.plain : Statement → List Item
  | .action d a _ => d.code t ++ a.code t (d.place t)
  | .ifThen _ c _ body | .whileDo _ c _ body => c.plain t ++ body.plain
  | .ifThenElse _ c _ body other => c.plain t ++ body.plain ++ other.plain
  | .give value _ =>
    (value.map (Expr.code t)).getD [] ++ [.instruction .exit [], .instruction .ret []]
  | .read _ d _ _ =>
    d.code t ++ [.instruction ((readOpcode? (d.place t).type).getD .read) []] ++ (d.place t).storing
  | .print _ value width _ _ =>
    value.code t ++ [Operation.item (pushConstant (width.join.getD 0)),
      .instruction ((printOpcode? (value.operand t).type).getD .print) []]
  | .block statements _ => plainOfStatements statements
  | .leave _ | .empty | .missing | .skipped _ => []

/-- The plain code of statements one after the other. -/
def plainOfStatements : List Statement → List Item
  | [] => []
  | s :: ss => s.plain ++ plainOfStatements ss

end

/-- All names of a comparison stand for something that can be used there. -/
def Comparison.Valid (c : Comparison) : Prop :=
  c.left.Valid t ∧ c.right.Valid t

/-- All names of a conjunction stand for something that can be used there. -/
def Conjunction.Valid : Conjunction → Prop
  | .comparison c => c.Valid t
  | .and cs c => cs.Valid ∧ c.Valid t

/-- All names of a condition stand for something that can be used there. -/
def Condition.Valid : Condition → Prop
  | .conjunction c => c.Valid t
  | .or cs c => cs.Valid ∧ c.Valid t

/-- What happens can happen to the operand `x`. -/
def Action.Valid (x : Operand) : Action → Prop
  | .assign _ value => value.Valid t ∧ x.storeCode?.isSome
  | .call arguments _ => ValidArguments t arguments ∧
      ∃ id, x.location = .method id ∧ arguments.length = (t.symbol id).parameters.size
  | .increment | .decrement => x.storeCode?.isSome
  | .missing => False

mutual

/-- All names of a statement stand for something that can be used there. -/
def Statement.Valid : Statement → Prop
  | .action d a _ => d.Valid t ∧ a.Valid t (d.place t)
  | .ifThen _ c _ body | .whileDo _ c _ body => c.Valid t ∧ body.Valid
  | .ifThenElse _ c _ body other => c.Valid t ∧ body.Valid ∧ other.Valid
  | .give value _ => ∀ e ∈ value, e.Valid t
  | .read _ d _ _ => d.Valid t ∧ (d.place t).storeCode?.isSome ∧
      (readOpcode? (d.place t).type).isSome
  | .print _ value _ _ _ => value.Valid t
  | .block statements _ => ValidStatements statements
  | .leave _ | .empty => True
  | .missing | .skipped _ => False

/-- All names of several statements stand for something that can be used there. -/
def ValidStatements : List Statement → Prop
  | [] => True
  | s :: ss => s.Valid ∧ ValidStatements ss

end

end Tree

/-! ### What is written -/

namespace Makes

open Compiler

variable {t : SymbolTable}

/-- What was written for a value, and the code that pushes it. -/
theorem pushes {x : CompilerM Operand} {y : Operand} {code : List Item} {valid : Prop}
    (hx : Makes t x fun z _ is => y.Leaves code valid z is) :
    Makes t (x >>= Compiler.load) fun _ _ is => is = code ∧ valid :=
  hx.next fun z => (load z).mono fun _ _ is ⟨his, hsome, _⟩ js h =>
    ⟨by rw [← h.code, his], h.valid hsome⟩

theorem requireAssignable (x : Operand) : Makes t (requireAssignable x) fun _ _ is =>
    is = [] ∧ x.storeCode?.isSome :=
  (faultIf _ _).mono fun _ _ _ ⟨his, h⟩ => ⟨his, by rw [x.isSome_storeCode?]; simpa using h⟩

theorem assign (x y : Operand) : Makes t (Compiler.assign x y) fun _ _ is =>
    is = y.loading ++ x.storing ∧ y.loadCode?.isSome :=
  (load y).next fun _ => (store x).next fun _ => pure fun _ is ⟨his, _⟩ js ⟨hjs, hsome, _⟩ =>
    ⟨by rw [his, hjs, List.append_nil], hsome⟩

theorem prepareUpdate (x : Operand) : Makes t (prepareUpdate x) fun _ _ is =>
    is = x.duplicating ++ x.loading :=
  (emitAll fun o ho => (Operand.duplicateCode_isStraight ho).isInner).next fun _ => (load x).next
    fun _ => pure fun _ is ⟨his, _⟩ js hjs => by rw [his, hjs, List.append_nil]; rfl

theorem update (x y : Operand) {op : Opcode} (hop : (Item.instruction op []).IsInner) :
    Makes t (update x y op) fun _ _ is =>
      is = y.loading ++ [.instruction op []] ++ x.storing ∧ y.loadCode?.isSome :=
  (load y).next fun _ => (emit hop).next fun _ => (store x).next fun _ =>
    pure fun _ is ⟨his, _⟩ js hjs ks ⟨hks, hsome, _⟩ =>
      ⟨by rw [his, hjs, hks]; simp, hsome⟩

theorem increment (x : Operand) {k : Int} (hk : -128 ≤ k ∧ k ≤ 127) :
    Makes t (increment x k) fun _ _ is => is = x.stepping k := by
  have general : Makes t (do
      Compiler.prepareUpdate x
      let _ ← Compiler.update x (Operand.constant k .int) .add) fun _ _ is =>
        is = x.duplicating ++ x.loading ++ (Operand.constant k .int).loading ++
          [.instruction .add []] ++ x.storing :=
    (prepareUpdate x).next fun _ => (update x (.constant k .int) ⟨by decide, rfl, rfl⟩).next fun _ =>
      pure fun _ is ⟨his, _⟩ js hjs => by rw [his, hjs]; simp
  unfold Compiler.increment Operand.stepping
  cases x.location with
  | localVar slot =>
      dsimp only
      rw [if_pos hk]
      exact emit ⟨by decide, rfl, rfl⟩
  | _ => exact general

theorem jumpWith (op : Opcode) (l : Label) (h : op.isJump = true) :
    Makes t (jumpWith op l) fun _ _ is => is = [.jump op l] :=
  silent_bind (.refer _) fun _ => write h

theorem jumpIf (r : Relation) (l : Label) : Makes t (jumpIf r l) fun _ _ is => is = [.jump r.jump l] :=
  jumpWith _ _ (Relation.isJump_jump r)

theorem jumpUnless (r : Relation) (l : Label) :
    Makes t (jumpUnless r l) fun _ _ is => is = [.jump r.negation.jump l] :=
  jumpWith _ _ (Relation.isJump_jump _)

theorem readValue (type : Ty) : Makes t (Tree.readValue type) fun _ _ is =>
    is = [.instruction ((readOpcode? type).getD .read) []] ∧ (readOpcode? type).isSome := by
  unfold Tree.readValue
  split
  · next op hop =>
      rw [hop]
      refine (emit (Item.IsStraight.isInner ?_)).mono fun _ _ _ his => ⟨his, rfl⟩
      unfold readOpcode? at hop
      split at hop <;> cases hop <;> exact ⟨rfl, rfl⟩
  · exact fault _

theorem compileWidth (width : Option (Option Int)) : Makes t (Tree.compileWidth width) fun n _ is =>
    is = [] ∧ n = width.join.getD 0 := by
  cases width with
  | none => exact pure fun _ => ⟨rfl, rfl⟩
  | some k =>
      exact silent_bind .shift fun _ => (expectNumber 0 k).mono fun _ _ _ ⟨his, hk⟩ => by
        rw [hk]
        exact ⟨his, rfl⟩

end Makes

namespace Tree

open Compiler

variable {t : SymbolTable}

/-- Whether a value can be printed and how depends on the shape of its type. -/
theorem printOpcode?_congr {type type' : Ty} (h : type.shape = type'.shape) :
    printOpcode? type = printOpcode? type' := by
  cases type <;> cases type' <;> first | rfl | cases h

@[simp] theorem Expr.filter_code (e : Expr) : (e.code t).filter Item.isPlain = e.code t :=
  filter_isPlain_of_isStraight (e.isStraight_code t)

@[simp] theorem Designator.filter_code (d : Designator) :
    (d.code t).filter Item.isPlain = d.code t :=
  filter_isPlain_of_isStraight (d.isStraight_code t)

@[simp] theorem filter_codeOfArguments (es : List Expr) :
    (codeOfArguments t es).filter Item.isPlain = codeOfArguments t es :=
  filter_isPlain_of_isStraight (isStraight_codeOfArguments t es)

theorem Comparison.makes_compile (ht : t.Closed) (c : Comparison) :
    Makes t c.compile fun _ _ is => is = c.code t ∧ c.Valid t := by
  refine (c.left.makes_compile ht).next fun x => (Makes.load x).next fun _ =>
    (Makes.silent ?_).next fun _ => (c.right.makes_compile ht).next fun y => (Makes.load y).next fun _ =>
    .silent_bind (.inspect _) fun _ => .silent_bind (.faultIf _ _) fun _ =>
    .silent_bind (.faultIf _ _) fun _ => .pure ?_
  · exact emits_compileRelation _
  · rintro _ _ ⟨rfl, hy, -⟩ is₂ h₂ _ rfl _ ⟨rfl, hx, -⟩ is₁ h₁
    refine ⟨?_, h₁.valid hx, h₂.valid hy⟩
    rw [Comparison.code, ← h₁.code, ← h₂.code]
    simp

theorem filter_code_comparison (c : Comparison) : (c.code t).filter Item.isPlain = c.code t := by
  rw [Comparison.code, List.filter_append, Expr.filter_code, Expr.filter_code]

theorem Conjunction.makes_compile (ht : t.Closed) (f : Label) : (cs : Conjunction) →
    Makes t (cs.compile f) fun _ _ is => is.filter Item.isPlain = cs.plain t ∧ cs.Valid t
  | .comparison c => by
      refine (c.makes_compile ht).mono ?_
      rintro _ _ _ ⟨rfl, h⟩
      exact ⟨filter_code_comparison c, h⟩
  | .and cs c => by
      refine (cs.makes_compile ht f).next fun r => (Makes.jumpUnless r f).next fun _ =>
        .silent_bind .shift fun _ => (c.makes_compile ht).mono ?_
      rintro _ _ _ ⟨rfl, hc⟩ _ rfl is ⟨his, hcs⟩
      refine ⟨?_, hcs, hc⟩
      rw [List.filter_append, List.filter_append, his, filter_code_comparison]
      rfl

theorem Condition.makes_compileWith (ht : t.Closed) (whenTrue whenFalse : Label) :
    (cs : Condition) → Makes t (cs.compileWith whenTrue whenFalse) fun _ _ is =>
      is.filter Item.isPlain = cs.plain t ∧ cs.Valid t
  | .conjunction c =>
      (c.makes_compile ht whenFalse).next fun r => .pure fun _ is his => by
        rwa [List.append_nil]
  | .or cs c => by
      refine (cs.makes_compileWith ht whenTrue whenFalse).next fun r => (Makes.jumpIf r.1 whenTrue).next
        fun _ => .silent_bind .shift fun _ => (Makes.place r.2).next fun _ => Makes.newLabel.next
        fun f => (c.makes_compile ht f).next fun _ => .pure ?_
      rintro _ is₂ ⟨his₂, hc⟩ _ rfl _ rfl _ rfl is₁ ⟨his₁, hcs⟩
      refine ⟨?_, hcs, hc⟩
      simp only [List.filter_append, his₁, his₂, List.append_nil]
      rfl

theorem makes_plain_compileGuard (ht : t.Closed) (opened : Bool) (c : Condition) (closed : Bool) :
    Makes t (compileGuard opened c closed) fun _ _ is =>
      is.filter Item.isPlain = c.plain t ∧ c.Valid t := by
  refine .silent_bind (.expect _ _) fun _ => Makes.next (P := fun _ is =>
    is.filter Item.isPlain = c.plain t ∧ c.Valid t) ?_ fun r => (Makes.jumpUnless _ _).next fun _ =>
    (Makes.place _).next fun _ => .silent_bind (.expect _ _) fun _ => .pure ?_
  · refine Makes.newLabel.next fun _ => Makes.newLabel.next fun f =>
      (c.makes_compileWith ht _ f).next fun _ => .pure ?_
    rintro _ is h _ rfl _ rfl
    rw [List.append_nil]
    exact h
  · rintro _ _ rfl _ rfl is h
    refine ⟨?_, h.2⟩
    simp only [List.filter_append, h.1, List.append_nil]
    exact List.append_nil _

theorem makes_compileAssignment (ht : t.Closed) (x : Operand) (op : AssignOp) (value : Expr) :
    Makes t (compileAssignment x op value) fun _ _ is =>
      is = (Action.assign op value).code t x ∧ value.Valid t := by
  unfold compileAssignment
  split
  · next hop =>
      refine (value.makes_compile ht).next fun y => .silent_bind (.inspect _) fun _ =>
        .silent_bind (.faultIf _ _) fun _ => (Makes.assign x y).next fun _ => .pure ?_
      rintro _ _ ⟨rfl, hy⟩ is h
      refine ⟨?_, h.valid hy⟩
      simp [Action.code, hop, ← h.code]
  · next operation hop =>
      obtain ⟨hstraight, hnone⟩ := AssignOp.isStraight_of_opcode? hop
      refine (Makes.prepareUpdate x).next fun _ => (value.makes_compile ht).next fun y =>
        .silent_bind (.requireInts _ _) fun _ => (Makes.update x y
          (Item.IsStraight.isInner ⟨hstraight, by rw [hnone]; rfl⟩)).next fun _ => .pure ?_
      rintro _ _ ⟨rfl, hy⟩ is h _ rfl
      refine ⟨?_, h.valid hy⟩
      simp [Action.code, hop, ← h.code]

theorem Action.makes_compile (ht : t.Closed) (x : Operand) : (a : Action) →
    Makes t (a.compile x) fun _ _ is => is = a.code t x ∧ a.Valid t x
  | .assign op value =>
      (Makes.requireAssignable x).check fun _ => .silent_bind .shift fun _ =>
        (makes_compileAssignment ht x op value).mono fun _ _ _ ⟨his, h⟩ hx => ⟨his, h, hx⟩
  | .call arguments closed => by
      refine (Makes.passArguments x closed (makes_compileArguments ht true arguments)).next fun _ =>
        (Makes.call x).next fun _ => ?_
      split
      · next hpop =>
          obtain ⟨-, hvoid⟩ : x.location.isMethod = true ∧ x.type ≠ .void := by simpa using hpop
          refine (Makes.emit ⟨by decide, rfl, rfl⟩).mono ?_
          rintro _ _ _ rfl _ rfl _ ⟨⟨rfl, hes⟩, hid⟩
          rw [Action.code, if_neg hvoid, List.append_assoc]
          exact ⟨rfl, hes, hid⟩
      · next hpop =>
          refine .pure ?_
          rintro _ _ rfl _ ⟨⟨rfl, hes⟩, id, hid, hlength⟩
          have hvoid : x.type = .void := by simpa [hid, Location.isMethod] using hpop
          rw [Action.code, if_pos hvoid, List.append_assoc]
          exact ⟨rfl, hes, id, hid, hlength⟩
  | .increment =>
      .silent_bind (.faultIf _ _) fun _ => (Makes.requireAssignable x).check fun _ =>
        .silent_bind .shift fun _ => (Makes.increment x (by decide)).mono fun _ _ _ his hx => ⟨his, hx⟩
  | .decrement =>
      .silent_bind (.faultIf _ _) fun _ => (Makes.requireAssignable x).check fun _ =>
        .silent_bind .shift fun _ => (Makes.increment x (by decide)).mono fun _ _ _ his hx => ⟨his, hx⟩
  | .missing => .fault _

theorem isStraight_stepping (x : Operand) (k : Int) : ∀ i ∈ x.stepping k, i.IsStraight := by
  unfold Operand.stepping
  split
  · exact List.forall_mem_singleton.2 ⟨rfl, rfl⟩
  · simp only [List.forall_mem_append]
    exact ⟨⟨⟨⟨x.isStraight_duplicating, x.isStraight_loading⟩, Operand.isStraight_loading _⟩,
      List.forall_mem_singleton.2 ⟨rfl, rfl⟩⟩, x.isStraight_storing⟩

theorem Action.isStraight_code (x : Operand) : (a : Action) → ∀ i ∈ a.code t x, i.IsStraight
  | .assign op value => by
      rw [Action.code]
      split
      · exact List.forall_mem_append.2 ⟨value.isStraight_code t, x.isStraight_storing⟩
      · next operation hop =>
          obtain ⟨hstraight, hnone⟩ := AssignOp.isStraight_of_opcode? hop
          simp only [List.forall_mem_append]
          exact ⟨⟨⟨⟨x.isStraight_duplicating, x.isStraight_loading⟩, value.isStraight_code t⟩,
            List.forall_mem_singleton.2 ⟨hstraight, by rw [hnone]; rfl⟩⟩, x.isStraight_storing⟩
  | .call arguments _ => by
      rw [Action.code]
      refine List.forall_mem_append.2 ⟨List.forall_mem_append.2
        ⟨isStraight_codeOfArguments t arguments, x.isStraight_calling t⟩, ?_⟩
      split
      · simp
      · exact List.forall_mem_singleton.2 ⟨rfl, rfl⟩
  | .increment => by
      rw [Action.code]
      exact isStraight_stepping x 1
  | .decrement => by
      rw [Action.code]
      exact isStraight_stepping x (-1)
  | .missing => by simp [Action.code]

@[simp] theorem Action.filter_code (x : Operand) (a : Action) :
    (a.code t x).filter Item.isPlain = a.code t x :=
  filter_isPlain_of_isStraight (a.isStraight_code x)

@[simp] theorem filter_storing (x : Operand) : x.storing.filter Item.isPlain = x.storing :=
  filter_isPlain_of_isStraight x.isStraight_storing

theorem printing_code {x y : Operand} {code : List Item} {valid : Prop} {is : List Item} (n : Int)
    (h : y.Leaves code valid x is) :
    is ++ x.loading ++ [pushConstant n, ((printOpcode? x.type).getD .print, [])].map Operation.item =
      code ++ [Operation.item (pushConstant n),
        .instruction ((printOpcode? y.type).getD .print) []] := by
  rw [h.code, printOpcode?_congr h.shape]
  rfl

theorem compileReturned_makes (ht : t.Closed) (result : Ty) (value : Option Expr) :
    Makes t (compileReturned result value) fun _ _ is =>
      is = (value.map (Expr.code t)).getD [] ∧ ∀ e ∈ value, e.Valid t := by
  cases value with
  | none => exact (Makes.faultIf _ _).mono fun _ _ _ h => ⟨h.1, by simp⟩
  | some e =>
      refine .silent_bind (.faultIf _ _) fun _ => (e.makes_compile ht).next fun x =>
        .silent_bind (.inspect _) fun _ => .silent_bind (.faultIf _ _) fun _ =>
        (Makes.load x).next fun _ => .pure ?_
      rintro _ _ ⟨rfl, hx, -⟩ is h
      rw [List.append_nil, h.code]
      exact ⟨rfl, by simpa using h.valid hx⟩

mutual

theorem Statement.makes_plain (ht : t.Closed) (l : Option Label) (result : Ty) : (s : Statement) →
    Makes t (s.compile l result) fun _ _ is => is.filter Item.isPlain = s.plain t ∧ s.Valid t
  | .action d a ended => by
      rw [Statement.compile, Statement.plain, Statement.Valid]
      refine Makes.mark.next fun _ => (d.makes_compile ht).next fun x => (a.makes_compile ht x).next fun _ =>
        (Makes.silent (.expect _ _)).mono ?_
      rintro _ _ _ rfl _ ⟨rfl, ha⟩ _ ⟨rfl, rfl, hd⟩ _ rfl
      refine ⟨?_, hd, ha⟩
      simp
  | .ifThen opened c closed body => by
      rw [Statement.compile, Statement.plain, Statement.Valid]
      refine Makes.mark.next fun _ => .silent_bind .shift fun _ => (makes_plain_compileGuard ht opened c closed).next
        fun f => (body.makes_plain ht l result).next fun _ => (Makes.place f).mono ?_
      rintro _ _ _ rfl is₂ ⟨h₂, hbody⟩ is₁ ⟨h₁, hc⟩ _ rfl
      refine ⟨?_, hc, hbody⟩
      simp [h₁, h₂]
  | .ifThenElse opened c closed body other => by
      rw [Statement.compile, Statement.plain, Statement.Valid]
      refine Makes.mark.next fun _ => .silent_bind .shift fun _ => (makes_plain_compileGuard ht opened c closed).next
        fun f => (body.makes_plain ht l result).next fun _ => .silent_bind .shift fun _ =>
        Makes.newLabel.next fun b => (Makes.jump b).next fun _ => (Makes.place f).next fun _ =>
        (other.makes_plain ht l result).next fun _ => (Makes.place b).mono ?_
      rintro _ _ _ rfl is₃ ⟨h₃, hother⟩ _ rfl _ rfl _ rfl is₂ ⟨h₂, hbody⟩ is₁ ⟨h₁, hc⟩ _ rfl
      refine ⟨?_, hc, hbody, hother⟩
      simp [h₁, h₂, h₃]
  | .whileDo opened c closed body => by
      rw [Statement.compile, Statement.plain, Statement.Valid]
      refine Makes.mark.next fun _ => .silent_bind .shift fun _ => Makes.newLabel.next fun top =>
        (Makes.place top).next fun _ => (makes_plain_compileGuard ht opened c closed).next
        fun f => (body.makes_plain ht (some f) result).next fun _ => (Makes.jump top).next fun _ =>
        (Makes.place f).mono ?_
      rintro _ _ _ rfl _ rfl is₂ ⟨h₂, hbody⟩ is₁ ⟨h₁, hc⟩ _ rfl _ rfl _ rfl
      refine ⟨?_, hc, hbody⟩
      simp [h₁, h₂]
  | .leave ended => by
      rw [Statement.compile, Statement.plain, Statement.Valid]
      refine Makes.mark.next fun _ => .silent_bind .shift fun _ =>
        Makes.next (P := fun _ is => is.filter Item.isPlain = []) ?_ fun _ =>
        (Makes.silent (.expect _ _)).mono ?_
      · cases l with
        | none => exact .fault _
        | some l => exact (Makes.jump l).mono fun _ _ _ his => by rw [his]; rfl
      · rintro _ _ _ rfl is h _ rfl
        simp [h]
  | .give value ended => by
      rw [Statement.compile, Statement.plain, Statement.Valid]
      refine Makes.mark.next fun _ => .silent_bind .shift fun _ =>
        (compileReturned_makes ht result value).next fun _ => (Makes.emit ⟨by decide, rfl, rfl⟩).next
        fun _ => (Makes.emit ⟨by decide, rfl, rfl⟩).next fun _ => (Makes.silent (.expect _ _)).mono ?_
      rintro _ _ _ rfl _ rfl _ rfl _ ⟨rfl, h⟩ _ rfl
      refine ⟨?_, h⟩
      cases value with
      | none => rfl
      | some e => simp
  | .read opened d closed ended => by
      rw [Statement.compile, Statement.plain, Statement.Valid]
      refine Makes.mark.next fun _ => .silent_bind .shift fun _ => .silent_bind (.expect _ _) fun _ =>
        (d.makes_compile ht).next fun x => (Makes.requireAssignable x).check fun _ =>
        (Makes.readValue x.type).next fun _ => (Makes.assign x (.stack x.type)).next fun _ =>
        .silent_bind (.expect _ _) fun _ => (Makes.silent (.expect _ _)).mono ?_
      rintro _ _ _ rfl _ ⟨rfl, -⟩ _ ⟨rfl, hread⟩ hstore _ ⟨rfl, rfl, hd⟩ _ rfl
      refine ⟨?_, hd, hstore, hread⟩
      have hloading : (Operand.stack (d.place t).type).loading = [] := rfl
      simpa [hloading] using fun i hi => (Operand.isStraight_storing _ i hi).isPlain
  | .print opened value width closed ended => by
      rw [Statement.compile, Statement.plain, Statement.Valid]
      refine Makes.mark.next fun _ => .silent_bind .shift fun _ => .silent_bind (.expect _ _) fun _ =>
        (value.makes_compile ht).next fun x => .silent_bind (.faultIf _ _) fun _ => (Makes.load x).next
        fun _ => (Makes.compileWidth width).check fun n =>
        (Makes.emitAll fun o ho => (print_isStraight n x.type ho).isInner).next fun _ =>
        .silent_bind (.expect _ _) fun _ => (Makes.silent (.expect _ _)).mono ?_
      rintro _ _ _ rfl _ rfl rfl _ ⟨rfl, hx, -⟩ is h _ rfl
      refine ⟨?_, h.valid hx⟩
      rw [← printing_code _ h]
      have hstraight : ∀ i ∈ is ++ x.loading, i.IsStraight := by
        rw [h.code]
        exact value.isStraight_code t
      have hfilter := filter_isPlain_of_isStraight hstraight
      rw [List.filter_append] at hfilter
      simp [← List.append_assoc, hfilter]
  | .block statements closed => by
      rw [Statement.compile, Statement.plain, Statement.Valid]
      refine Makes.mark.next fun _ => .silent_bind .shift fun _ =>
        (makes_plain_compileStatements ht l result statements).next fun _ =>
        (Makes.silent (.expect _ _)).mono ?_
      rintro _ _ _ rfl is ⟨h, hstatements⟩ _ rfl
      refine ⟨?_, hstatements⟩
      simp [h]
  | .empty => by
      rw [Statement.compile, Statement.plain, Statement.Valid]
      refine Makes.mark.next fun _ => (Makes.silent .shift).mono ?_
      rintro _ _ _ rfl _ rfl
      exact ⟨rfl, trivial⟩
  | .missing => by
      rw [Statement.compile]
      exact Makes.mark.next fun _ => .fault _
  | .skipped more => by
      rw [Statement.compile]
      exact Makes.mark.next fun _ => .of_faulty (.skip _ _) fun s => faulty_skip _ _ s

theorem makes_plain_compileStatements (ht : t.Closed) (l : Option Label) (result : Ty) :
    (ss : List Statement) → Makes t (compileStatements l result ss) fun _ _ is =>
      is.filter Item.isPlain = plainOfStatements t ss ∧ ValidStatements t ss
  | [] => by
      rw [compileStatements, plainOfStatements, ValidStatements]
      exact .pure fun _ => ⟨rfl, trivial⟩
  | s :: ss => by
      rw [compileStatements, plainOfStatements, ValidStatements]
      refine (s.makes_plain ht l result).next fun _ => (makes_plain_compileStatements ht l result ss).mono ?_
      rintro _ _ is₂ ⟨h₂, hss⟩ is₁ ⟨h₁, hs⟩
      exact ⟨by rw [List.filter_append, h₁, h₂], hs, hss⟩

end

end Tree

end MicroJava
