import MicroJava.Proofs.StackDepth

/-!
# Expressions and statements keep the stack balanced

An expression leaves as many words on the stack as belong to its operand, whatever was there before
(`Tree.Expr.moves_compile`). A comparison leaves its two values for the jump behind it. A statement
begins and ends with nothing on the stack (`Tree.Statement.moves_compile`), because all that its
expressions left is popped by it.
-/

namespace MicroJava

open Compiler

variable {c : Calls} {result : Nat} {I : Nat → Prop} {s : Compiler} {x : Operand}

/-! ### Calls -/

/-- Unless there is a fault, a method is called, and its parameters are known. -/
theorem ensures_formalTypes (hs : s.table.symbols = c.table.symbols) :
    Ensures (formalTypes x) s fun formals s' =>
      ¬ s'.Faulty → (∃ id, x.location = .method id) ∧ formals.length = c.arity x := by
  unfold formalTypes
  split
  · next id hid =>
      have hsymbol : Ensures (symbol id) s fun m _ => m = c.table.symbol id := by
        change s.table.symbol id = c.table.symbol id
        rw [SymbolTable.symbol, hs]
        rfl
      apply hsymbol.bind
      rintro m s' rfl
      have hsize : Ensures (symbols (c.table.symbol id).parameters) s' fun ms _ =>
          ms.size = (c.table.symbol id).parameters.size := Array.size_map
      refine hsize.bind fun ms _ hms => .pure fun _ => ⟨⟨id, hid⟩, ?_⟩
      rw [Array.length_toList, Array.size_map, hms, Calls.arity, hid]
  · have hfault : Ensures (fault .notMethod) s fun _ s' => s'.Faulty := faulty_fault _ s
    exact hfault.bind fun _ _ h => .pure fun hclean => absurd h hclean

namespace Tree

/-- Unless there is a fault, each argument takes one parameter. -/
theorem ensures_compileArguments (first : Bool) (es : List Expr) (formals : List Ty) :
    Ensures (compileArguments first es formals) s fun left s' =>
      ¬ s'.Faulty → left.length + es.length = formals.length := by
  induction es generalizing first formals s with
  | nil =>
      rw [compileArguments]
      exact .pure fun _ => rfl
  | cons e es ih =>
      rw [compileArguments]
      refine .step fun _ s₁ => .step fun x s₂ => .step fun x s₃ => ?_
      cases formals with
      | nil =>
          have hfault : Ensures (passArgument x []) s₃ fun _ s' => s'.Faulty := faulty_fault _ s₃
          refine hfault.bind fun left s₄ h hclean => absurd ?_ hclean
          exact (emits_compileArguments false es left s₄).logs.faulty h
      | cons formal formals =>
          have hpass : Ensures (passArgument x (formal :: formals)) s₃ fun left _ => left = formals :=
            .step fun _ _ => .step fun _ _ => .pure rfl
          apply hpass.bind
          rintro left s₄ rfl
          refine (ih false left).mono fun left' s' h hclean => ?_
          rw [List.length_cons, List.length_cons, ← h hclean, Nat.add_assoc]

/-- Unless there is a fault, a method is called with as many arguments as it has parameters. -/
theorem ensures_passArguments (hs : s.table.symbols = c.table.symbols) (es : List Expr)
    (closed : Bool) :
    Ensures (passArguments x (compileArguments true es) closed) s fun _ s' =>
      ¬ s'.Faulty → (∃ id, x.location = .method id) ∧ es.length = c.arity x := by
  refine Ensures.bind (P := fun _ s' => s'.table.symbols = c.table.symbols) hs fun _ s₁ hs₁ => ?_
  refine (ensures_formalTypes hs₁).bind fun formals s₂ hformals => ?_
  have hargs : Ensures (compileArguments true es formals) s₂ fun _ s' => s₂.Logs s' :=
    (emits_compileArguments true es formals s₂).logs
  refine ((ensures_compileArguments true es formals).and hargs).bind
    fun left s₃ ⟨hleft, hlogs⟩ => ?_
  refine (ensures_faultIf _ _).bind fun _ s₄ ⟨_, hlogs', hnone⟩ => ?_
  have hexpect : Emits Item.IsInner (expect .rightParen closed) := .expect _ _
  change ¬ (expect .rightParen closed s₄).2.Faulty → _
  intro hclean
  have hclean₄ : ¬ s₄.Faulty := fun h => hclean ((hexpect s₄).logs.faulty h)
  have hclean₃ : ¬ s₃.Faulty := fun h => hclean₄ (hlogs'.faulty h)
  rcases hformals fun h => hclean₃ (hlogs.faulty h) with ⟨hid, harity⟩
  have hempty : left = [] := by
    by_contra hne
    refine hclean₄ (hnone ?_)
    simpa using hne
  have hcount := hleft hclean₃
  rw [hempty, List.length_nil, Nat.zero_add] at hcount
  exact ⟨hid, hcount.trans harity⟩

end Tree

/-- Behind the arguments of a call, all of which are on the stack. -/
theorem Compiler.Moves.passArguments_bind {β : Type} {es : List Tree.Expr} {closed : Bool}
    {f : Unit → CompilerM β} {last : β → Nat} {B : β → Prop}
    (hargs : ∀ formals, Moves c result I (Tree.compileArguments true es formals) 0 fun _ => es.length)
    (hemits : Emits Item.IsInner (f ())) (hb : ∀ s, Ensures (f ()) s fun b _ => B b)
    (hf : ∀ id, x.location = .method id → Moves c result I (f ()) (c.arity x) last B) :
    Moves c result I (passArguments x (Tree.compileArguments true es) closed >>= f) x.held last B := by
  by_cases hid : ∃ id, x.location = .method id
  · rcases hid with ⟨id, hid⟩
    have hheld : x.held = 0 := by
      rw [Operand.held, hid]
      rfl
    have hpass : Moves c result I (passArguments x (Tree.compileArguments true es) closed) 0
        fun _ => es.length :=
      silent_bind .shift fun _ => silent_bind (.formalTypes x) fun formals =>
        (hargs formals).bind fun _ _ => silent_bind (.faultIf _ _) fun _ =>
        silent (.expect _ _) fun _ _ => trivial
    rw [hheld]
    refine Moves.bind (hpass.congr fun s hs => ?_) fun _ _ => hf id hid
    exact (Tree.ensures_passArguments hs es closed).mono fun _ _ h hclean => (h hclean).2
  · -- what is called is no method
    refine of_faulty ((Emits.passArguments x closed
      (Tree.emits_compileArguments true es)).inner.bind fun _ => hemits) (fun s => hb _) fun s hs => ?_
    refine Ensures.bind (P := fun _ s' => s'.Faulty) ?_ fun _ s' h => (hemits s').logs.faulty h
    refine (Tree.ensures_passArguments hs es closed).mono fun _ _ h => ?_
    exact not_not.1 fun hclean => hid (h hclean).1

/-! ### Expressions -/

namespace Tree

theorem AddOp.pops_opcode (op : AddOp) : op.opcode.pops = 2 := by cases op <;> rfl

theorem AddOp.pushes_opcode (op : AddOp) : op.opcode.pushes = 1 := by cases op <;> rfl

theorem MulOp.pops_opcode (op : MulOp) : op.opcode.pops = 2 := by cases op <;> rfl

theorem MulOp.pushes_opcode (op : MulOp) : op.opcode.pushes = 1 := by cases op <;> rfl

mutual

/-- An expression leaves what belongs to its operand on the stack. -/
theorem Expr.moves_compile (I : Nat → Prop) :
    (e : Expr) → Moves c result I e.compile 0 Operand.held c.Knows
  | .term t => by
      rw [Expr.compile]
      exact t.moves_compile I
  | .neg t => by
      rw [Expr.compile]
      refine .silent_bind .shift fun _ => (t.moves_compile I).bind fun x _ => ?_
      exact .silent_bind (.faultIf _ _) fun _ => .negate x
  | .add e op t => by
      rw [Expr.compile]
      refine (e.moves_compile I).bind fun x _ => .silent_bind .shift fun _ => ?_
      apply (Moves.load x).bind
      rintro x rfl
      refine ((t.moves_compile _).frame 1).bind fun y _ => ((Moves.load y).frame 1).bind fun y _ => ?_
      refine .silent_bind (.requireInts _ y) fun _ => ?_
      exact (Moves.combine 0 op.isStraight_opcode op.pops_opcode op.pushes_opcode).bind fun _ _ =>
        .pure rfl (Calls.knows_of_location rfl)

theorem Term.moves_compile (I : Nat → Prop) :
    (t : Term) → Moves c result I t.compile 0 Operand.held c.Knows
  | .factor f => by
      rw [Term.compile]
      exact f.moves_compile I
  | .mul t op f => by
      rw [Term.compile]
      refine (t.moves_compile I).bind fun x _ => .silent_bind .shift fun _ => ?_
      apply (Moves.load x).bind
      rintro x rfl
      refine ((f.moves_compile _).frame 1).bind fun y _ => ((Moves.load y).frame 1).bind fun y _ => ?_
      refine .silent_bind (.requireInts _ y) fun _ => ?_
      exact (Moves.combine 0 op.isStraight_opcode op.pops_opcode op.pushes_opcode).bind fun _ _ =>
        .pure rfl (Calls.knows_of_location rfl)
  | .power t exponent => by
      rw [Term.compile]
      refine (t.moves_compile I).bind fun x _ => .silent_bind .shift fun _ => ?_
      refine .silent_bind (.expectNumber _ _) fun k => .silent_bind (.faultIf _ _) fun _ => ?_
      refine .silent_bind (.faultIf _ _) fun _ => (Moves.load x).bind ?_
      rintro x rfl
      exact (Moves.power _).bind fun _ _ => .pure rfl (Calls.knows_of_location rfl)

theorem Factor.moves_compile (I : Nat → Prop) :
    (f : Factor) → Moves c result I f.compile 0 Operand.held c.Knows
  | .designator d => by
      rw [Factor.compile]
      exact d.moves_compile I
  | .call d arguments closed => by
      rw [Factor.compile]
      refine (d.moves_compile I).bind fun x hx => ?_
      have hemits : Emits Item.IsInner (do Compiler.call x; return x.onStack) :=
        (Emits.call x).inner.bind fun _ => .pure
      have hknows : c.Knows x.onStack := Calls.knows_of_location rfl
      refine .passArguments_bind (moves_compileArguments I true arguments)
        ((Emits.faultIf _ _).bind fun _ => hemits) (fun _ => hknows) fun id hid => ?_
      refine .faultIf_bind hemits (fun _ => hknows) fun hvalue => ?_
      refine (Moves.call hx hid).bind fun _ _ => .pure ?_ hknows
      rw [hid] at hvalue
      exact if_neg (by simpa [Location.isMethod] using hvalue)
  | .number n => by
      rw [Factor.compile]
      exact .silent_bind .shift fun _ => .pure rfl (Calls.knows_of_location rfl)
  | .char n => by
      rw [Factor.compile]
      exact .silent_bind .shift fun _ => .pure rfl (Calls.knows_of_location rfl)
  | .newObject name => by
      rw [Factor.compile]
      refine .silent_bind .shift fun _ => .silent_bind (.expectName _) fun name => ?_
      refine .silent_bind (.findType name) fun type => .silent_bind (.inspect _) fun _ => ?_
      refine .silent_bind (.faultIf _ _) fun _ => .silent_bind (.fields type) fun fs => ?_
      have hnew : Opcode.new.isStraight = true := rfl
      exact (Moves.emit _ 0 hnew).bind fun _ _ => .pure rfl (Calls.knows_of_location rfl)
  | .newArray name size closed => by
      rw [Factor.compile]
      refine .silent_bind .shift fun _ => .silent_bind (.expectName _) fun name => ?_
      refine .silent_bind (.findType name) fun element => .silent_bind .shift fun _ => ?_
      refine (size.moves_compile I).bind fun n _ => .silent_bind (.faultIf _ _) fun _ => ?_
      have hnew : Opcode.newArray.isStraight = true := rfl
      refine (Moves.load n).bind fun _ _ => (Moves.emit _ 0 hnew).bind fun _ _ => ?_
      exact .silent_bind (.expect _ _) fun _ => .silent_bind (.newArray element) fun type =>
        .pure rfl (Calls.knows_of_location rfl)
  | .group e closed => by
      rw [Factor.compile]
      refine .silent_bind .shift fun _ => (e.moves_compile I).bind fun x hx => ?_
      exact .silent_bind (.expect _ _) fun _ => .pure rfl hx
  | .missing => by
      rw [Factor.compile]
      exact .fault_bind _ .pure fun _ => Calls.knows_of_location rfl

theorem Designator.moves_compile (I : Nat → Prop) :
    (d : Designator) → Moves c result I d.compile 0 Operand.held c.Knows
  | .name n => by
      rw [Designator.compile]
      exact .silent_bind (.expectName _) fun name => .silent_bind (.find name) fun id => .operandOf id
  | .field d n => by
      rw [Designator.compile]
      refine (d.moves_compile I).bind fun x _ => .silent_bind (.inspect _) fun _ => ?_
      refine .silent_bind (.faultIf _ _) fun _ => .silent_bind .shift fun _ => ?_
      refine (Moves.load x).bind fun x _ => .silent_bind (.expectName _) fun name => ?_
      exact .silent_bind (.findField _ name) fun id => .silent_bind (.symbol id) fun f =>
        .pure rfl (Calls.knows_of_location rfl)
  | .element d index closed => by
      rw [Designator.compile]
      refine (d.moves_compile I).bind fun x _ => .silent_bind .shift fun _ => ?_
      refine (Moves.load x).bind fun x _ => .silent_bind (.inspect _) fun _ => ?_
      refine .silent_bind (.faultIf _ _) fun _ => ((index.moves_compile _).frame 1).bind fun i _ => ?_
      refine .silent_bind (.faultIf _ _) fun _ => ((Moves.load i).frame 1).bind fun _ _ => ?_
      exact .silent_bind (.expect _ _) fun _ => .pure rfl (Calls.knows_of_location rfl)

/-- Arguments are left on the stack. -/
theorem moves_compileArguments (I : Nat → Prop) (first : Bool) :
    (es : List Expr) → (formals : List Ty) →
      Moves c result I (compileArguments first es formals) 0 fun _ => es.length
  | [], formals => by
      rw [compileArguments]
      exact .pure rfl trivial
  | e :: es, formals => by
      rw [compileArguments, List.length_cons, Nat.add_comm]
      refine .silent_bind (.shiftUnless first) fun _ => (e.moves_compile I).bind fun x _ => ?_
      refine (Moves.load x).bind fun x _ => .silent_bind (.passArgument x formals) fun left => ?_
      exact (moves_compileArguments _ false es left).frame 1

end

/-- A comparison leaves its two values. -/
theorem Comparison.moves_compile (I : Nat → Prop) (x : Comparison) :
    Moves c result I x.compile 0 fun _ => 2 := by
  refine (x.left.moves_compile I).bind fun y _ => (Moves.load y).bind fun y _ => ?_
  refine .silent_bind (emits_compileRelation x.relation) fun r => ?_
  refine ((x.right.moves_compile _).frame 1).bind fun z _ => ((Moves.load z).frame 1).bind fun z _ => ?_
  refine .silent_bind (.inspect _) fun _ => .silent_bind (.faultIf _ _) fun _ => ?_
  exact .silent_bind (.faultIf _ _) fun _ => .pure rfl trivial

end Tree

/-! ### Statements -/

theorem Relation.pops_jump (r : Relation) : r.jump.pops = 2 := by cases r <;> rfl

/-- There is nothing on the stack but what a step works with. -/
def Nothing (d : Nat) : Prop := d = 0

namespace Compiler.Moves

/-- An item that is written where nothing else is on the stack. -/
theorem writeNothing {i : Item} {pre last : Nat} (h : i.Takes c.effect result pre last) :
    Moves c result Nothing (Compiler.write i) pre fun _ => last := by
  apply write
  rintro d rfl
  rwa [Nat.zero_add, Nat.zero_add]

theorem mark : Moves c result Nothing (Compiler.write .statement) 0 fun _ => 0 :=
  writeNothing .statement

theorem newLabel : Moves c result Nothing newLabel 0 fun _ => 0 :=
  silent_bind .get fun _ => (writeNothing .label).bind fun _ _ => .pure rfl trivial

theorem place (l : Label) : Moves c result Nothing (place l) 0 fun _ => 0 :=
  silent_bind .get fun _ => silent_bind (.refer _) fun _ => writeNothing (.place l)

theorem jump (l : Label) : Moves c result Nothing (jump l) 0 fun _ => 0 :=
  silent_bind (.refer _) fun _ => writeNothing (.jump .jmp l)

/-- A conditional jump takes the two values of the comparison. -/
theorem jumpIf (r : Relation) (l : Label) : Moves c result Nothing (jumpIf r l) 2 fun _ => 0 := by
  rw [← r.pops_jump]
  exact silent_bind (.refer _) fun _ => writeNothing (.jump r.jump l)

theorem jumpUnless (r : Relation) (l : Label) :
    Moves c result Nothing (jumpUnless r l) 2 fun _ => 0 :=
  jumpIf r.negation l

theorem compileStep (n : Int) : Moves c result I (compileStep x n) x.held fun _ => 0 := by
  refine silent_bind (.faultIf _ _) fun _ => faultIf_bind ?_ (fun _ => trivial) fun h => ?_
  · exact Emits.shift.bind fun _ => (Emits.increment x n).inner
  · exact silent_bind .shift fun _ => increment (by simpa using h) n

end Compiler.Moves

namespace Tree

theorem AssignOp.pops_of_opcode? {op : AssignOp} {operation : Opcode}
    (h : op.opcode? = some operation) : operation.pops = 2 ∧ operation.pushes = 1 := by
  cases op <;> cases h <;> exact ⟨rfl, rfl⟩

theorem Conjunction.moves_compile (f : Label) (cs : Conjunction) :
    Moves c result Nothing (cs.compile f) 0 fun _ => 2 := by
  induction cs with
  | comparison x => exact x.moves_compile Nothing
  | and cs x ih =>
      exact ih.bind fun r _ => (Moves.jumpUnless r f).bind fun _ _ =>
        .silent_bind .shift fun _ => x.moves_compile Nothing

theorem Condition.moves_compileWith (t f : Label) (cs : Condition) :
    Moves c result Nothing (cs.compileWith t f) 0 fun _ => 2 := by
  induction cs with
  | conjunction x => exact (x.moves_compile f).bind fun _ _ => .pure rfl trivial
  | or cs x ih =>
      refine ih.bind fun ⟨r, f⟩ _ => (Moves.jumpIf r t).bind fun _ _ => .silent_bind .shift fun _ => ?_
      refine (Moves.place f).bind fun _ _ => Moves.newLabel.bind fun f _ => ?_
      exact (x.moves_compile f).bind fun _ _ => .pure rfl trivial

/-- The jump behind a condition takes the values of its last comparison. -/
theorem moves_compileGuard (opened : Bool) (cs : Condition) (closed : Bool) :
    Moves c result Nothing (compileGuard opened cs closed) 0 fun _ => 0 := by
  have hcondition : Moves c result Nothing cs.compile 0 fun _ => 2 :=
    Moves.newLabel.bind fun t _ => Moves.newLabel.bind fun f _ =>
      (cs.moves_compileWith t f).bind fun _ _ => .pure rfl trivial
  refine .silent_bind (.expect _ _) fun _ => hcondition.bind fun (r, t, f) _ => ?_
  refine (Moves.jumpUnless r f).bind fun _ _ => (Moves.place t).bind fun _ _ => ?_
  exact .silent_bind (.expect _ _) fun _ => .pure rfl trivial

theorem moves_compileAssignment (h : x.location.isAssignable = true) (op : AssignOp) (value : Expr) :
    Moves c result I (compileAssignment x op value) x.held fun _ => 0 := by
  unfold compileAssignment
  split
  · refine ((value.moves_compile _).frame x.held).bind fun y _ => .silent_bind (.inspect _) fun _ => ?_
    exact .silent_bind (.faultIf _ _) fun _ => (Moves.assign x y).bind fun _ _ => .pure rfl trivial
  · next operation hop =>
      rcases AssignOp.pops_of_opcode? hop with ⟨hpops, hpushes⟩
      refine (Moves.prepareUpdate h).bind fun _ _ =>
        ((value.moves_compile _).frame (x.held + 1)).bind fun y _ => ?_
      refine .silent_bind (.requireInts x y) fun _ => ?_
      exact (Moves.update x y (AssignOp.isStraight_of_opcode? hop).1 hpops hpushes).bind fun _ _ =>
        .pure rfl trivial

/-- What happens to a designator takes all that belongs to it. -/
theorem Action.moves_compile (hx : c.Knows x) :
    (a : Action) → Moves c result I (a.compile x) x.held fun _ => 0
  | .assign op value =>
      .faultIf_bind (Emits.shift.bind fun _ => (emits_compileAssignment x op value).inner)
        (fun _ => trivial) fun h =>
        .silent_bind .shift fun _ => moves_compileAssignment (by simpa using h) op value
  | .call arguments closed => by
      have hemits : Emits Item.IsInner (do
          Compiler.call x
          if x.location.isMethod && x.type ≠ .void then Compiler.emit .pop []) := by
        refine (Emits.call x).inner.bind fun _ => ?_
        split
        · exact (Emits.emit rfl rfl).inner
        · exact .pure
      refine .passArguments_bind (moves_compileArguments I true arguments) hemits
        (fun _ => trivial) fun id hid => (Moves.call hx hid).bind fun _ _ => ?_
      have hmethod : x.location.isMethod = true := by
        rw [hid]
        rfl
      by_cases hvoid : x.type = .void
      · rw [Ty.words, if_pos hvoid, if_neg (by simp [hvoid])]
        exact .pure rfl trivial
      · -- the value is discarded
        have hpop : Opcode.pop.isStraight = true := rfl
        rw [Ty.words, if_neg hvoid, if_pos (by simp [hmethod, hvoid])]
        exact .emit [] 0 hpop
  | .increment => .compileStep 1
  | .decrement => .compileStep (-1)
  | .missing => .fault _

/-- What a method returns is on the stack when it is left. -/
theorem moves_compileReturned (type : Ty) (value : Option Expr) :
    Moves c result I (compileReturned type value) 0 fun _ => type.words := by
  cases value with
  | none =>
      refine .faultIf fun h => ?_
      rw [Ty.words, if_pos (by simpa using h)]
  | some e =>
      have hemits : Emits Item.IsInner (do
          let x ← e.compile
          inspect [x.type, type]
          faultIf (!x.type.assignable type) .resultMismatch
          let _ ← Compiler.load x) :=
        e.emits_compile.inner.bind fun x => (Emits.inspect _).bind fun _ =>
          (Emits.faultIf _ _).bind fun _ => (Emits.load x).inner.bind fun _ => .pure
      refine .faultIf_bind hemits (fun _ => trivial) fun h => ?_
      refine (e.moves_compile I).bind fun x _ => .silent_bind (.inspect _) fun _ => ?_
      refine .silent_bind (.faultIf _ _) fun _ => (Moves.load x).bind fun _ _ => .pure ?_ trivial
      rw [Ty.words, if_neg (by simpa using h)]

theorem moves_readValue (type : Ty) : Moves c result I (readValue type) 0 fun _ => 1 := by
  have hread : Opcode.read.isStraight = true := rfl
  have hbread : Opcode.bread.isStraight = true := rfl
  cases type with
  | int => exact .emit [] 0 hread
  | char => exact .emit [] 0 hbread
  | _ => exact .fault _

/-- Printing takes the value and its width. -/
theorem moves_print (n : Int) (type : Ty) :
    Moves c result I (emitAll [pushConstant n, ((printOpcode? type).getD .print, [])]) 1
      fun _ => 0 := by
  refine .emitAll fun d => (Walk.pushConstant n (d + 1)).append ?_
  have hprint : Opcode.print.isStraight = true := rfl
  have hbprint : Opcode.bprint.isStraight = true := rfl
  cases type with
  | char => exact Walk.operation d hbprint rfl rfl (.nil _)
  | _ => exact Walk.operation d hprint rfl rfl (.nil _)

/-- A jump behind the innermost loop. -/
theorem moves_compileBreak (behindLoop : Option Label) :
    Moves c result Nothing (compileBreak behindLoop) 0 fun _ => 0 := by
  cases behindLoop with
  | none => exact .fault _
  | some l => exact .jump l

mutual

/-- A statement begins and ends with nothing on the stack. -/
theorem Statement.moves_compile (behindLoop : Option Label) (type : Ty) :
    (st : Statement) →
      Moves c type.words Nothing (st.compile behindLoop type) 0 fun _ => 0
  | .action d a ended => by
      rw [Statement.compile]
      refine Moves.mark.bind fun _ _ => (d.moves_compile Nothing).bind fun x hx => ?_
      exact (a.moves_compile hx).bind fun _ _ => .silent (.expect _ _) fun _ _ => trivial
  | .ifThen opened condition closed body => by
      rw [Statement.compile]
      refine Moves.mark.bind fun _ _ => .silent_bind .shift fun _ => ?_
      refine (moves_compileGuard opened condition closed).bind fun f _ => ?_
      exact (body.moves_compile behindLoop type).bind fun _ _ => .place f
  | .ifThenElse opened condition closed body other => by
      rw [Statement.compile]
      refine Moves.mark.bind fun _ _ => .silent_bind .shift fun _ => ?_
      refine (moves_compileGuard opened condition closed).bind fun f _ => ?_
      refine (body.moves_compile behindLoop type).bind fun _ _ => .silent_bind .shift fun _ => ?_
      refine Moves.newLabel.bind fun behind _ => (Moves.jump behind).bind fun _ _ => ?_
      refine (Moves.place f).bind fun _ _ => (other.moves_compile behindLoop type).bind fun _ _ => ?_
      exact .place behind
  | .whileDo opened condition closed body => by
      rw [Statement.compile]
      refine Moves.mark.bind fun _ _ => .silent_bind .shift fun _ => ?_
      refine Moves.newLabel.bind fun top _ => (Moves.place top).bind fun _ _ => ?_
      refine (moves_compileGuard opened condition closed).bind fun f _ => ?_
      refine (body.moves_compile (some f) type).bind fun _ _ => (Moves.jump top).bind fun _ _ => ?_
      exact .place f
  | .leave ended => by
      rw [Statement.compile]
      refine Moves.mark.bind fun _ _ => .silent_bind .shift fun _ => ?_
      exact (moves_compileBreak behindLoop).bind fun _ _ => .silent (.expect _ _) fun _ _ => trivial
  | .give value ended => by
      rw [Statement.compile]
      refine Moves.mark.bind fun _ _ => .silent_bind .shift fun _ => ?_
      refine (moves_compileReturned type value).bind fun _ _ => (Moves.writeNothing .exit).bind fun _ _ => ?_
      refine (Moves.writeNothing (.ret _ 0)).bind fun _ _ => ?_
      exact .silent (.expect _ _) fun _ _ => trivial
  | .read opened d closed ended => by
      rw [Statement.compile]
      refine Moves.mark.bind fun _ _ => .silent_bind .shift fun _ => .silent_bind (.expect _ _) fun _ => ?_
      refine (d.moves_compile Nothing).bind fun x _ => .silent_bind (.faultIf _ _) fun _ => ?_
      refine ((moves_readValue x.type).frame x.held).bind fun _ _ => ?_
      refine (Moves.assign x (.stack x.type)).bind fun _ _ => .silent_bind (.expect _ _) fun _ => ?_
      exact .silent (.expect _ _) fun _ _ => trivial
  | .print opened value width closed ended => by
      rw [Statement.compile]
      refine Moves.mark.bind fun _ _ => .silent_bind .shift fun _ => .silent_bind (.expect _ _) fun _ => ?_
      refine (value.moves_compile Nothing).bind fun x _ => .silent_bind (.faultIf _ _) fun _ => ?_
      refine (Moves.load x).bind fun _ _ => .silent_bind (emits_compileWidth width) fun n => ?_
      refine (moves_print n x.type).bind fun _ _ => .silent_bind (.expect _ _) fun _ => ?_
      exact .silent (.expect _ _) fun _ _ => trivial
  | .block statements closed => by
      rw [Statement.compile]
      refine Moves.mark.bind fun _ _ => .silent_bind .shift fun _ => ?_
      refine (moves_compileStatements behindLoop type statements).bind fun _ _ => ?_
      exact .silent (.expect _ _) fun _ _ => trivial
  | .empty => by
      rw [Statement.compile]
      exact Moves.mark.bind fun _ _ => .silent .shift fun _ _ => trivial
  | .missing => by
      rw [Statement.compile]
      exact Moves.mark.bind fun _ _ => .fault _
  | .skipped more => by
      rw [Statement.compile]
      exact Moves.mark.bind fun _ _ => .silent (.skip _ more) fun _ _ => trivial

theorem moves_compileStatements (behindLoop : Option Label) (type : Ty) :
    (ss : List Statement) →
      Moves c type.words Nothing (compileStatements behindLoop type ss) 0 fun _ => 0
  | [] => by
      rw [compileStatements]
      exact .pure rfl trivial
  | st :: ss => by
      rw [compileStatements]
      exact (st.moves_compile behindLoop type).bind fun _ _ =>
        moves_compileStatements behindLoop type ss

end

end Tree

end MicroJava
