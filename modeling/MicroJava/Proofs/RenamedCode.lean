import Mathlib.Logic.Equiv.Basic
import MicroJava.Proofs.Completion
import MicroJava.Proofs.RenamedSteps
import MicroJava.Proofs.Renaming

/-!
# Programs with other names

What names are called has no influence on the code: a tree with other names is compiled to the same code
(`Tree.Program.renames_compile`), and so is a list of tokens with other names
(`TokenSource.compile_rename`). Only what mentions names does so under the other ones. There is one lemma
for each kind of tree.
-/

namespace MicroJava

variable {ρ : String → String}

open Compiler

/-! ### Expressions -/

theorem renames_formalTypes (x : Operand) : Renames ρ Eq (formalTypes x) (formalTypes x) := by
  rw [formalTypes]
  cases x.location with
  | method id =>
      refine (Renames.symbol id).bind fun c c' hc => ?_
      rw [hc]
      refine (Renames.symbols c.parameters).bind fun parameters parameters' h => ?_
      rw [h Symbol.type fun _ _ h => by rw [h]]
      exact .pure rfl
  | _ => exact (Renames.fault .notMethod).step fun _ => .pure rfl

theorem renames_findType (n : String) : Renames ρ Eq (findType n) (findType (ρ n)) :=
  (Renames.find n).step fun id => (Renames.symbol id).bind fun x x' h => by
    rw [h]
    exact (Renames.faultIf _ .notType).step fun _ => .pure rfl

theorem renames_requireInts (x y : Operand) : Renames ρ Eq (requireInts x y) (requireInts x y) :=
  .faultIf _ .notInt

theorem renames_passArgument (x : Operand) (formals : List Ty) :
    Renames ρ Eq (passArgument x formals) (passArgument x formals) := by
  cases formals with
  | nil => exact (Renames.fault .tooManyArguments).step fun _ => .pure rfl
  | cons formal formals =>
      exact (Renames.inspect _).step fun _ => (Renames.faultIf _ .argumentMismatch).step fun _ => .pure rfl

theorem renames_passArguments (x : Operand) {pass pass' : List Ty → CompilerM (List Ty)} (closed : Bool)
    (h : ∀ formals, Renames ρ Eq (pass formals) (pass' formals)) :
    Renames ρ Eq (passArguments x pass closed) (passArguments x pass' closed) :=
  Renames.shift.step fun _ => (renames_formalTypes x).step fun formals => (h formals).step fun _ =>
    (Renames.faultIf _ .tooFewArguments).step fun _ => .expect .rightParen closed

theorem renames_negate (x : Operand) : Renames ρ Eq (negate x) (negate x) := by
  have hgeneral : Renames ρ Eq (do
      let x ← load x
      emit .neg []
      return x) (do
      let x ← load x
      emit .neg []
      return x) :=
    (Renames.load x).step fun _ => (Renames.emit .neg []).step fun _ => .pure rfl
  rw [negate]
  cases x.location with
  | constant n => exact .pure rfl
  | _ => exact hgeneral

namespace Tree

mutual

theorem Expr.renames_compile (hρ : Faithful ρ) (e : Expr) :
    Renames ρ Eq e.compile (e.rename ρ).compile := by
  cases e with
  | term t =>
      rw [Expr.rename, Expr.compile, Expr.compile]
      exact t.renames_compile hρ
  | neg t =>
      rw [Expr.rename, Expr.compile, Expr.compile]
      exact Renames.shift.step fun _ => (t.renames_compile hρ).step fun x =>
        (Renames.faultIf _ .notInt).step fun _ => renames_negate x
  | add e op t =>
      rw [Expr.rename, Expr.compile, Expr.compile]
      exact (e.renames_compile hρ).step fun x => Renames.shift.step fun _ => (Renames.load x).step fun x =>
        (t.renames_compile hρ).step fun y => (Renames.load y).step fun y =>
        (renames_requireInts x y).step fun _ => (Renames.emit _ []).step fun _ => .pure rfl

theorem Term.renames_compile (hρ : Faithful ρ) (t : Term) :
    Renames ρ Eq t.compile (t.rename ρ).compile := by
  cases t with
  | factor f =>
      rw [Term.rename, Term.compile, Term.compile]
      exact f.renames_compile hρ
  | mul t op f =>
      rw [Term.rename, Term.compile, Term.compile]
      exact (t.renames_compile hρ).step fun x => Renames.shift.step fun _ => (Renames.load x).step fun x =>
        (f.renames_compile hρ).step fun y => (Renames.load y).step fun y =>
        (renames_requireInts x y).step fun _ => (Renames.emit _ []).step fun _ => .pure rfl
  | power t exponent =>
      rw [Term.rename, Term.compile, Term.compile]
      exact (t.renames_compile hρ).step fun x => Renames.shift.step fun _ =>
        (Renames.expectNumber 1 exponent).step fun k => (Renames.faultIf _ .notInt).step fun _ =>
        (Renames.faultIf _ .exponentTooLarge).step fun _ => (Renames.load x).step fun x =>
        (Renames.emitAll _).step fun _ => .pure rfl

theorem Factor.renames_compile (hρ : Faithful ρ) (f : Factor) :
    Renames ρ Eq f.compile (f.rename ρ).compile := by
  cases f with
  | designator d =>
      rw [Factor.rename, Factor.compile, Factor.compile]
      exact d.renames_compile hρ
  | call d arguments closed =>
      rw [Factor.rename, Factor.compile, Factor.compile]
      exact (d.renames_compile hρ).step fun x =>
        (renames_passArguments x closed (renames_compileArguments hρ true arguments)).step fun _ =>
        (Renames.faultIf _ .voidInExpression).step fun _ => (Renames.call x).step fun _ => .pure rfl
  | number n =>
      rw [Factor.rename, Factor.compile]
      exact Renames.shift.step fun _ => .pure rfl
  | char n =>
      rw [Factor.rename, Factor.compile]
      exact Renames.shift.step fun _ => .pure rfl
  | newObject n =>
      rw [Factor.rename, Factor.compile, Factor.compile]
      refine Renames.shift.step fun _ => (Renames.expectName hρ n).bind fun n n' hn => ?_
      rw [hn]
      exact (renames_findType n).step fun type => (Renames.inspect _).step fun _ =>
        (Renames.faultIf _ .notClass).step fun _ => (Renames.fields type).step fun _ =>
        (Renames.emit _ _).step fun _ => .pure rfl
  | newArray n size closed =>
      rw [Factor.rename, Factor.compile, Factor.compile]
      refine Renames.shift.step fun _ => (Renames.expectName hρ n).bind fun n n' hn => ?_
      rw [hn]
      exact (renames_findType n).step fun element => Renames.shift.step fun _ =>
        (size.renames_compile hρ).step fun n => (Renames.faultIf _ .sizeNotInt).step fun _ =>
        (Renames.load n).step fun _ => (Renames.emit _ _).step fun _ =>
        (Renames.expect .rightBracket closed).step fun _ => (Renames.newArray element).step fun _ => .pure rfl
  | group e closed =>
      rw [Factor.rename, Factor.compile, Factor.compile]
      exact Renames.shift.step fun _ => (e.renames_compile hρ).step fun x =>
        (Renames.expect .rightParen closed).step fun _ => .pure rfl
  | missing =>
      rw [Factor.rename, Factor.compile]
      exact (Renames.fault .invalidFactor).step fun _ => .pure rfl

theorem Designator.renames_compile (hρ : Faithful ρ) (d : Designator) :
    Renames ρ Eq d.compile (d.rename ρ).compile := by
  cases d with
  | name n =>
      rw [Designator.rename, Designator.compile, Designator.compile]
      refine (Renames.expectName hρ n).bind fun n n' hn => ?_
      rw [hn]
      exact (Renames.find n).step fun id => .operandOf id
  | field d n =>
      rw [Designator.rename, Designator.compile, Designator.compile]
      refine (d.renames_compile hρ).step fun x => (Renames.inspect _).step fun _ =>
        (Renames.faultIf _ .notObject).step fun _ => Renames.shift.step fun _ =>
        (Renames.load x).step fun x => (Renames.expectName hρ n).bind fun n n' hn => ?_
      rw [hn]
      refine (Renames.findField hρ x.type n).step fun id => (Renames.symbol id).bind fun f f' hf => ?_
      rw [hf]
      exact .pure rfl
  | element d index closed =>
      rw [Designator.rename, Designator.compile, Designator.compile]
      exact (d.renames_compile hρ).step fun x => Renames.shift.step fun _ => (Renames.load x).step fun x =>
        (Renames.inspect _).step fun _ => (Renames.faultIf _ .notArray).step fun _ =>
        (index.renames_compile hρ).step fun i => (Renames.faultIf _ .indexNotInt).step fun _ =>
        (Renames.load i).step fun _ => (Renames.expect .rightBracket closed).step fun _ => .pure rfl

theorem renames_compileArguments (hρ : Faithful ρ) (first : Bool) (es : List Expr) (formals : List Ty) :
    Renames ρ Eq (compileArguments first es formals)
      (compileArguments first (renameExprs ρ es) formals) := by
  cases es with
  | nil =>
      rw [renameExprs, compileArguments]
      exact .pure rfl
  | cons e es =>
      rw [renameExprs, compileArguments, compileArguments]
      exact (Renames.shiftUnless first).step fun _ => (e.renames_compile hρ).step fun x =>
        (Renames.load x).step fun x => (renames_passArgument x formals).step fun formals =>
        renames_compileArguments hρ false es formals

end

/-! ### Conditions -/

theorem renames_compileRelation (r : Option Relation) :
    Renames ρ Eq (compileRelation r) (compileRelation r) := by
  cases r with
  | some r => exact Renames.shift.step fun _ => .pure rfl
  | none => exact (Renames.fault .missingRelation).step fun _ => .pure rfl

theorem Comparison.renames_compile (hρ : Faithful ρ) (c : Comparison) :
    Renames ρ Eq c.compile (c.rename ρ).compile :=
  (c.left.renames_compile hρ).step fun x => (Renames.load x).step fun _ =>
    (renames_compileRelation c.relation).step fun _ => (c.right.renames_compile hρ).step fun y =>
    (Renames.load y).step fun _ => (Renames.inspect _).step fun _ =>
    (Renames.faultIf _ .incompatible).step fun _ => (Renames.faultIf _ .onlyEquality).step fun _ => .pure rfl

theorem Conjunction.renames_compile (hρ : Faithful ρ) (whenFalse : Label) (cs : Conjunction) :
    Renames ρ Eq (cs.compile whenFalse) ((cs.rename ρ).compile whenFalse) := by
  induction cs with
  | comparison c => exact c.renames_compile hρ
  | and cs c ih =>
      exact ih.step fun r => (Renames.jumpWith _ whenFalse).step fun _ => Renames.shift.step fun _ =>
        c.renames_compile hρ

theorem Condition.renames_compileWith (hρ : Faithful ρ) (whenTrue whenFalse : Label) (cs : Condition) :
    Renames ρ Eq (cs.compileWith whenTrue whenFalse) ((cs.rename ρ).compileWith whenTrue whenFalse) := by
  induction cs with
  | conjunction c => exact (c.renames_compile hρ whenFalse).step fun _ => .pure rfl
  | or cs c ih =>
      exact ih.step fun x => (Renames.jumpWith _ whenTrue).step fun _ => Renames.shift.step fun _ =>
        (Renames.place x.2).step fun _ => Renames.newLabel.step fun f =>
        (c.renames_compile hρ f).step fun _ => .pure rfl

theorem Condition.renames_compile (hρ : Faithful ρ) (c : Condition) :
    Renames ρ Eq c.compile (c.rename ρ).compile :=
  Renames.newLabel.step fun whenTrue => Renames.newLabel.step fun whenFalse =>
    (c.renames_compileWith hρ whenTrue whenFalse).step fun _ => .pure rfl

/-! ### Statements -/

theorem renames_requireAssignable (x : Operand) :
    Renames ρ Eq (requireAssignable x) (requireAssignable x) :=
  .faultIf _ (.notAssignable _)

theorem renames_compileStep (x : Operand) (n : Int) : Renames ρ Eq (compileStep x n) (compileStep x n) :=
  (Renames.faultIf _ .notInt).step fun _ => (renames_requireAssignable x).step fun _ =>
    Renames.shift.step fun _ => .increment x n

theorem renames_compileAssignment (hρ : Faithful ρ) (x : Operand) (op : AssignOp) (value : Expr) :
    Renames ρ Eq (compileAssignment x op value) (compileAssignment x op (value.rename ρ)) := by
  rw [compileAssignment, compileAssignment]
  cases op.opcode? with
  | none =>
      exact (value.renames_compile hρ).step fun y => (Renames.inspect _).step fun _ =>
        (Renames.faultIf _ .incompatible).step fun _ => (Renames.assign x y).step fun _ => .pure rfl
  | some operation =>
      exact (Renames.prepareUpdate x).step fun _ => (value.renames_compile hρ).step fun y =>
        (renames_requireInts x y).step fun _ => (Renames.update x y operation).step fun _ => .pure rfl

theorem Action.renames_compile (hρ : Faithful ρ) (x : Operand) (a : Action) :
    Renames ρ Eq (a.compile x) ((a.rename ρ).compile x) := by
  cases a with
  | assign op value =>
      exact (renames_requireAssignable x).step fun _ => Renames.shift.step fun _ =>
        renames_compileAssignment hρ x op value
  | call arguments closed =>
      exact (renames_passArguments x closed (renames_compileArguments hρ true arguments)).step fun _ =>
        (Renames.call x).step fun _ => .ite (Renames.emit .pop []) (.pure rfl)
  | increment => exact renames_compileStep x 1
  | decrement => exact renames_compileStep x (-1)
  | missing => exact .fault .missingAction

theorem renames_compileGuard (hρ : Faithful ρ) (opened : Bool) (condition : Condition) (closed : Bool) :
    Renames ρ Eq (compileGuard opened condition closed)
      (compileGuard opened (condition.rename ρ) closed) :=
  (Renames.expect .leftParen opened).step fun _ => (condition.renames_compile hρ).step fun x =>
    (Renames.jumpWith _ x.2.2).step fun _ => (Renames.place x.2.1).step fun _ =>
    (Renames.expect .rightParen closed).step fun _ => .pure rfl

theorem renames_compileBreak (behindLoop : Option Label) :
    Renames ρ Eq (compileBreak behindLoop) (compileBreak behindLoop) := by
  cases behindLoop with
  | some l => exact .jumpWith .jmp l
  | none => exact .fault .breakOutsideLoop

theorem renames_compileReturned (hρ : Faithful ρ) (result : Ty) (value : Option Expr) :
    Renames ρ Eq (compileReturned result value) (compileReturned result (value.map (Expr.rename ρ))) := by
  cases value with
  | some e =>
      exact (Renames.faultIf _ .valueInVoid).step fun _ => (e.renames_compile hρ).step fun x =>
        (Renames.inspect _).step fun _ => (Renames.faultIf _ .resultMismatch).step fun _ =>
        (Renames.load x).step fun _ => .pure rfl
  | none => exact .faultIf _ .valueMissing

theorem renames_readValue (type : Ty) : Renames ρ Eq (readValue type) (readValue type) := by
  rw [readValue]
  cases readOpcode? type with
  | some op => exact .emit op []
  | none => exact .fault .unreadable

theorem renames_compileWidth (width : Option (Option Int)) :
    Renames ρ Eq (compileWidth width) (compileWidth width) := by
  cases width with
  | some n => exact Renames.shift.step fun _ => .expectNumber 0 n
  | none => exact .pure rfl

mutual

theorem Statement.renames_compile (hρ : Faithful ρ) (behindLoop : Option Label) (result : Ty)
    (s : Statement) :
    Renames ρ Eq (s.compile behindLoop result) ((s.rename ρ).compile behindLoop result) := by
  cases s with
  | action d a ended =>
      rw [Statement.rename, Statement.compile, Statement.compile]
      exact (Renames.write .statement).step fun _ => (d.renames_compile hρ).step fun x =>
        (a.renames_compile hρ x).step fun _ => .expect .semicolon ended
  | ifThen opened condition closed body =>
      rw [Statement.rename, Statement.compile, Statement.compile]
      exact (Renames.write .statement).step fun _ => Renames.shift.step fun _ =>
        (renames_compileGuard hρ opened condition closed).step fun whenFalse =>
        (body.renames_compile hρ behindLoop result).step fun _ => .place whenFalse
  | ifThenElse opened condition closed body other =>
      rw [Statement.rename, Statement.compile, Statement.compile]
      exact (Renames.write .statement).step fun _ => Renames.shift.step fun _ =>
        (renames_compileGuard hρ opened condition closed).step fun whenFalse =>
        (body.renames_compile hρ behindLoop result).step fun _ => Renames.shift.step fun _ =>
        Renames.newLabel.step fun behind => (Renames.jumpWith .jmp behind).step fun _ =>
        (Renames.place whenFalse).step fun _ => (other.renames_compile hρ behindLoop result).step fun _ =>
        .place behind
  | whileDo opened condition closed body =>
      rw [Statement.rename, Statement.compile, Statement.compile]
      exact (Renames.write .statement).step fun _ => Renames.shift.step fun _ =>
        Renames.newLabel.step fun top => (Renames.place top).step fun _ =>
        (renames_compileGuard hρ opened condition closed).step fun whenFalse =>
        (body.renames_compile hρ (some whenFalse) result).step fun _ =>
        (Renames.jumpWith .jmp top).step fun _ => .place whenFalse
  | leave ended =>
      rw [Statement.rename, Statement.compile]
      exact (Renames.write .statement).step fun _ => Renames.shift.step fun _ =>
        (renames_compileBreak behindLoop).step fun _ => .expect .semicolon ended
  | give value ended =>
      rw [Statement.rename, Statement.compile, Statement.compile]
      exact (Renames.write .statement).step fun _ => Renames.shift.step fun _ =>
        (renames_compileReturned hρ result value).step fun _ => (Renames.emit .exit []).step fun _ =>
        (Renames.emit .ret []).step fun _ => .expect .semicolon ended
  | read opened d closed ended =>
      rw [Statement.rename, Statement.compile, Statement.compile]
      exact (Renames.write .statement).step fun _ => Renames.shift.step fun _ =>
        (Renames.expect .leftParen opened).step fun _ => (d.renames_compile hρ).step fun x =>
        (renames_requireAssignable x).step fun _ => (renames_readValue x.type).step fun _ =>
        (Renames.assign x _).step fun _ => (Renames.expect .rightParen closed).step fun _ =>
        .expect .semicolon ended
  | print opened value width closed ended =>
      rw [Statement.rename, Statement.compile, Statement.compile]
      exact (Renames.write .statement).step fun _ => Renames.shift.step fun _ =>
        (Renames.expect .leftParen opened).step fun _ => (value.renames_compile hρ).step fun x =>
        (Renames.faultIf _ .unprintable).step fun _ => (Renames.load x).step fun _ =>
        (renames_compileWidth width).step fun _ => (Renames.emitAll _).step fun _ =>
        (Renames.expect .rightParen closed).step fun _ => .expect .semicolon ended
  | block statements closed =>
      rw [Statement.rename, Statement.compile, Statement.compile]
      exact (Renames.write .statement).step fun _ => Renames.shift.step fun _ =>
        (renames_compileStatements hρ behindLoop result statements).step fun _ => .expect .rightBrace closed
  | empty =>
      rw [Statement.rename, Statement.compile]
      exact (Renames.write .statement).step fun _ => .shift
  | missing =>
      rw [Statement.rename, Statement.compile]
      exact (Renames.write .statement).step fun _ => .fault .invalidStatement
  | skipped more =>
      rw [Statement.rename, Statement.compile]
      exact (Renames.write .statement).step fun _ => .skip .invalidStatement more

theorem renames_compileStatements (hρ : Faithful ρ) (behindLoop : Option Label) (result : Ty)
    (ss : List Statement) :
    Renames ρ Eq (compileStatements behindLoop result ss)
      (compileStatements behindLoop result (renameStatements ρ ss)) := by
  cases ss with
  | nil =>
      rw [renameStatements, compileStatements]
      exact .pure rfl
  | cons s ss =>
      rw [renameStatements, compileStatements, compileStatements]
      exact (s.renames_compile hρ behindLoop result).step fun _ =>
        renames_compileStatements hρ behindLoop result ss

end

/-! ### Declarations -/

theorem TypeName.renames_compile (hρ : Faithful ρ) (t : TypeName) :
    Renames ρ Eq t.compile (t.rename ρ).compile := by
  refine (Renames.expectName hρ t.name).bind fun n n' hn => ?_
  rw [hn]
  refine (renames_findType n).step fun type => ?_
  rw [TypeName.rename]
  cases t.array with
  | none => exact .pure rfl
  | some closed =>
      exact Renames.shift.step fun _ => (Renames.expect .rightBracket closed).step fun _ => .newArray type

theorem renames_declareVariable (hρ : Faithful ρ) (type : Ty) (n : Option String) :
    Renames ρ Eq (declareVariable type n) (declareVariable type (n.map ρ)) := by
  refine (Renames.expectName hρ n).bind fun n n' hn => ?_
  rw [hn]
  exact (Renames.declare hρ .variable n type).step fun _ => .pure rfl

theorem VariableDecl.renames_compile (hρ : Faithful ρ) (d : VariableDecl) :
    Renames ρ Eq d.compile (d.rename ρ).compile :=
  (d.type.renames_compile hρ).step fun type => (renames_declareVariable hρ type d.first).step fun _ =>
    (Renames.forM d.others fun n => Renames.shift.step fun _ => renames_declareVariable hρ type n).step
      fun _ => .expect .semicolon d.ended

theorem ConstantValue.renames_compile (type : Ty) (id : SymbolId) (value : ConstantValue) :
    Renames ρ Eq (value.compile type id) (value.compile type id) := by
  have htake (shape : TyShape) (v : Int) :
      Renames ρ Eq (compile.take type id shape v) (compile.take type id shape v) :=
    (Renames.inspect _).step fun _ => (Renames.faultIf _ .constantMismatch).step fun _ =>
      Renames.shift.step fun _ => .modifySymbol id fun _ _ => rfl
  cases value with
  | number v => exact htake .int v
  | char v => exact htake .char v
  | missing => exact .fault .missingConstant

theorem ConstantDecl.renames_compile (hρ : Faithful ρ) (d : ConstantDecl) :
    Renames ρ Eq d.compile (d.rename ρ).compile := by
  refine Renames.shift.step fun _ => (d.type.renames_compile hρ).step fun type =>
    (Renames.expectName hρ d.name).bind fun n n' hn => ?_
  rw [hn]
  exact (Renames.declare hρ .constant n type).step fun id => (Renames.expect .assign d.assigned).step fun _ =>
    (d.value.renames_compile type id).step fun _ => .expect .semicolon d.ended

/-- The scope of a class is closed, and what it declared become the fields of the class. -/
theorem renames_adoptFields (type : Ty) :
    Renames ρ Eq (do
      let ids ← currentLocals
      closeScope
      setFields type ids) (do
      let ids ← currentLocals
      closeScope
      setFields type ids) := by
  intro s s' h
  refine ⟨rfl, ?_, h.code, h.debug, h.log⟩
  change (s.table.closeScope.setFields type s.table.current.locals).Renamed ρ
    (s'.table.closeScope.setFields type s'.table.current.locals)
  rw [h.table.current.locals]
  refine h.table.closeScope.setFields type fun id hid => ?_
  exact (h.table.locals _ List.mem_cons_self id hid).mono h.table.size
    SymbolTable.callsSame_closeScope SymbolTable.callsSame_closeScope

/-- The fields are looked at together with what is done with them, because a list of symbols alone does
not show how they are called. -/
theorem renames_compileFields (hρ : Faithful ρ) (type : Ty) (ds : List VariableDecl) :
    Renames ρ Eq (compileFields ds >>= setFields type)
      (compileFields (ds.map (VariableDecl.rename ρ)) >>= setFields type) := by
  simp only [compileFields, bind_assoc, pure_bind]
  exact Renames.openScope.step fun _ => (Renames.forM ds (VariableDecl.renames_compile hρ)).step fun _ =>
    Renames.variableCount.step fun _ => (Renames.faultIf _ .tooManyFields).step fun _ =>
    renames_adoptFields type

theorem ClassDecl.renames_compile (hρ : Faithful ρ) (d : ClassDecl) :
    Renames ρ Eq d.compile (d.rename ρ).compile := by
  refine Renames.shift.step fun _ => (Renames.expectName hρ d.name).bind fun n n' hn => ?_
  rw [hn]
  refine Renames.newObject.step fun type => (Renames.declare hρ .type n type).step fun _ =>
    (Renames.expect .leftBrace d.opened).step fun _ => ?_
  exact .assoc ((renames_compileFields hρ type d.fields).step fun _ => .expect .rightBrace d.closed)

theorem Declaration.renames_compile (hρ : Faithful ρ) (d : Declaration) :
    Renames ρ Eq d.compile (d.rename ρ).compile := by
  cases d with
  | constant d => exact d.renames_compile hρ
  | globals d => exact d.renames_compile hρ
  | object d => exact d.renames_compile hρ
  | skipped more => exact .skip .invalidDeclaration more

/-! ### Methods -/

theorem renames_compileParameters (hρ : Faithful ρ) (first : Bool) (ps : List Parameter) :
    Renames ρ Eq (compileParameters first ps) (compileParameters first (ps.map (Parameter.rename ρ))) := by
  induction ps generalizing first with
  | nil => exact .pure rfl
  | cons p ps ih =>
      exact (Renames.shiftUnless first).step fun _ => (p.type.renames_compile hρ).step fun type =>
        (renames_declareVariable hρ type p.name).step fun _ => ih false

theorem renames_compileResult (hρ : Faithful ρ) (type : Option TypeName) :
    Renames ρ Eq (compileResult type) (compileResult (type.map (TypeName.rename ρ))) := by
  cases type with
  | some t =>
      exact (t.renames_compile hρ).step fun type => (Renames.inspect _).step fun _ =>
        (Renames.faultIf _ .referenceResult).step fun _ => .pure rfl
  | none => exact Renames.shift.step fun _ => .pure rfl

/-- A method is the one where execution begins if it is after renaming. -/
theorem renames_noteMain (hρ : Faithful ρ) (n : String) (result : Ty) (entry parameterCount : Nat) :
    Renames ρ Eq (noteMain n result entry parameterCount) (noteMain (ρ n) result entry parameterCount) := by
  have hmain : ρ n = mainName ↔ n = mainName := by
    conv_lhs => rw [← hρ.reserved mainName (by decide), hρ.injective.eq_iff]
  simp only [noteMain, hmain]
  exact .ite ((Renames.modifyCode _).step fun _ => (Renames.faultIf _ .mainNotVoid).step fun _ =>
    .faultIf _ .mainWithParameters) (.pure rfl)

/-- The method that was declared, with another name. -/
def Signature.rename (ρ : String → String) (m : Signature) : Signature :=
  { m with name := ρ m.name }

theorem MethodDecl.renames_declare (hρ : Faithful ρ) (d : MethodDecl) :
    Renames ρ (Along (Signature.rename ρ)) d.declare (d.rename ρ).declare := by
  refine (renames_compileResult hρ d.type).step fun result =>
    (Renames.expectName hρ d.name).bind fun n n' hn => ?_
  rw [hn]
  exact (Renames.declare hρ .method n result).step fun id => Renames.pc.step fun entry =>
    (Renames.modifySymbol id fun _ _ => rfl).step fun _ => .pure rfl

theorem MethodDecl.renames_compileSignature (hρ : Faithful ρ) (d : MethodDecl) :
    Renames ρ (Along (Signature.rename ρ)) d.compileSignature (d.rename ρ).compileSignature := by
  refine (d.renames_declare hρ).bind fun m m' hm => ?_
  cases hm
  exact (Renames.expect .leftParen d.opened).step fun _ => Renames.openScope.step fun _ =>
    (renames_compileParameters hρ true d.parameters).step fun _ => Renames.variableCount.step fun count =>
    (Renames.modifySymbol m.id fun _ _ => rfl).step fun _ => (Renames.expect .rightParen d.closed).step
      fun _ => (renames_noteMain hρ m.name m.result m.entry count).step fun _ => .pure rfl

theorem MethodDecl.renames_compileHead (hρ : Faithful ρ) (d : MethodDecl) :
    Renames ρ (Along (Signature.rename ρ)) d.compileHead (d.rename ρ).compileHead := by
  refine (d.renames_compileSignature hρ).bind fun m m' hm => ?_
  cases hm
  refine (Renames.forM d.locals (VariableDecl.renames_compile hρ)).step fun _ =>
    Renames.variableCount.step fun count => (Renames.faultIf _ .tooManyLocals).step fun _ =>
    (Renames.emit .enter _).step fun _ => Renames.currentLocals.step fun locals =>
    (Renames.modifySymbol m.id fun _ _ => rfl).step fun _ => ?_
  refine Renames.step (.modify fun s s' h => ?_) fun _ =>
    (Renames.expect .leftBrace d.bodyOpened).step fun _ => .pure rfl
  refine ⟨h.table, h.code, ?_, h.log⟩
  simp only [h.debug, DebugInfo.rename, Array.map_push]
  rfl

theorem MethodDecl.renames_compileTail (d : MethodDecl) (result : Ty) :
    Renames ρ Eq (d.compileTail result) ((d.rename ρ).compileTail result) :=
  (Renames.expect .rightBrace d.bodyClosed).step fun _ => Renames.closeScope.step fun _ =>
    Renames.takeFarCount.step fun _ => (Renames.faultIf _ .methodTooLarge).step fun _ => .emitAll _

theorem MethodDecl.renames_compile (hρ : Faithful ρ) (d : MethodDecl) :
    Renames ρ Eq d.compile (d.rename ρ).compile := by
  refine (d.renames_compileHead hρ).bind fun m m' hm => ?_
  cases hm
  exact (renames_compileStatements hρ none m.result d.body).step fun _ => d.renames_compileTail m.result

theorem Member.renames_compile (hρ : Faithful ρ) (m : Member) :
    Renames ρ Eq m.compile (m.rename ρ).compile := by
  cases m with
  | method d => exact d.renames_compile hρ
  | skipped more => exact .skip .invalidMethod more

/-! ### Programs -/

/-- The names of the symbols that were declared in the innermost scope are the renamed ones. -/
theorem renames_symbols_currentLocals :
    Renames ρ (Along (Array.map fun x : Symbol => { x with name := ρ x.name }))
      (currentLocals >>= symbols) (currentLocals >>= symbols) := by
  intro s s' h
  refine ⟨?_, h.table, h.code, h.debug, h.log⟩
  change s'.table.current.locals.map s'.table.symbol =
    (s.table.current.locals.map s.table.symbol).map _
  rw [h.table.current.locals, Array.map_map]
  refine Array.map_congr_left fun id hid => ?_
  obtain ⟨-, hname⟩ := h.table.locals _ List.mem_cons_self id hid
  exact (h.table.symbol id).trans (by rw [hname]; rfl)

theorem renames_noteGlobals : Renames ρ Eq noteGlobals noteGlobals := by
  refine Renames.variableCount.step fun count => (Renames.faultIf _ .tooManyGlobals).step fun _ =>
    .assoc (renames_symbols_currentLocals.bind fun xs xs' hxs => .modify fun s s' h => ?_)
  refine ⟨h.table, by rw [h.code], ?_, h.log⟩
  cases hxs
  simp only [h.debug, DebugInfo.rename, Array.filter_map, Array.map_map]
  rfl

theorem Program.renames_compileHead (hρ : Faithful ρ) (p : Program) :
    Renames ρ Eq p.compileHead (p.rename ρ).compileHead := by
  refine Renames.shift.step fun _ => (Renames.expect .kwProgram p.announced).step fun _ =>
    (Renames.expectName hρ p.name).bind fun n n' hn => ?_
  rw [hn]
  refine (Renames.declare hρ .program n .void).step fun _ => Renames.step (.modify fun s s' h => ?_)
    fun _ => Renames.openScope.step fun _ =>
    (Renames.forM p.declarations (Declaration.renames_compile hρ)).step fun _ =>
    renames_noteGlobals.step fun _ => (Renames.expect .leftBrace p.opened).step fun _ => .pure rfl
  refine ⟨h.table, h.code, ?_, h.log⟩
  simp only [h.debug, DebugInfo.rename]

theorem Program.renames_compileTail (p : Program) (id : SymbolId) :
    Renames ρ Eq (p.compileTail id) ((p.rename ρ).compileTail id) := by
  refine (Renames.expect .rightBrace p.closed).step fun _ => Renames.currentLocals.step fun locals =>
    (Renames.modifySymbol id fun _ _ => rfl).step fun _ => Renames.closeScope.step fun _ =>
    Renames.get_bind fun s s' h => ?_
  rw [h.code]
  exact (Renames.faultIf _ (.missingMethod mainName)).step fun _ => .expect .eof p.complete

theorem Program.renames_compile (hρ : Faithful ρ) (p : Program) :
    Renames ρ Eq p.compile (p.rename ρ).compile :=
  (p.renames_compileHead hρ).step fun id =>
    (Renames.forM p.members (Member.renames_compile hρ)).step fun _ => p.renames_compileTail id

end Tree

/-! ### Diagnostics -/

namespace Reporter

/-- The reporter with the names in its diagnostics replaced. -/
def rename (ρ : String → String) (r : Reporter) : Reporter :=
  { r with diagnostics := r.diagnostics.map (Diagnostic.rename ρ) }

theorem fault_rename (r : Reporter) (m : Message) :
    (r.rename ρ).fault (m.rename ρ) = (r.fault m).rename ρ := by
  unfold fault
  by_cases h : r.minDistance ≤ r.distance
  · rw [if_pos h, if_pos (show (r.rename ρ).minDistance ≤ (r.rename ρ).distance from h)]
    simp only [rename, report, resync, Diagnostic.rename, Array.map_push]
  · rw [if_neg h, if_neg (show ¬(r.rename ρ).minDistance ≤ (r.rename ρ).distance from h)]
    rfl

/-- The same faults are shown, whatever names they mention. -/
theorem replay_rename (ρ : String → String) (last : Position) (r : Reporter) (ts : List Token) (log : List Event) :
    (r.rename ρ).replay last (ts.map fun t => { token := t.rename ρ }) (log.map (Event.rename ρ)) =
      (r.replay last (ts.map fun t => { token := t }) log).rename ρ := by
  induction log generalizing r ts with
  | nil => rw [List.map_nil, replay_nil, replay_nil]
  | cons e log ih =>
      cases e with
      | fault m =>
          rw [List.map_cons, Event.rename, replay, replay, fault_rename]
          exact ih (r.fault m) ts
      | resync =>
          rw [List.map_cons, Event.rename, replay, replay]
          exact ih r.resync ts
      | shift =>
          cases ts with
          | nil =>
              exact ih (r.advance last) []
          | cons t ts =>
              exact ih (r.advance t.position) ts

end Reporter

namespace TokenSource

theorem tokens_ofTokens_rename (ρ : String → String) (ts : List Token) :
    (ofTokens (ts.map (Token.rename ρ))).tokens = (ofTokens ts).tokens.map (Token.rename ρ) := by
  simp only [tokens, ofTokens, List.map_map, List.takeWhile_map]
  rfl

theorem renamed_compiler (hρ : Faithful ρ) (ts : List Token) :
    (ofTokens ts).compiler.Renamed ρ (ofTokens (ts.map (Token.rename ρ))).compiler := by
  rw [compiler, compiler, tokens_ofTokens_rename, Tree.Program.read_rename]
  exact ((Tree.Program.read (ofTokens ts).tokens).renames_compile hρ _ _ (renamed_initial hρ)).2

theorem diagnostics_ofTokens_rename (ts : List Token) (minDistance : Nat) (log : Array Event) :
    (ofTokens (ts.map (Token.rename ρ))).diagnostics minDistance (log.map (Event.rename ρ)) =
      ((ofTokens ts).diagnostics minDistance log).map (Diagnostic.rename ρ) := by
  have hlast : (ofTokens (ts.map (Token.rename ρ))).last = (ofTokens ts).last := by
    simp only [ofTokens, List.getLast?_map, Option.map_map]
    rfl
  have hreadings : (ofTokens (ts.map (Token.rename ρ))).readings =
      ts.map fun t => { token := t.rename ρ } := List.map_map
  have hstart : (Reporter.start minDistance).rename ρ = .start minDistance := by
    simp only [Reporter.rename, Reporter.start, Array.map_empty]
  have h := Reporter.replay_rename ρ (ofTokens ts).last (.start minDistance) ts log.toList
  rw [hstart] at h
  rw [diagnostics, diagnostics, hlast, hreadings, Array.toList_map, h]
  rfl

/-- How names are spelled has no influence on what a list of tokens compiles to: under other names, but
for the reserved ones, it compiles to the same image, to the debug information with the names replaced,
and to the same diagnostics at the same places with the names replaced. -/
theorem compile_rename (hρ : Faithful ρ) (ts : List Token) (minDistance : Nat) :
    ∃ c c', (ofTokens ts).compile minDistance = .ok c ∧
      (ofTokens (ts.map (Token.rename ρ))).compile minDistance = .ok c' ∧
      c'.image = c.image ∧ c'.debug = c.debug.rename ρ ∧
      c'.diagnostics = c.diagnostics.map (Diagnostic.rename ρ) := by
  have h := renamed_compiler hρ ts
  refine ⟨_, _, compile_eq_ok (ofTokens ts) minDistance, compile_eq_ok _ minDistance, ?_, h.debug, ?_⟩
  · rw [h.code]
  · dsimp only
    rw [h.log]
    exact diagnostics_ofTokens_rename ts minDistance _

theorem faithful_swap {a b : String} (ha : a ∉ reservedNames) (hb : b ∉ reservedNames) :
    Faithful (Equiv.swap a b) where
  injective := (Equiv.swap a b).injective
  reserved := fun _ hn => Equiv.swap_apply_of_ne_of_ne (fun h => ha (h ▸ hn)) fun h => hb (h ▸ hn)

/-- The names of a program and of a type that is not declared change places. -/
theorem compile_rename_swap : Faithful (Equiv.swap "p" "t") ∧
    ∃ c c', (ofTokens [⟨.kwProgram, ⟨1, 1⟩, "", 0⟩, ⟨.ident, ⟨1, 9⟩, "p", 0⟩, ⟨.ident, ⟨2, 3⟩, "t", 0⟩]).compile
        0 = .ok c ∧
      (ofTokens ([⟨.kwProgram, ⟨1, 1⟩, "", 0⟩, ⟨.ident, ⟨1, 9⟩, "p", 0⟩, ⟨.ident, ⟨2, 3⟩, "t", 0⟩].map
        (Token.rename (Equiv.swap "p" "t")))).compile 0 = .ok c' ∧
      c'.image = c.image ∧ c'.debug = c.debug.rename (Equiv.swap "p" "t") ∧
      c'.diagnostics = c.diagnostics.map (Diagnostic.rename (Equiv.swap "p" "t")) :=
  have hρ : Faithful (Equiv.swap "p" "t") := faithful_swap (by decide) (by decide)
  ⟨hρ, compile_rename hρ _ 0⟩

end TokenSource

end MicroJava
