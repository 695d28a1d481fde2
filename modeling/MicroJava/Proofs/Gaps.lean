import MicroJava.Compiler.Program
import MicroJava.Tree.Intact

/-!
# Every gap of a tree is a fault

While a tree is compiled a fault of the grammar is logged for every gap that the tree has, and none
if it has no gap, whatever other faults there are (`Program.notes_compile`). No fault concerns the
forming of tokens, and only the end of a method measures the ways that were written in it.

`Notes measured g x` says this of a step `x`: it logs no fault of the grammar exactly if `g` holds, and
it does not say that ways are too far unless they are `measured`. Steps that have nothing to do with the
tokens of the tree are quiet. What a step does and logs is the same whatever was logged before it,
because no step looks at the log.
-/

namespace MicroJava

/-- Whether a message comes from elsewhere than from compiling a tree: from forming tokens or, unless
ways are measured, from ways that are too far. -/
def Message.isForeign (measured : Bool) : Message → Bool
  | .methodTooLarge => !measured
  | m => m.isLexical

theorem Message.isLexical_of_isForeign {measured : Bool} {m : Message}
    (h : m.isForeign measured = false) : m.isLexical = false := by
  cases m <;> first | rfl | exact h

namespace Compiler

variable {α β γ : Type} {measured : Bool} {g g' : Prop} {x : CompilerM α} {f : α → CompilerM β}

/-- A step that does not look at the log and only adds to it. No new fault is foreign, and none
concerns the grammar if and only if `g` holds. -/
def Notes (measured : Bool) (g : Prop) (x : CompilerM α) : Prop :=
  ∀ s, ∃ new : List Event,
    (∀ log, x { s with log } = ((x s).1, { (x s).2 with log := log ++ new })) ∧
    (g ↔ ∀ m, .fault m ∈ new → m.isGrammatical = false) ∧
    ∀ m, .fault m ∈ new → m.isForeign measured = false

namespace Notes

/-- What is logged stands behind what was logged before. -/
theorem exists_log (hx : Notes measured g x) (s : Compiler) :
    ∃ new, (x s).2.log.toList = s.log.toList ++ new ∧
      (g ↔ ∀ m, .fault m ∈ new → m.isGrammatical = false) ∧
      ∀ m, .fault m ∈ new → m.isForeign measured = false := by
  obtain ⟨new, hnew, hg⟩ := hx s
  refine ⟨new, ?_, hg⟩
  have hlog := congrArg (fun r => r.2.log.toList) (hnew s.log)
  exact hlog.trans Array.toList_appendList

theorem bind (hx : Notes measured g x) (hf : ∀ a, Notes measured g' (f a)) :
    Notes measured (g ∧ g') (x >>= f) := by
  intro s
  obtain ⟨new, hx, hg, hown⟩ := hx s
  obtain ⟨new', hf, hg', hown'⟩ := hf (x s).1 (x s).2
  refine ⟨new ++ new', fun log => ?_, ?_, ?_⟩
  · have happend : log ++ (new ++ new') = log ++ new ++ new' := Array.ext' (by simp)
    change f (x { s with log }).1 (x { s with log }).2 = _
    rw [hx, happend]
    exact hf (log ++ new)
  · rw [hg, hg', ← forall_and]
    simp only [List.mem_append, or_imp]
  · intro m hm
    exact (List.mem_append.1 hm).elim (hown m) (hown' m)

theorem congr (h : Notes measured g x) (hg : g' ↔ g) : Notes measured g' x := propext hg ▸ h

/-- Nothing is noted from here on. -/
theorem finish (hx : Notes measured g x) (hf : ∀ a, Notes measured True (f a)) :
    Notes measured g (x >>= f) :=
  (hx.bind hf).congr (by simp)

/-- Nothing is noted so far. -/
theorem quietly (hx : Notes measured True x) (hf : ∀ a, Notes measured g (f a)) :
    Notes measured g (x >>= f) :=
  (hx.bind hf).congr (by simp)

theorem of_log (h : ∀ s log, x { s with log } = ((x s).1, { (x s).2 with log })) :
    Notes measured True x :=
  fun s => ⟨[], h s, by simp, by simp⟩

theorem pure {a : α} : Notes measured True (Pure.pure a) := of_log fun _ _ => rfl

/-- The state may be looked at, except for the log. -/
theorem get_bind {f : Compiler → CompilerM β} (h : ∀ s log, f { s with log } = f s)
    (hf : ∀ s, Notes measured g (f s)) : Notes measured g (MonadState.get >>= f) := by
  intro s
  obtain ⟨new, hnew, hg⟩ := hf s s
  refine ⟨new, fun log => ?_, hg⟩
  change f { s with log } { s with log } = _
  rw [h]
  exact hnew log

theorem modifyTable (h : SymbolTable → SymbolTable) : Notes measured True (modifyTable h) :=
  of_log fun _ _ => rfl

theorem modifyCode (h : Emitter → Emitter) : Notes measured True (modifyCode h) := of_log fun _ _ => rfl

theorem refer (rs : List Reference) : Notes measured True (refer rs) := of_log fun _ _ => rfl

theorem write (i : Item) : Notes measured True (write i) := of_log fun _ _ => rfl

theorem shift : Notes measured True shift :=
  fun _ => ⟨[.shift], fun _ => rfl, by simp, by simp⟩

theorem fault {m : Message} (hm : m.isGrammatical = false) (hown : m.isForeign measured = false) :
    Notes measured True (fault m) :=
  fun _ => ⟨[.fault m], fun _ => rfl, by simp [hm], by simp [hown]⟩

theorem faultIf (c : Bool) {m : Message} (hm : m.isGrammatical = false)
    (hown : m.isForeign measured = false) : Notes measured True (faultIf c m) := by
  unfold Compiler.faultIf
  split
  · exact fault hm hown
  · exact pure

theorem shiftUnless (first : Bool) : Notes measured True (shiftUnless first) := by
  unfold Compiler.shiftUnless
  split
  · exact pure
  · exact shift

theorem emitAll (operations : List Operation) : Notes measured True (emitAll operations) := by
  induction operations with
  | nil => exact pure
  | cons o operations ih => exact (write _).quietly fun _ => ih

theorem gap {m : Message} (hm : m.isGrammatical = true) (hown : m.isForeign measured = false) :
    Notes measured False (Compiler.fault m) :=
  fun _ => ⟨[.fault m], fun _ => rfl, by simp [hm], by simp [hown]⟩

theorem skip {m : Message} (hm : m.isGrammatical = true) (hown : m.isForeign measured = false)
    (more : Nat) : Notes measured False (Compiler.skip m more) := by
  refine (gap hm hown).finish fun _ => quietly (fun s => ?_) fun _ => fun s => ?_
  · refine ⟨List.replicate (more + 1) .shift, fun log => ?_, by simp, by simp⟩
    have hshifts : log ++ Array.replicate (more + 1) Event.shift =
        log ++ List.replicate (more + 1) Event.shift := Array.ext' (by simp)
    rw [← hshifts]
    rfl
  · exact ⟨[.resync], fun _ => rfl, by simp, by simp⟩

theorem expect (kind : Kind) (found : Bool) : Notes measured found (expect kind found) := by
  cases found with
  | false => exact (gap rfl rfl).congr (by simp)
  | true => exact shift.congr (by simp)

theorem expectName (name : Option String) : Notes measured name.isSome (expectName name) := by
  cases name with
  | none => exact ((gap rfl rfl).finish fun _ => .pure).congr (by simp)
  | some n => exact (shift.quietly fun _ => .pure).congr (by simp)

theorem expectNumber (substitute : Int) (n : Option Int) :
    Notes measured n.isSome (expectNumber substitute n) := by
  cases n with
  | none => exact ((gap rfl rfl).finish fun _ => .pure).congr (by simp)
  | some k => exact (shift.quietly fun _ => .pure).congr (by simp)

theorem forM {l : List γ} {good : γ → Prop} {f : γ → CompilerM PUnit}
    (h : ∀ c ∈ l, Notes measured (good c) (f c)) : Notes measured (∀ c ∈ l, good c) (l.forM f) := by
  induction l with
  | nil => exact Notes.pure.congr (by simp)
  | cons c l ih =>
      have hl := ih fun d hd => h d (List.mem_cons_of_mem c hd)
      exact ((h c List.mem_cons_self).bind fun _ => hl).congr (by simp)

theorem symbol (id : SymbolId) : Notes measured True (symbol id) :=
  (refer _).quietly fun _ => get_bind (fun _ _ => rfl) fun _ => pure

theorem symbols (ids : Array SymbolId) : Notes measured True (symbols ids) :=
  (refer _).quietly fun _ => get_bind (fun _ _ => rfl) fun _ => pure

theorem modifySymbol (id : SymbolId) (h : Symbol → Symbol) : Notes measured True (modifySymbol id h) :=
  (refer _).quietly fun _ => modifyTable _

theorem scope : Notes measured True scope :=
  get_bind (fun _ _ => rfl) fun _ => (refer _).quietly fun _ => get_bind (fun _ _ => rfl) fun _ => pure

theorem closeScope : Notes measured True closeScope := scope.quietly fun _ => modifyTable _

theorem declare (kind : SymbolKind) (name : String) (type : Ty) :
    Notes measured True (declare kind name type) :=
  scope.quietly fun _ => (faultIf _ rfl rfl).quietly fun _ => of_log fun _ _ => rfl

theorem find (name : String) : Notes measured True (find name) := by
  refine get_bind (fun _ _ => rfl) fun _ => (refer _).quietly fun _ =>
    get_bind (fun _ _ => rfl) fun s => ?_
  split
  · exact pure
  · exact (fault rfl rfl).quietly fun _ => pure

theorem inspect (types : List Ty) : Notes measured True (inspect types) := refer _

theorem fields (type : Ty) : Notes measured True (fields type) :=
  (refer _).quietly fun _ => get_bind (fun _ _ => rfl) fun _ => pure

theorem setFields (type : Ty) (fields : Array SymbolId) : Notes measured True (setFields type fields) :=
  (refer _).quietly fun _ => modifyTable _

theorem findField (type : Ty) (name : String) : Notes measured True (findField type name) := by
  refine (fields type).quietly fun fs => (refer _).quietly fun _ =>
    get_bind (fun _ _ => rfl) fun s => ?_
  split
  · exact pure
  · exact (fault rfl rfl).quietly fun _ => pure

theorem newArray (element : Ty) : Notes measured True (newArray element) := of_log fun _ _ => rfl

theorem newObject : Notes measured True newObject := of_log fun _ _ => rfl

theorem currentLocals : Notes measured True currentLocals := scope.quietly fun _ => pure

theorem variableCount : Notes measured True variableCount := scope.quietly fun _ => pure

theorem emit (op : Opcode) (operands : List Int) : Notes measured True (emit op operands) := write _

theorem newLabel : Notes measured True newLabel :=
  get_bind (fun _ _ => rfl) fun _ => (write _).quietly fun _ => pure

theorem place (l : Label) : Notes measured True (place l) :=
  get_bind (fun _ _ => rfl) fun _ => (refer _).quietly fun _ => write _

theorem jump (l : Label) : Notes measured True (jump l) := (refer _).quietly fun _ => write _

theorem jumpIf (r : Relation) (l : Label) : Notes measured True (jumpIf r l) :=
  (refer _).quietly fun _ => write _

theorem jumpUnless (r : Relation) (l : Label) : Notes measured True (jumpUnless r l) :=
  (refer _).quietly fun _ => write _

theorem takeFarCount : Notes measured True takeFarCount :=
  get_bind (fun _ _ => rfl) fun _ => (modifyCode _).quietly fun _ => pure

theorem operandOf (id : SymbolId) : Notes measured True (operandOf id) := by
  refine (symbol id).quietly fun s => ?_
  split
  · exact pure
  · exact (fault rfl rfl).quietly fun _ => pure

theorem load (x : Operand) : Notes measured True (load x) := by
  unfold Compiler.load
  split
  · exact (emitAll _).quietly fun _ => pure
  · exact (fault rfl rfl).quietly fun _ => pure

theorem store (x : Operand) : Notes measured True (store x) := by
  unfold Compiler.store
  split
  · exact emitAll _
  · exact fault rfl rfl

theorem assign (x y : Operand) : Notes measured True (assign x y) :=
  (load y).quietly fun _ => (store x).quietly fun _ => pure

theorem prepareUpdate (x : Operand) : Notes measured True (prepareUpdate x) :=
  (emitAll _).quietly fun _ => (load x).quietly fun _ => pure

theorem update (x y : Operand) (op : Opcode) : Notes measured True (update x y op) :=
  (load y).quietly fun _ => (emit _ _).quietly fun _ => (store x).quietly fun _ => pure

theorem increment (x : Operand) (n : Int) : Notes measured True (increment x n) := by
  have general : Notes measured True (do
      Compiler.prepareUpdate x
      let _ ← Compiler.update x (Operand.constant n .int) .add) :=
    (prepareUpdate x).quietly fun _ => (update x _ _).quietly fun _ => pure
  unfold Compiler.increment
  split
  · split
    · exact emit _ _
    · exact general
  · exact general

theorem call (x : Operand) : Notes measured True (call x) := by
  unfold Compiler.call
  split
  · split
    · exact pure
    · split
      · exact emit _ _
      · exact (symbol _).quietly fun _ => write _
  · exact pure

theorem formalTypes (x : Operand) : Notes measured True (formalTypes x) := by
  unfold MicroJava.formalTypes
  split
  · exact (symbol _).quietly fun _ => (symbols _).quietly fun _ => pure
  · exact (fault rfl rfl).quietly fun _ => pure

theorem findType (name : String) : Notes measured True (findType name) :=
  (find name).quietly fun _ => (symbol _).quietly fun _ => (faultIf _ rfl rfl).quietly fun _ => pure

theorem requireInts (x y : Operand) : Notes measured True (requireInts x y) := faultIf _ rfl rfl

theorem passArgument (x : Operand) (formals : List Ty) :
    Notes measured True (passArgument x formals) := by
  cases formals with
  | nil => exact (fault rfl rfl).quietly fun _ => pure
  | cons formal formals => exact (inspect _).quietly fun _ => (faultIf _ rfl rfl).quietly fun _ => pure

theorem negate (x : Operand) : Notes measured True (negate x) := by
  unfold MicroJava.negate
  split
  · exact pure
  · exact (load x).quietly fun _ => (emit _ _).quietly fun _ => pure

theorem requireAssignable (x : Operand) : Notes measured True (requireAssignable x) := faultIf _ rfl rfl

theorem compileStep (x : Operand) (n : Int) : Notes measured True (compileStep x n) :=
  (faultIf _ rfl rfl).quietly fun _ => (requireAssignable x).quietly fun _ =>
    shift.quietly fun _ => increment x n

end Notes

theorem Notes.passArguments (x : Operand) {pass : List Ty → CompilerM (List Ty)} (closed : Bool)
    (h : ∀ formals, Notes measured g (pass formals)) :
    Notes measured (g ∧ closed) (passArguments x pass closed) :=
  Notes.shift.quietly fun _ => (Notes.formalTypes x).quietly fun _ => (h _).bind fun _ =>
    (Notes.faultIf _ rfl rfl).quietly fun _ => expect _ _

end Compiler

namespace Tree

open Compiler

variable {measured : Bool}

/-! ### Expressions -/

mutual

/-- A gap in a sum is noted. -/
theorem Expr.notes_compile : (e : Expr) → Notes measured e.Intact e.compile
  | .term t => by
      rw [Expr.compile, Expr.Intact]
      exact t.notes_compile
  | .neg t => by
      rw [Expr.compile, Expr.Intact]
      exact Notes.shift.quietly fun _ => t.notes_compile.finish fun x =>
        (Notes.faultIf _ rfl rfl).quietly fun _ => .negate x
  | .add e op t => by
      rw [Expr.compile, Expr.Intact]
      exact e.notes_compile.bind fun _ => Notes.shift.quietly fun _ => (Notes.load _).quietly fun x =>
        t.notes_compile.finish fun _ => (Notes.load _).quietly fun y =>
        (Notes.requireInts x y).quietly fun _ => (Notes.emit _ _).quietly fun _ => .pure

theorem Term.notes_compile : (t : Term) → Notes measured t.Intact t.compile
  | .factor f => by
      rw [Term.compile, Term.Intact]
      exact f.notes_compile
  | .mul t op f => by
      rw [Term.compile, Term.Intact]
      exact t.notes_compile.bind fun _ => Notes.shift.quietly fun _ => (Notes.load _).quietly fun x =>
        f.notes_compile.finish fun _ => (Notes.load _).quietly fun y =>
        (Notes.requireInts x y).quietly fun _ => (Notes.emit _ _).quietly fun _ => .pure
  | .power t exponent => by
      rw [Term.compile, Term.Intact]
      exact t.notes_compile.bind fun _ => Notes.shift.quietly fun _ =>
        (Notes.expectNumber _ _).finish fun _ => (Notes.faultIf _ rfl rfl).quietly fun _ =>
        (Notes.faultIf _ rfl rfl).quietly fun _ => (Notes.load _).quietly fun _ =>
        (Notes.emitAll _).quietly fun _ => .pure

theorem Factor.notes_compile : (f : Factor) → Notes measured f.Intact f.compile
  | .designator d => by
      rw [Factor.compile, Factor.Intact]
      exact d.notes_compile
  | .call d arguments closed => by
      rw [Factor.compile, Factor.Intact]
      exact d.notes_compile.bind fun x =>
        (Notes.passArguments x closed (notes_compileArguments true arguments)).finish fun _ =>
        (Notes.faultIf _ rfl rfl).quietly fun _ => (Notes.call x).quietly fun _ => .pure
  | .number n => by
      rw [Factor.compile, Factor.Intact]
      exact Notes.shift.quietly fun _ => .pure
  | .char n => by
      rw [Factor.compile, Factor.Intact]
      exact Notes.shift.quietly fun _ => .pure
  | .newObject name => by
      rw [Factor.compile, Factor.Intact]
      exact Notes.shift.quietly fun _ => (Notes.expectName _).finish fun _ =>
        (Notes.findType _).quietly fun type => (Notes.inspect _).quietly fun _ =>
        (Notes.faultIf _ rfl rfl).quietly fun _ => (Notes.fields type).quietly fun _ =>
        (Notes.emit _ _).quietly fun _ => .pure
  | .newArray name size closed => by
      rw [Factor.compile, Factor.Intact]
      exact Notes.shift.quietly fun _ => (Notes.expectName _).bind fun _ =>
        (Notes.findType _).quietly fun element => Notes.shift.quietly fun _ =>
        size.notes_compile.bind fun _ => (Notes.faultIf _ rfl rfl).quietly fun _ =>
        (Notes.load _).quietly fun _ => (Notes.emit _ _).quietly fun _ =>
        (Notes.expect _ _).finish fun _ => (Notes.newArray element).quietly fun _ => .pure
  | .group e closed => by
      rw [Factor.compile, Factor.Intact]
      exact Notes.shift.quietly fun _ => e.notes_compile.bind fun _ =>
        (Notes.expect _ _).finish fun _ => .pure
  | .missing => by
      rw [Factor.compile, Factor.Intact]
      exact (Notes.gap rfl rfl).finish fun _ => .pure

theorem Designator.notes_compile : (d : Designator) → Notes measured d.Intact d.compile
  | .name n => by
      rw [Designator.compile, Designator.Intact]
      exact (Notes.expectName n).finish fun _ => (Notes.find _).quietly fun id => .operandOf id
  | .field d n => by
      rw [Designator.compile, Designator.Intact]
      exact d.notes_compile.bind fun _ => (Notes.inspect _).quietly fun _ =>
        (Notes.faultIf _ rfl rfl).quietly fun _ => Notes.shift.quietly fun _ =>
        (Notes.load _).quietly fun x => (Notes.expectName n).finish fun _ =>
        (Notes.findField _ _).quietly fun _ => (Notes.symbol _).quietly fun _ => .pure
  | .element d index closed => by
      rw [Designator.compile, Designator.Intact]
      exact d.notes_compile.bind fun _ => Notes.shift.quietly fun _ => (Notes.load _).quietly fun x =>
        (Notes.inspect _).quietly fun _ => (Notes.faultIf _ rfl rfl).quietly fun _ =>
        index.notes_compile.bind fun _ => (Notes.faultIf _ rfl rfl).quietly fun _ =>
        (Notes.load _).quietly fun _ => (Notes.expect _ _).finish fun _ => .pure

theorem notes_compileArguments (first : Bool) :
    (arguments : List Expr) → (formals : List Ty) →
      Notes measured (ArgumentsIntact arguments) (compileArguments first arguments formals)
  | [], formals => by
      rw [compileArguments, ArgumentsIntact]
      exact .pure
  | e :: es, formals => by
      rw [compileArguments, ArgumentsIntact]
      exact (Notes.shiftUnless first).quietly fun _ => e.notes_compile.bind fun _ =>
        (Notes.load _).quietly fun x => (Notes.passArgument x formals).quietly fun _ =>
        notes_compileArguments false es _

end

theorem notes_compileRelation (r : Option Relation) : Notes measured r.isSome (compileRelation r) := by
  cases r with
  | none => exact ((Notes.gap rfl rfl).finish fun _ => .pure).congr (by simp)
  | some r => exact (Notes.shift.bind fun _ => .pure).congr (by simp)

theorem Comparison.notes_compile (c : Comparison) : Notes measured c.Intact c.compile :=
  c.left.notes_compile.bind fun _ => (Notes.load _).quietly fun _ =>
    (notes_compileRelation _).bind fun _ => c.right.notes_compile.finish fun _ =>
    (Notes.load _).quietly fun _ => (Notes.inspect _).quietly fun _ =>
    (Notes.faultIf _ rfl rfl).quietly fun _ => (Notes.faultIf _ rfl rfl).quietly fun _ => .pure

theorem Conjunction.notes_compile (whenFalse : Label) :
    (cs : Conjunction) → Notes measured cs.Intact (cs.compile whenFalse)
  | .comparison c => c.notes_compile
  | .and cs c => (cs.notes_compile whenFalse).bind fun r => (Notes.jumpUnless r _).quietly fun _ =>
      Notes.shift.quietly fun _ => c.notes_compile

theorem Condition.notes_compileWith (whenTrue whenFalse : Label) :
    (cs : Condition) → Notes measured cs.Intact (cs.compileWith whenTrue whenFalse)
  | .conjunction c => (c.notes_compile whenFalse).finish fun _ => .pure
  | .or cs c => (cs.notes_compileWith whenTrue whenFalse).bind fun (r, f) =>
      (Notes.jumpIf r _).quietly fun _ => Notes.shift.quietly fun _ => (Notes.place f).quietly fun _ =>
      Notes.newLabel.quietly fun f => (c.notes_compile f).finish fun _ => .pure

theorem Condition.notes_compile (cs : Condition) : Notes measured cs.Intact cs.compile :=
  Notes.newLabel.quietly fun t => Notes.newLabel.quietly fun f =>
    (cs.notes_compileWith t f).finish fun _ => .pure

/-! ### Statements -/

theorem notes_compileGuard (opened : Bool) (cs : Condition) (closed : Bool) :
    Notes measured (GuardIntact opened cs closed) (compileGuard opened cs closed) :=
  (Notes.expect _ _).bind fun _ => cs.notes_compile.bind fun (r, _, _) =>
    (Notes.jumpUnless r _).quietly fun _ => (Notes.place _).quietly fun _ =>
    (Notes.expect _ _).finish fun _ => .pure

theorem notes_compileAssignment (x : Operand) (op : AssignOp) (value : Expr) :
    Notes measured value.Intact (compileAssignment x op value) := by
  unfold compileAssignment
  split
  · exact value.notes_compile.finish fun _ => (Notes.inspect _).quietly fun _ =>
      (Notes.faultIf _ rfl rfl).quietly fun _ => (Notes.assign _ _).quietly fun _ => .pure
  · exact (Notes.prepareUpdate x).quietly fun _ => value.notes_compile.finish fun _ =>
      (Notes.requireInts _ _).quietly fun _ => (Notes.update _ _ _).quietly fun _ => .pure

theorem Action.notes_compile (x : Operand) : (a : Action) → Notes measured a.Intact (a.compile x)
  | .assign op value => (Notes.requireAssignable x).quietly fun _ => Notes.shift.quietly fun _ =>
      notes_compileAssignment x op value
  | .call arguments closed => by
      refine (Notes.passArguments x closed (notes_compileArguments true arguments)).finish
        fun _ => (Notes.call x).quietly fun _ => ?_
      split
      · exact .emit _ _
      · exact .pure
  | .increment => Notes.compileStep x 1
  | .decrement => Notes.compileStep x (-1)
  | .missing => .gap rfl rfl

theorem quiet_compileBreak (behindLoop : Option Label) :
    Notes measured True (compileBreak behindLoop) := by
  cases behindLoop with
  | none => exact .fault rfl rfl
  | some l => exact .jump l

theorem notes_compileReturned (result : Ty) (value : Option Expr) :
    Notes measured (∀ e, value = some e → e.Intact) (compileReturned result value) := by
  cases value with
  | none => exact (Notes.faultIf _ rfl rfl).congr (by simp)
  | some e =>
      refine Notes.congr (g := e.Intact) ?_ (by simp)
      exact (Notes.faultIf _ rfl rfl).quietly fun _ => e.notes_compile.finish fun _ =>
        (Notes.inspect _).quietly fun _ => (Notes.faultIf _ rfl rfl).quietly fun _ =>
        (Notes.load _).quietly fun _ => .pure

theorem quiet_readValue (type : Ty) : Notes measured True (readValue type) := by
  unfold readValue
  split
  · exact .emit _ _
  · exact .fault rfl rfl

theorem notes_compileWidth (width : Option (Option Int)) :
    Notes measured (width ≠ some none) (compileWidth width) := by
  cases width with
  | none => exact Notes.pure.congr (by simp)
  | some n =>
      refine Notes.congr (Notes.shift.bind fun _ => .expectNumber 0 n) ?_
      cases n <;> simp

mutual

/-- A gap in a statement is noted. -/
theorem Statement.notes_compile (behindLoop : Option Label) (result : Ty) :
    (s : Statement) → Notes measured s.Intact (s.compile behindLoop result)
  | .action d a ended => by
      rw [Statement.compile, Statement.Intact]
      exact (Notes.write _).quietly fun _ => d.notes_compile.bind fun x =>
        (a.notes_compile x).bind fun _ => .expect _ _
  | .ifThen opened condition closed body => by
      rw [Statement.compile, Statement.Intact]
      exact (Notes.write _).quietly fun _ => Notes.shift.quietly fun _ =>
        (notes_compileGuard opened condition closed).bind fun _ =>
        (body.notes_compile behindLoop result).finish fun _ => .place _
  | .ifThenElse opened condition closed body other => by
      rw [Statement.compile, Statement.Intact]
      exact (Notes.write _).quietly fun _ => Notes.shift.quietly fun _ =>
        (notes_compileGuard opened condition closed).bind fun _ =>
        (body.notes_compile behindLoop result).bind fun _ => Notes.shift.quietly fun _ =>
        Notes.newLabel.quietly fun _ => (Notes.jump _).quietly fun _ => (Notes.place _).quietly fun _ =>
        (other.notes_compile behindLoop result).finish fun _ => .place _
  | .whileDo opened condition closed body => by
      rw [Statement.compile, Statement.Intact]
      exact (Notes.write _).quietly fun _ => Notes.shift.quietly fun _ =>
        Notes.newLabel.quietly fun _ => (Notes.place _).quietly fun _ =>
        (notes_compileGuard opened condition closed).bind fun whenFalse =>
        (body.notes_compile (some whenFalse) result).finish fun _ =>
        (Notes.jump _).quietly fun _ => .place _
  | .leave ended => by
      rw [Statement.compile, Statement.Intact]
      exact (Notes.write _).quietly fun _ => Notes.shift.quietly fun _ =>
        (quiet_compileBreak behindLoop).quietly fun _ => .expect _ _
  | .give value ended => by
      rw [Statement.compile, Statement.Intact]
      exact (Notes.write _).quietly fun _ => Notes.shift.quietly fun _ =>
        (notes_compileReturned result value).bind fun _ => (Notes.write _).quietly fun _ =>
        (Notes.write _).quietly fun _ => .expect _ _
  | .read opened d closed ended => by
      rw [Statement.compile, Statement.Intact]
      exact (Notes.write _).quietly fun _ => Notes.shift.quietly fun _ =>
        (Notes.expect _ _).bind fun _ => d.notes_compile.bind fun x =>
        (Notes.requireAssignable x).quietly fun _ => (quiet_readValue x.type).quietly fun _ =>
        (Notes.assign x _).quietly fun _ => (Notes.expect _ _).bind fun _ => .expect _ _
  | .print opened value width closed ended => by
      rw [Statement.compile, Statement.Intact]
      exact (Notes.write _).quietly fun _ => Notes.shift.quietly fun _ =>
        (Notes.expect _ _).bind fun _ => value.notes_compile.bind fun x =>
        (Notes.faultIf _ rfl rfl).quietly fun _ => (Notes.load x).quietly fun _ =>
        (notes_compileWidth width).bind fun n => (Notes.emitAll _).quietly fun _ =>
        (Notes.expect _ _).bind fun _ => .expect _ _
  | .block statements closed => by
      rw [Statement.compile, Statement.Intact]
      exact (Notes.write _).quietly fun _ => Notes.shift.quietly fun _ =>
        (notes_compileStatements behindLoop result statements).bind fun _ => .expect _ _
  | .empty => by
      rw [Statement.compile, Statement.Intact]
      exact (Notes.write _).quietly fun _ => .shift
  | .missing => by
      rw [Statement.compile, Statement.Intact]
      exact (Notes.write _).quietly fun _ => .gap rfl rfl
  | .skipped more => by
      rw [Statement.compile, Statement.Intact]
      exact (Notes.write _).quietly fun _ => .skip rfl rfl more

theorem notes_compileStatements (behindLoop : Option Label) (result : Ty) :
    (ss : List Statement) → Notes measured (StatementsIntact ss) (compileStatements behindLoop result ss)
  | [] => by
      rw [compileStatements, StatementsIntact]
      exact .pure
  | s :: ss => by
      rw [compileStatements, StatementsIntact]
      exact (s.notes_compile behindLoop result).bind fun _ =>
        notes_compileStatements behindLoop result ss

end

/-! ### Declarations and methods -/

theorem TypeName.notes_compile (t : TypeName) : Notes measured t.Intact t.compile := by
  refine (Notes.expectName _).bind fun _ => (Notes.findType _).quietly fun type => ?_
  split
  · next h => exact Notes.pure.congr (by simp [h])
  · next closed h =>
      refine Notes.congr (Notes.shift.bind fun _ => (Notes.expect _ closed).finish fun _ =>
        .newArray type) ?_
      simp [h]

theorem notes_declareVariable (type : Ty) (name : Option String) :
    Notes measured name.isSome (declareVariable type name) :=
  (Notes.expectName name).finish fun _ => (Notes.declare _ _ _).quietly fun _ => .pure

theorem VariableDecl.notes_compile (d : VariableDecl) : Notes measured d.Intact d.compile :=
  d.type.notes_compile.bind fun type => (notes_declareVariable type _).bind fun _ =>
    (Notes.forM fun name _ => Notes.shift.quietly fun _ => notes_declareVariable type name).bind
      fun _ => .expect _ _

theorem ConstantValue.notes_compile (type : Ty) (id : SymbolId) (v : ConstantValue) :
    Notes measured v.Intact (v.compile type id) := by
  have htake : ∀ shape value, Notes measured True (ConstantValue.compile.take type id shape value) :=
    fun _ _ => (Notes.inspect _).quietly fun _ => (Notes.faultIf _ rfl rfl).quietly fun _ =>
      Notes.shift.quietly fun _ => .modifySymbol _ _
  cases v with
  | number value => exact (htake _ _).congr (by simp [ConstantValue.Intact])
  | char value => exact (htake _ _).congr (by simp [ConstantValue.Intact])
  | missing => exact (Notes.gap rfl rfl).congr (by simp [ConstantValue.Intact])

theorem ConstantDecl.notes_compile (d : ConstantDecl) : Notes measured d.Intact d.compile :=
  Notes.shift.quietly fun _ => d.type.notes_compile.bind fun type => (Notes.expectName _).bind
    fun _ => (Notes.declare _ _ _).quietly fun id => (Notes.expect _ _).bind fun _ =>
    (d.value.notes_compile type id).bind fun _ => .expect _ _

theorem notes_compileFields (fields : List VariableDecl) :
    Notes measured (∀ field ∈ fields, field.Intact) (compileFields fields) :=
  (Notes.modifyTable _).quietly fun _ => (Notes.forM fun d _ => d.notes_compile).finish fun _ =>
    Notes.variableCount.quietly fun _ => (Notes.faultIf _ rfl rfl).quietly fun _ =>
    Notes.currentLocals.quietly fun _ => Notes.closeScope.quietly fun _ => .pure

theorem ClassDecl.notes_compile (d : ClassDecl) : Notes measured d.Intact d.compile :=
  Notes.shift.quietly fun _ => (Notes.expectName _).bind fun _ => Notes.newObject.quietly fun type =>
    (Notes.declare _ _ _).quietly fun _ => (Notes.expect _ _).bind fun _ =>
    (notes_compileFields _).bind fun _ => (Notes.setFields type _).quietly fun _ => .expect _ _

theorem Declaration.notes_compile : (d : Declaration) → Notes measured d.Intact d.compile
  | .constant d => d.notes_compile
  | .globals d => d.notes_compile
  | .object d => d.notes_compile
  | .skipped more => .skip rfl rfl more

theorem notes_compileParameters (first : Bool) (ps : List Parameter) :
    Notes measured (∀ p ∈ ps, p.Intact) (compileParameters first ps) := by
  induction ps generalizing first with
  | nil => exact Notes.pure.congr (by simp)
  | cons p ps ih =>
      refine Notes.congr ((Notes.shiftUnless first).quietly fun _ => p.type.notes_compile.bind
        fun type => (notes_declareVariable type p.name).bind fun _ => ih false) ?_
      simp [Parameter.Intact, and_assoc]

theorem notes_compileResult (type : Option TypeName) :
    Notes measured (∀ t, type = some t → t.Intact) (compileResult type) := by
  cases type with
  | none => exact (Notes.shift.bind fun _ => .pure).congr (by simp)
  | some t =>
      refine Notes.congr (g := t.Intact) ?_ (by simp)
      exact t.notes_compile.finish fun _ => (Notes.inspect _).quietly fun _ =>
        (Notes.faultIf _ rfl rfl).quietly fun _ => .pure

theorem quiet_noteMain (name : String) (result : Ty) (entry parameterCount : Nat) :
    Notes measured True (noteMain name result entry parameterCount) := by
  unfold noteMain
  split
  · exact (Notes.modifyCode _).quietly fun _ => (Notes.faultIf _ rfl rfl).quietly fun _ =>
      .faultIf _ rfl rfl
  · exact .pure

theorem MethodDecl.notes_declare (d : MethodDecl) :
    Notes measured ((∀ t, d.type = some t → t.Intact) ∧ d.name.isSome) d.declare :=
  (notes_compileResult _).bind fun _ => (Notes.expectName _).finish fun _ =>
    (Notes.declare _ _ _).quietly fun _ => (Notes.get_bind (fun _ _ => rfl) fun _ => .pure).quietly fun _ =>
    (Notes.modifySymbol _ _).quietly fun _ => .pure

theorem MethodDecl.notes_compileSignature (d : MethodDecl) :
    Notes measured (((∀ t, d.type = some t → t.Intact) ∧ d.name.isSome) ∧ d.opened ∧
      (∀ p ∈ d.parameters, p.Intact) ∧ d.closed) d.compileSignature :=
  d.notes_declare.bind fun _ => (Notes.expect _ _).bind fun _ => (Notes.modifyTable _).quietly
    fun _ => (notes_compileParameters true _).bind fun _ => Notes.variableCount.quietly fun _ =>
    (Notes.modifySymbol _ _).quietly fun _ => (Notes.expect _ _).finish fun _ =>
    (quiet_noteMain _ _ _ _).quietly fun _ => .pure

theorem MethodDecl.notes_compileHead (d : MethodDecl) :
    Notes measured ((((∀ t, d.type = some t → t.Intact) ∧ d.name.isSome) ∧ d.opened ∧
      (∀ p ∈ d.parameters, p.Intact) ∧ d.closed) ∧ (∀ v ∈ d.locals, v.Intact) ∧ d.bodyOpened)
      d.compileHead :=
  d.notes_compileSignature.bind fun _ => (Notes.forM fun v _ => v.notes_compile).bind fun _ =>
    Notes.variableCount.quietly fun _ => (Notes.faultIf _ rfl rfl).quietly fun _ =>
    (Notes.emit _ _).quietly fun _ => Notes.currentLocals.quietly fun _ =>
    (Notes.modifySymbol _ _).quietly fun _ => (Notes.of_log fun _ _ => rfl).quietly fun _ =>
    (Notes.expect _ _).finish fun _ => .pure

/-- At the end of a method the ways that were written in it are measured. -/
theorem MethodDecl.notes_compileTail (d : MethodDecl) (result : Ty) :
    Notes true d.bodyClosed (d.compileTail result) :=
  (Notes.expect _ _).finish fun _ => Notes.closeScope.quietly fun _ =>
    Notes.takeFarCount.quietly fun _ => (Notes.faultIf _ rfl rfl).quietly fun _ => .emitAll _

theorem MethodDecl.notes_compile (d : MethodDecl) : Notes true d.Intact d.compile := by
  refine Notes.congr (d.notes_compileHead.bind fun m => (notes_compileStatements none _ d.body).bind
    fun _ => d.notes_compileTail m.result) ⟨fun h => ?_, fun h => ?_⟩
  · exact ⟨⟨⟨⟨h.type, h.name⟩, h.opened, h.parameters, h.closed⟩, h.locals, h.bodyOpened⟩, h.body,
      h.bodyClosed⟩
  · obtain ⟨⟨⟨⟨htype, hname⟩, hopened, hparameters, hclosed⟩, hlocals, hbodyOpened⟩, hbody,
      hbodyClosed⟩ := h
    exact ⟨htype, hname, hopened, hparameters, hclosed, hlocals, hbodyOpened, hbody, hbodyClosed⟩

theorem Member.notes_compile : (m : Member) → Notes true m.Intact m.compile
  | .method d => d.notes_compile
  | .skipped more => .skip rfl rfl more

theorem Program.notes_compileTail (p : Program) (id : SymbolId) :
    Notes measured (p.closed ∧ p.complete) (p.compileTail id) :=
  (Notes.expect _ _).bind fun _ => Notes.currentLocals.quietly fun _ =>
    (Notes.modifySymbol _ _).quietly fun _ => Notes.closeScope.quietly fun _ =>
    Notes.get_bind (fun _ _ => rfl) fun _ => (Notes.faultIf _ rfl rfl).quietly fun _ => .expect _ _

theorem quiet_noteGlobals : Notes measured True noteGlobals :=
  Notes.variableCount.quietly fun _ => (Notes.faultIf _ rfl rfl).quietly fun _ =>
    Notes.currentLocals.quietly fun _ => (Notes.symbols _).quietly fun _ => .of_log fun _ _ => rfl

theorem Program.notes_compileHead (p : Program) :
    Notes measured (p.announced ∧ p.name.isSome ∧ (∀ d ∈ p.declarations, d.Intact) ∧ p.opened)
      p.compileHead :=
  Notes.shift.quietly fun _ => (Notes.expect _ _).bind fun _ => (Notes.expectName _).bind fun _ =>
    (Notes.declare _ _ _).quietly fun _ => (Notes.of_log fun _ _ => rfl).quietly fun _ =>
    (Notes.modifyTable _).quietly fun _ => (Notes.forM fun d _ => d.notes_compile).bind fun _ =>
    quiet_noteGlobals.quietly fun _ => (Notes.expect _ _).finish fun _ => .pure

/-- A gap in a program is noted, whatever else is wrong with it. -/
theorem Program.notes_compile (p : Program) : Notes true p.Intact p.compile := by
  refine Notes.congr (p.notes_compileHead.bind fun id => (Notes.forM fun m _ => m.notes_compile).bind
    fun _ => p.notes_compileTail id) ⟨fun h => ?_, fun h => ?_⟩
  · exact ⟨⟨h.announced, h.name, h.declarations, h.opened⟩, h.members, h.closed, h.complete⟩
  · obtain ⟨⟨hannounced, hname, hdeclarations, hopened⟩, hmembers, hclosed, hcomplete⟩ := h
    exact ⟨hannounced, hname, hdeclarations, hopened, hmembers, hclosed, hcomplete⟩

end Tree

end MicroJava
