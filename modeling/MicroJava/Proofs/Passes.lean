import MicroJava.Compiler.Program
import MicroJava.Tree.ReadStatement

/-!
# Every token is passed once

Whoever reads a tree takes tokens off the front of a list, and whoever compiles the tree passes
tokens. `Passes n x` says that the step `x` passes `n` tokens, whatever the state is. What was read is
compiled with as many tokens as were taken (`Parsed.Spends`), so no token is passed that was not
there, not even where one is missing.

A reader that extends what was read before takes tokens on top of those (`Parsed.SpendsSince`).
-/

namespace MicroJava

namespace Compiler

variable {α β γ : Type} {m n : Nat} {x : CompilerM α} {f : α → CompilerM β}

/-- The number of tokens that were passed. -/
def passed (s : Compiler) : Nat := s.log.toList.count .shift

/-- The step passes `n` tokens, whatever the state is. -/
def Passes (n : Nat) (x : CompilerM α) : Prop :=
  ∀ s, (x s).2.passed = s.passed + n

namespace Passes

theorem bind (hx : Passes m x) (hf : ∀ a, Passes n (f a)) : Passes (m + n) (x >>= f) := by
  intro s
  calc (f (x s).1 (x s).2).2.passed
      = (x s).2.passed + n := hf _ _
    _ = s.passed + (m + n) := by rw [hx, Nat.add_assoc]

/-- No token is passed from here on. -/
theorem finish (hx : Passes n x) (hf : ∀ a, Passes 0 (f a)) : Passes n (x >>= f) :=
  hx.bind hf

/-- No token is passed so far. -/
theorem quietly (hx : Passes 0 x) (hf : ∀ a, Passes n (f a)) : Passes n (x >>= f) :=
  Nat.zero_add n ▸ hx.bind hf

theorem of_log (h : ∀ s, (x s).2.log = s.log) : Passes 0 x := by
  intro s
  rw [passed, h]
  rfl

theorem of_eq (hx : Passes m x) (h : m = n) : Passes n x := h ▸ hx

theorem pure {a : α} : Passes 0 (Pure.pure a) := of_log fun _ => rfl

theorem get_bind {f : Compiler → CompilerM β} (h : ∀ s, Passes n (f s)) :
    Passes n (MonadState.get >>= f) :=
  fun s => h s s

theorem record (e : Event) : Passes (if e = .shift then 1 else 0) (record e) := by
  intro s
  change (s.log.push e).toList.count .shift = s.log.toList.count .shift + _
  rw [Array.toList_push, List.count_append, List.count_singleton]
  simp

theorem shift : Passes 1 shift := record .shift

theorem fault (m : Message) : Passes 0 (fault m) := record (.fault m)

theorem faultIf (c : Bool) (m : Message) : Passes 0 (faultIf c m) := by
  unfold Compiler.faultIf
  split
  · exact fault m
  · exact pure

theorem shiftUnless (first : Bool) : Passes (if first then 0 else 1) (shiftUnless first) := by
  cases first with
  | false => exact shift
  | true => exact pure

theorem expect (kind : Kind) (found : Bool) : Passes found.toNat (expect kind found) := by
  cases found with
  | false => exact fault _
  | true => exact shift

theorem expectName (name : Option String) : Passes name.isSome.toNat (expectName name) := by
  cases name with
  | none => exact (fault _).finish fun _ => pure
  | some n => exact shift.finish fun _ => pure

theorem expectNumber (substitute : Int) (k : Option Int) :
    Passes k.isSome.toNat (expectNumber substitute k) := by
  cases k with
  | none => exact (fault _).finish fun _ => pure
  | some k => exact shift.finish fun _ => pure

/-- Of the tokens that are passed over, the first one is not counted. -/
theorem skip (m : Message) (more : Nat) : Passes (more + 1) (skip m more) := by
  refine (fault m).quietly fun _ => finish (fun s => ?_) fun _ => record .resync
  change (s.log ++ Array.replicate (more + 1) Event.shift).toList.count .shift = _
  rw [Array.toList_append, Array.toList_replicate, List.count_append, List.count_replicate_self]
  rfl

theorem forM_nil {f : γ → CompilerM PUnit} : Passes 0 (([] : List γ).forM f) := pure

theorem forM_concat {l : List γ} {c : γ} {f : γ → CompilerM PUnit} (hl : Passes m (l.forM f))
    (hc : Passes n (f c)) : Passes (m + n) ((l ++ [c]).forM f) := by
  rw [List.forM_eq_forM, List.forM_append]
  exact hl.bind fun _ => hc.finish fun _ => pure

/-! ### Steps that pass no token -/

theorem refer (rs : List Reference) : Passes 0 (refer rs) := of_log fun _ => rfl

theorem modifyTable (h : SymbolTable → SymbolTable) : Passes 0 (modifyTable h) := of_log fun _ => rfl

theorem modifyCode (h : Emitter → Emitter) : Passes 0 (modifyCode h) := of_log fun _ => rfl

theorem write (i : Item) : Passes 0 (write i) := of_log fun _ => rfl

theorem emitAll (os : List Operation) : Passes 0 (emitAll os) := by
  induction os with
  | nil => exact pure
  | cons o os ih => exact (write _).quietly fun _ => ih

theorem symbol (id : SymbolId) : Passes 0 (symbol id) :=
  (refer _).finish fun _ => get_bind fun _ => pure

theorem symbols (ids : Array SymbolId) : Passes 0 (symbols ids) :=
  (refer _).finish fun _ => get_bind fun _ => pure

theorem modifySymbol (id : SymbolId) (h : Symbol → Symbol) : Passes 0 (modifySymbol id h) :=
  (refer _).finish fun _ => modifyTable _

theorem scope : Passes 0 scope :=
  get_bind fun _ => (refer _).finish fun _ => get_bind fun _ => pure

theorem closeScope : Passes 0 closeScope := scope.finish fun _ => modifyTable _

theorem declare (kind : SymbolKind) (name : String) (type : Ty) : Passes 0 (declare kind name type) :=
  scope.finish fun _ => (faultIf _ _).finish fun _ => of_log fun _ => rfl

theorem find (name : String) : Passes 0 (find name) := by
  refine get_bind fun _ => (refer _).finish fun _ => get_bind fun s => ?_
  split
  · exact pure
  · exact (fault _).finish fun _ => pure

theorem inspect (types : List Ty) : Passes 0 (inspect types) := refer _

theorem fields (type : Ty) : Passes 0 (fields type) :=
  (refer _).finish fun _ => get_bind fun _ => pure

theorem setFields (type : Ty) (fields : Array SymbolId) : Passes 0 (setFields type fields) :=
  (refer _).finish fun _ => modifyTable _

theorem findField (type : Ty) (name : String) : Passes 0 (findField type name) := by
  refine (fields type).finish fun _ => (refer _).finish fun _ => get_bind fun s => ?_
  split
  · exact pure
  · exact (fault _).finish fun _ => pure

theorem newArray (element : Ty) : Passes 0 (newArray element) := of_log fun _ => rfl

theorem newObject : Passes 0 newObject := of_log fun _ => rfl

theorem currentLocals : Passes 0 currentLocals := scope.finish fun _ => pure

theorem variableCount : Passes 0 variableCount := scope.finish fun _ => pure

theorem newLabel : Passes 0 newLabel :=
  get_bind fun _ => (write _).finish fun _ => pure

theorem place (l : Label) : Passes 0 (place l) :=
  get_bind fun _ => (refer _).finish fun _ => write _

theorem jumpWith (op : Opcode) (l : Label) : Passes 0 (jumpWith op l) :=
  (refer _).finish fun _ => write _

theorem takeFarCount : Passes 0 takeFarCount :=
  get_bind fun _ => (modifyCode _).finish fun _ => pure

theorem operandOf (id : SymbolId) : Passes 0 (operandOf id) := by
  refine (symbol id).finish fun s => ?_
  split
  · exact pure
  · exact (fault _).finish fun _ => pure

theorem load (x : Operand) : Passes 0 (load x) := by
  unfold Compiler.load
  split
  · exact (emitAll _).finish fun _ => pure
  · exact (fault _).finish fun _ => pure

theorem store (x : Operand) : Passes 0 (store x) := by
  unfold Compiler.store
  split
  · exact emitAll _
  · exact fault _

theorem assign (x y : Operand) : Passes 0 (assign x y) :=
  (load y).finish fun _ => (store x).finish fun _ => pure

theorem prepareUpdate (x : Operand) : Passes 0 (prepareUpdate x) :=
  (emitAll _).finish fun _ => (load x).finish fun _ => pure

theorem update (x y : Operand) (op : Opcode) : Passes 0 (update x y op) :=
  (load y).finish fun _ => (write _).finish fun _ => (store x).finish fun _ => pure

theorem increment (x : Operand) (k : Int) : Passes 0 (increment x k) := by
  have general : Passes 0 (do
      Compiler.prepareUpdate x
      let _ ← Compiler.update x (Operand.constant k .int) .add) :=
    (prepareUpdate x).finish fun _ => (update x _ _).finish fun _ => pure
  unfold Compiler.increment
  split
  · split
    · exact write _
    · exact general
  · exact general

theorem call (x : Operand) : Passes 0 (call x) := by
  unfold Compiler.call
  split
  · split
    · exact pure
    · split
      · exact write _
      · exact (symbol _).finish fun _ => write _
  · exact pure

theorem formalTypes (x : Operand) : Passes 0 (formalTypes x) := by
  unfold MicroJava.formalTypes
  split
  · exact (symbol _).finish fun _ => (symbols _).finish fun _ => pure
  · exact (fault _).finish fun _ => pure

theorem findType (name : String) : Passes 0 (findType name) :=
  (find name).finish fun _ => (symbol _).finish fun _ => (faultIf _ _).finish fun _ => pure

theorem passArgument (x : Operand) (formals : List Ty) : Passes 0 (passArgument x formals) := by
  cases formals with
  | nil => exact (fault _).finish fun _ => pure
  | cons formal formals => exact (inspect _).finish fun _ => (faultIf _ _).finish fun _ => pure

theorem negate (x : Operand) : Passes 0 (negate x) := by
  unfold MicroJava.negate
  split
  · exact pure
  · exact (load x).finish fun _ => (write _).finish fun _ => pure

theorem compileStep (x : Operand) (k : Int) : Passes 1 (compileStep x k) :=
  (faultIf _ _).quietly fun _ => (faultIf _ _).quietly fun _ => shift.finish fun _ => increment x k

theorem readValue (type : Ty) : Passes 0 (Tree.readValue type) := by
  unfold Tree.readValue
  split
  · exact write _
  · exact fault _

theorem compileBreak (behindLoop : Option Label) : Passes 0 (Tree.compileBreak behindLoop) := by
  cases behindLoop with
  | none => exact fault _
  | some l => exact jumpWith _ l

theorem noteMain (name : String) (result : Ty) (entry parameterCount : Nat) :
    Passes 0 (Tree.noteMain name result entry parameterCount) := by
  unfold Tree.noteMain
  split
  · exact (modifyCode _).finish fun _ => (faultIf _ _).finish fun _ => faultIf _ _
  · exact pure

theorem noteGlobals : Passes 0 Tree.noteGlobals :=
  variableCount.finish fun _ => (faultIf _ _).finish fun _ => currentLocals.finish fun _ =>
    (symbols _).finish fun _ => of_log fun _ => rfl

/-- A call passes its parentheses and what its arguments pass. -/
theorem passArguments (x : Operand) {pass : List Ty → CompilerM (List Ty)} {closed : Bool}
    (h : ∀ formals, Passes m (pass formals)) (hclosed : Passes n (Compiler.expect .rightParen closed)) :
    Passes (1 + (m + n)) (passArguments x pass closed) :=
  shift.bind fun _ => (formalTypes x).quietly fun _ => (h _).bind fun _ =>
    (faultIf _ _).quietly fun _ => hclosed

end Passes

end Compiler

namespace Tree

open Compiler

/-- As many tokens were taken off the front as `P` says of what was read. -/
def Parsed.Spends {α : Type} {ts : List Token} (p : Parsed α ts) (P : Nat → α → Prop) : Prop :=
  ∃ n, P n p.value ∧ n + p.rest.length = ts.length

/-- What was read goes on from `x`, and the tokens that were taken since `ts` add to those of `x`. -/
def Parsed.SpendsSince {α : Type} {start : List Token} (p : Parsed α start) (P : Nat → α → Prop)
    (x : α) (ts : List Token) : Prop :=
  ∀ n, P n x → ∃ m, P m p.value ∧ m + p.rest.length = n + ts.length

theorem Parsed.SpendsSince.spends {α : Type} {ts : List Token} {p : Parsed α ts}
    {P : Nat → α → Prop} {x : α} {n : Nat} (h : p.SpendsSince P x ts) (hn : P n x) :
    p.Spends fun m a => P (n + m) a := by
  obtain ⟨m, hm, hlength⟩ := h n hn
  have := p.length_rest_le
  refine ⟨m - n, ?_, by omega⟩
  change P (n + (m - n)) p.value
  rwa [Nat.add_sub_cancel' (by omega)]

theorem length_rest_accept (kind : Kind) (ts : List Token) :
    (accept kind ts).value.toNat + (accept kind ts).rest.length = ts.length := by
  cases ts with
  | nil => rfl
  | cons t ts =>
      rw [accept]
      split
      · exact Nat.add_comm _ _
      · exact Nat.zero_add _

theorem length_rest_readName (ts : List Token) :
    (readName ts).value.isSome.toNat + (readName ts).rest.length = ts.length := by
  cases ts with
  | nil => rfl
  | cons t ts =>
      rw [readName]
      split
      · exact Nat.add_comm _ _
      · exact Nat.zero_add _

theorem length_rest_readNumber (ts : List Token) :
    (readNumber ts).value.isSome.toNat + (readNumber ts).rest.length = ts.length := by
  cases ts with
  | nil => rfl
  | cons t ts =>
      rw [readNumber]
      split
      · exact Nat.add_comm _ _
      · exact Nat.zero_add _

theorem length_rest_skipTo (resumes : Kind → Bool) (ts : List Token) :
    (skipTo resumes ts).value + (skipTo resumes ts).rest.length = ts.length := by
  rw [skipTo, ← List.length_append, List.takeWhile_append_dropWhile]

theorem passes_compileName {n : Nat} {name : Option String} (hn : Passes n (expectName name)) :
    Passes n (Designator.name name).compile := by
  rw [Designator.compile]
  exact hn.finish fun _ => (Passes.find _).finish fun _ => .operandOf _

/-! ### Expressions -/

section Parts

variable {e : Expr} {t : Term} {f : Factor} {d : Designator} {es : List Expr} {closed : Bool}
  {n m : Nat}

theorem Expr.passes_neg (ht : Passes n t.compile) : Passes (1 + n) (Expr.neg t).compile := by
  rw [Expr.compile]
  exact Passes.shift.bind fun _ => ht.finish fun x => (Passes.faultIf _ _).finish fun _ => .negate x

theorem Expr.passes_add (op : AddOp) (he : Passes n e.compile) (ht : Passes m t.compile) :
    Passes (n + (1 + m)) (Expr.add e op t).compile := by
  rw [Expr.compile]
  exact he.bind fun _ => Passes.shift.bind fun _ => (Passes.load _).quietly fun _ =>
    ht.finish fun _ => (Passes.load _).finish fun _ => (Passes.faultIf _ _).finish fun _ =>
    (Passes.write _).finish fun _ => .pure

theorem Term.passes_mul (op : MulOp) (ht : Passes n t.compile) (hf : Passes m f.compile) :
    Passes (n + (1 + m)) (Term.mul t op f).compile := by
  rw [Term.compile]
  exact ht.bind fun _ => Passes.shift.bind fun _ => (Passes.load _).quietly fun _ =>
    hf.finish fun _ => (Passes.load _).finish fun _ => (Passes.faultIf _ _).finish fun _ =>
    (Passes.write _).finish fun _ => .pure

theorem Term.passes_power (k : Option Int) (ht : Passes n t.compile) :
    Passes (n + (1 + k.isSome.toNat)) (Term.power t k).compile := by
  rw [Term.compile]
  exact ht.bind fun _ => Passes.shift.bind fun _ => (Passes.expectNumber _ _).finish fun _ =>
    (Passes.faultIf _ _).finish fun _ => (Passes.faultIf _ _).finish fun _ =>
    (Passes.load _).finish fun _ => (Passes.emitAll _).finish fun _ => .pure

theorem Factor.passes_call (hd : Passes n d.compile)
    (hes : ∀ formals, Passes m (compileArguments true es formals)) :
    Passes (n + (1 + (m + closed.toNat))) (Factor.call d es closed).compile := by
  rw [Factor.compile]
  exact hd.bind fun x => (Passes.passArguments x hes (.expect _ _)).finish fun _ =>
    (Passes.faultIf _ _).finish fun _ => (Passes.call x).finish fun _ => .pure

theorem Factor.passes_number (k : Int) : Passes 1 (Factor.number k).compile := by
  rw [Factor.compile]
  exact Passes.shift.finish fun _ => .pure

theorem Factor.passes_char (k : Int) : Passes 1 (Factor.char k).compile := by
  rw [Factor.compile]
  exact Passes.shift.finish fun _ => .pure

theorem Factor.passes_newObject (name : Option String) :
    Passes (1 + name.isSome.toNat) (Factor.newObject name).compile := by
  rw [Factor.compile]
  exact Passes.shift.bind fun _ => (Passes.expectName _).finish fun _ =>
    (Passes.findType _).finish fun _ => (Passes.inspect _).finish fun _ =>
    (Passes.faultIf _ _).finish fun _ => (Passes.fields _).finish fun _ =>
    (Passes.write _).finish fun _ => .pure

theorem Factor.passes_newArray (name : Option String) (he : Passes n e.compile) :
    Passes (1 + (name.isSome.toNat + (1 + (n + closed.toNat))))
      (Factor.newArray name e closed).compile := by
  rw [Factor.compile]
  exact Passes.shift.bind fun _ => (Passes.expectName _).bind fun _ =>
    (Passes.findType _).quietly fun _ => Passes.shift.bind fun _ => he.bind fun _ =>
    (Passes.faultIf _ _).quietly fun _ => (Passes.load _).quietly fun _ =>
    (Passes.write _).quietly fun _ => (Passes.expect _ _).finish fun _ =>
    (Passes.newArray _).finish fun _ => .pure

theorem Factor.passes_group (he : Passes n e.compile) :
    Passes (1 + (n + closed.toNat)) (Factor.group e closed).compile := by
  rw [Factor.compile]
  exact Passes.shift.bind fun _ => he.bind fun _ => (Passes.expect _ _).finish fun _ => .pure

theorem Factor.passes_missing : Passes 0 Factor.missing.compile := by
  rw [Factor.compile]
  exact (Passes.fault _).finish fun _ => .pure

theorem Designator.passes_field (name : Option String) (hd : Passes n d.compile) :
    Passes (n + (1 + name.isSome.toNat)) (Designator.field d name).compile := by
  rw [Designator.compile]
  exact hd.bind fun _ => (Passes.inspect _).quietly fun _ => (Passes.faultIf _ _).quietly
    fun _ => Passes.shift.bind fun _ => (Passes.load _).quietly fun _ =>
    (Passes.expectName _).finish fun _ => (Passes.findField _ _).finish fun _ =>
    (Passes.symbol _).finish fun _ => .pure

theorem Designator.passes_element (hd : Passes n d.compile) (he : Passes m e.compile) :
    Passes (n + (1 + (m + closed.toNat))) (Designator.element d e closed).compile := by
  rw [Designator.compile]
  exact hd.bind fun _ => Passes.shift.bind fun _ => (Passes.load _).quietly fun _ =>
    (Passes.inspect _).quietly fun _ => (Passes.faultIf _ _).quietly fun _ =>
    he.bind fun _ => (Passes.faultIf _ _).quietly fun _ => (Passes.load _).quietly fun _ =>
    (Passes.expect _ _).finish fun _ => .pure

end Parts

mutual

theorem spends_readExpr (ts : List Token) :
    (readExpr ts).Spends fun n e => Passes n e.compile := by
  rw [readExpr]
  dsimp only
  have := (accept .minus ts).length_rest_le
  have := (readTerm (accept .minus ts).rest).length_rest_le
  have hminus := length_rest_accept .minus ts
  obtain ⟨n, hn, hterm⟩ := spends_readTerm (accept .minus ts).rest
  have hfirst : Passes ((accept .minus ts).value.toNat + n)
      (if (accept .minus ts).value then Expr.neg (readTerm (accept .minus ts).rest).value
        else .term (readTerm (accept .minus ts).rest).value).compile := by
    cases (accept .minus ts).value with
    | false =>
        rw [if_neg Bool.false_ne_true, Expr.compile, Bool.toNat_false, Nat.zero_add]
        exact hn
    | true =>
        rw [if_pos rfl]
        exact Expr.passes_neg hn
  obtain ⟨m, hm, hsum⟩ := spends_readSum _ ts _ _ _ hfirst
  exact ⟨m, hm, hsum.trans (by omega)⟩
termination_by 8 * ts.length + 4

theorem spends_readSum (x : Expr) (start ts : List Token) (h : ts <:+ start) :
    (readSum x start ts h).SpendsSince (fun n e => Passes n e.compile) x ts := by
  match ts, h with
  | [], h =>
      rw [readSum]
      exact fun n hn => ⟨n, hn, rfl⟩
  | t :: ts₁, h =>
      rw [readSum]
      split
      · exact fun n hn => ⟨n, hn, rfl⟩
      · next op hop =>
          intro n hn
          have := (readTerm ts₁).length_rest_le
          obtain ⟨k, hk, hterm⟩ := spends_readTerm ts₁
          obtain ⟨m, hm, hmore⟩ := spends_readSum _ start _ _ _ (Expr.passes_add op hn hk)
          refine ⟨m, hm, hmore.trans ?_⟩
          rw [List.length_cons]
          omega
termination_by 8 * ts.length

theorem spends_readTerm (ts : List Token) :
    (readTerm ts).Spends fun n t => Passes n t.compile := by
  rw [readTerm]
  have := (readFactor ts).length_rest_le
  obtain ⟨n, hn, hfactor⟩ := spends_readFactor ts
  have hfirst : Passes n (Term.factor (readFactor ts).value).compile := by rwa [Term.compile]
  obtain ⟨m, hm, hproduct⟩ := spends_readProduct _ ts _ (readFactor ts).suffix _ hfirst
  exact ⟨m, hm, hproduct.trans (by omega)⟩
termination_by 8 * ts.length + 3

theorem spends_readProduct (x : Term) (start ts : List Token) (h : ts <:+ start) :
    (readProduct x start ts h).SpendsSince (fun n t => Passes n t.compile) x ts := by
  match ts, h with
  | [], h =>
      rw [readProduct]
      exact fun n hn => ⟨n, hn, rfl⟩
  | t :: ts₁, h =>
      rw [readProduct]
      split
      · next op hop =>
          intro n hn
          have := (readFactor ts₁).length_rest_le
          obtain ⟨k, hk, hfactor⟩ := spends_readFactor ts₁
          obtain ⟨m, hm, hmore⟩ := spends_readProduct _ start _
            ((readFactor ts₁).suffix.trans ((List.suffix_cons t ts₁).trans h)) _
            (Term.passes_mul op hn hk)
          refine ⟨m, hm, hmore.trans ?_⟩
          rw [List.length_cons]
          omega
      · split
        · intro n hn
          have := (readNumber ts₁).length_rest_le
          have hnumber := length_rest_readNumber ts₁
          obtain ⟨m, hm, hmore⟩ := spends_readProduct _ start _
            ((readNumber ts₁).suffix.trans ((List.suffix_cons t ts₁).trans h)) _
            (Term.passes_power (readNumber ts₁).value hn)
          refine ⟨m, hm, hmore.trans ?_⟩
          rw [List.length_cons]
          omega
        · exact fun n hn => ⟨n, hn, rfl⟩
termination_by 8 * ts.length

theorem spends_readFactor (ts : List Token) :
    (readFactor ts).Spends fun n f => Passes n f.compile := by
  match ts with
  | [] =>
      rw [readFactor]
      exact ⟨0, Factor.passes_missing, rfl⟩
  | t :: ts₁ =>
      rw [readFactor]
      split
      · have hname : Passes 1 (Designator.name (some t.name)).compile :=
          passes_compileName (.expectName _)
        have := (readSelectors (.name (some t.name)) ts₁ ts₁ List.suffix_rfl).length_rest_le
        obtain ⟨n, hn, hselectors⟩ := spends_readSelectors _ ts₁ ts₁ List.suffix_rfl _ hname
        generalize readSelectors (.name (some t.name)) ts₁ ts₁ List.suffix_rfl = d at *
        have := (accept .leftParen d.rest).length_rest_le
        have hopened := length_rest_accept .leftParen d.rest
        dsimp only
        split
        · next hcalled =>
            rw [hcalled] at hopened
            obtain ⟨k, hk, harguments⟩ := spends_readArguments (accept .leftParen d.rest).rest
            have hclosed := length_rest_accept .rightParen
              (readArguments (accept .leftParen d.rest).rest).rest
            refine ⟨n + (1 + (k + (accept .rightParen
              (readArguments (accept .leftParen d.rest).rest).rest).value.toNat)),
              Factor.passes_call hn hk, ?_⟩
            rw [List.length_cons]
            change 1 + _ = _ at hopened
            dsimp only
            omega
        · refine ⟨n, ?_, ?_⟩
          · dsimp only
            rwa [Factor.compile]
          · rw [List.length_cons]
            dsimp only
            omega
      · exact ⟨1, Factor.passes_number _, Nat.add_comm _ _⟩
      · exact ⟨1, Factor.passes_char _, Nat.add_comm _ _⟩
      · have := (readName ts₁).length_rest_le
        have := (accept .leftBracket (readName ts₁).rest).length_rest_le
        have hname := length_rest_readName ts₁
        have hsized := length_rest_accept .leftBracket (readName ts₁).rest
        dsimp only
        split
        · next hopened =>
            rw [hopened] at hsized
            obtain ⟨k, hk, hsize⟩ := spends_readExpr (accept .leftBracket (readName ts₁).rest).rest
            have hclosed := length_rest_accept .rightBracket
              (readExpr (accept .leftBracket (readName ts₁).rest).rest).rest
            refine ⟨1 + ((readName ts₁).value.isSome.toNat + (1 + (k + (accept .rightBracket
              (readExpr (accept .leftBracket (readName ts₁).rest).rest).rest).value.toNat))),
              Factor.passes_newArray _ hk, ?_⟩
            rw [List.length_cons]
            change 1 + _ = _ at hsized
            dsimp only
            omega
        · refine ⟨1 + (readName ts₁).value.isSome.toNat, Factor.passes_newObject _, ?_⟩
          rw [List.length_cons]
          dsimp only
          omega
      · obtain ⟨k, hk, hgroup⟩ := spends_readExpr ts₁
        have hclosed := length_rest_accept .rightParen (readExpr ts₁).rest
        refine ⟨1 + (k + (accept .rightParen (readExpr ts₁).rest).value.toNat),
          Factor.passes_group hk, ?_⟩
        rw [List.length_cons]
        dsimp only
        omega
      · exact ⟨0, Factor.passes_missing, Nat.zero_add _⟩
termination_by 8 * ts.length + 2

theorem spends_readSelectors (x : Designator) (start ts : List Token) (h : ts <:+ start) :
    (readSelectors x start ts h).SpendsSince (fun n d => Passes n d.compile) x ts := by
  match ts, h with
  | [], h =>
      rw [readSelectors]
      exact fun n hn => ⟨n, hn, rfl⟩
  | t :: ts₁, h =>
      rw [readSelectors]
      dsimp only
      split
      · intro n hn
        have := (readName ts₁).length_rest_le
        have hname := length_rest_readName ts₁
        obtain ⟨m, hm, hmore⟩ := spends_readSelectors _ start _
          ((readName ts₁).suffix.trans ((List.suffix_cons t ts₁).trans h)) _
          (Designator.passes_field (readName ts₁).value hn)
        refine ⟨m, hm, hmore.trans ?_⟩
        rw [List.length_cons]
        omega
      · split
        · intro n hn
          have := (readExpr ts₁).length_rest_le
          have := (accept .rightBracket (readExpr ts₁).rest).length_rest_le
          obtain ⟨k, hk, hindex⟩ := spends_readExpr ts₁
          have hclosed := length_rest_accept .rightBracket (readExpr ts₁).rest
          obtain ⟨m, hm, hmore⟩ := spends_readSelectors _ start _
            ((accept .rightBracket (readExpr ts₁).rest).suffix.trans ((readExpr ts₁).suffix.trans
              ((List.suffix_cons t ts₁).trans h))) _ (Designator.passes_element hn hk)
          refine ⟨m, hm, hmore.trans ?_⟩
          rw [List.length_cons]
          omega
        · exact fun n hn => ⟨n, hn, rfl⟩
termination_by 8 * ts.length

theorem spends_readArguments (ts : List Token) : (readArguments ts).Spends
    fun n es => ∀ formals, Passes n (compileArguments true es formals) := by
  rw [readArguments]
  split
  · have := (readExpr ts).length_rest_le
    obtain ⟨n, hn, hfirst⟩ := spends_readExpr ts
    obtain ⟨k, hk, hothers⟩ := spends_readMoreArguments (readExpr ts).rest
    refine ⟨n + k, fun formals => ?_, ?_⟩
    · rw [compileArguments]
      exact (Passes.shiftUnless true).quietly fun _ => hn.bind fun _ => (Passes.load _).quietly
        fun x => (Passes.passArgument x formals).quietly fun _ => hk _
    · dsimp only
      omega
  · refine ⟨0, fun formals => ?_, Nat.zero_add _⟩
    rw [Parsed.nothing, compileArguments]
    exact .pure
termination_by 8 * ts.length + 6

theorem spends_readMoreArguments (ts : List Token) : (readMoreArguments ts).Spends
    fun n es => ∀ formals, Passes n (compileArguments false es formals) := by
  have hnone : ∀ formals, Passes 0 (compileArguments false [] formals) := by
    intro formals
    rw [compileArguments]
    exact .pure
  match ts with
  | [] =>
      rw [readMoreArguments]
      exact ⟨0, hnone, rfl⟩
  | t :: ts₁ =>
      rw [readMoreArguments]
      split
      · have := (readExpr ts₁).length_rest_le
        obtain ⟨n, hn, hnext⟩ := spends_readExpr ts₁
        obtain ⟨k, hk, hothers⟩ := spends_readMoreArguments (readExpr ts₁).rest
        refine ⟨1 + (n + k), fun formals => ?_, ?_⟩
        · rw [compileArguments]
          exact (Passes.shiftUnless false).bind fun _ => hn.bind fun _ => (Passes.load _).quietly
            fun x => (Passes.passArgument x formals).quietly fun _ => hk _
        · rw [List.length_cons]
          dsimp only
          omega
      · exact ⟨0, hnone, Nat.zero_add _⟩
termination_by 8 * ts.length + 5

end

/-! ### Conditions -/

namespace Parsed.Spends

variable {α β : Type} {ts : List Token} {p : Parsed α ts} {P : Nat → α → Prop} {Q : Nat → β → Prop}

theorem andThen {f : α → (us : List Token) → Parsed β us} (hp : p.Spends P)
    (hf : ∀ n us, P n p.value → (f p.value us).Spends fun m b => Q (n + m) b) :
    (p.andThen f).Spends Q := by
  obtain ⟨n, hn, hlength⟩ := hp
  obtain ⟨m, hm, hmore⟩ := hf n p.rest hn
  refine ⟨n + m, hm, ?_⟩
  rw [rest_andThen]
  omega

theorem map {f : α → β} (hp : p.Spends P) (hf : ∀ n, P n p.value → Q n (f p.value)) :
    (p.map f).Spends Q := by
  obtain ⟨n, hn, hlength⟩ := hp
  exact ⟨n, hf n hn, hlength⟩

theorem mono {Q : Nat → α → Prop} (hp : p.Spends P) (hf : ∀ n, P n p.value → Q n p.value) :
    p.Spends Q := by
  obtain ⟨n, hn, hlength⟩ := hp
  exact ⟨n, hf n hn, hlength⟩

end Parsed.Spends

theorem Parsed.spends_nothing {α : Type} {P : Nat → α → Prop} {a : α} (ts : List Token) (h : P 0 a) :
    (Parsed.nothing a ts).Spends P :=
  ⟨0, h, Nat.zero_add _⟩

theorem Parsed.spends_one {α : Type} {P : Nat → α → Prop} {a : α} (t : Token) (ts : List Token)
    (h : P 1 a) : (Parsed.one a t ts).Spends P :=
  ⟨1, h, Nat.add_comm _ _⟩

theorem spends_accept (kind : Kind) (ts : List Token) :
    (accept kind ts).Spends fun n found => Passes n (expect kind found) :=
  ⟨_, .expect kind _, length_rest_accept kind ts⟩

theorem spends_accept_eq (kind : Kind) (ts : List Token) :
    (accept kind ts).Spends fun n found => n = found.toNat :=
  ⟨_, rfl, length_rest_accept kind ts⟩

theorem spends_readName (ts : List Token) :
    (readName ts).Spends fun n name => Passes n (expectName name) :=
  ⟨_, .expectName _, length_rest_readName ts⟩

theorem spends_readNumber (substitute : Int) (ts : List Token) :
    (readNumber ts).Spends fun n k => Passes n (expectNumber substitute k) :=
  ⟨_, .expectNumber _ _, length_rest_readNumber ts⟩

theorem spends_readDesignator (ts : List Token) :
    (readDesignator ts).Spends fun n d => Passes n d.compile :=
  (spends_readName ts).andThen fun _ us hn =>
    (spends_readSelectors _ us us _).spends (passes_compileName hn)

theorem spends_readRelation (ts : List Token) :
    (readRelation ts).Spends fun n r => Passes n (compileRelation r) := by
  have hmissing : Passes 0 (compileRelation none) := (Passes.fault _).finish fun _ => .pure
  cases ts with
  | nil => exact Parsed.spends_nothing [] hmissing
  | cons t ts =>
      rw [readRelation]
      split
      · exact Parsed.spends_one t ts (Passes.shift.finish fun _ => .pure)
      · exact Parsed.spends_nothing _ hmissing

theorem spends_readComparison (ts : List Token) :
    (readComparison ts).Spends fun n c => Passes n c.compile :=
  (spends_readExpr ts).andThen fun _ us hleft =>
    (spends_readRelation us).andThen fun _ us hrelation =>
      (spends_readExpr us).map fun _ hright =>
        Nat.add_assoc .. ▸ hleft.bind fun _ => (Passes.load _).quietly fun _ => hrelation.bind fun _ =>
          hright.finish fun _ => (Passes.load _).finish fun _ => (Passes.inspect _).finish fun _ =>
          (Passes.faultIf _ _).finish fun _ => (Passes.faultIf _ _).finish fun _ => .pure

theorem spends_readMoreComparisons (cs : Conjunction) (start ts : List Token) (h : ts <:+ start) :
    (readMoreComparisons cs start ts h).SpendsSince
      (fun n cs => ∀ f, Passes n (cs.compile f)) cs ts := by
  match ts, h with
  | [], h =>
      rw [readMoreComparisons]
      exact fun n hn => ⟨n, hn, rfl⟩
  | t :: ts₁, h =>
      rw [readMoreComparisons]
      split
      · intro n hn
        obtain ⟨k, hk, hcomparison⟩ := spends_readComparison ts₁
        generalize readComparison ts₁ = next at *
        have := next.length_rest_le
        have hand : ∀ f, Passes (n + (1 + k)) ((Conjunction.and cs next.value).compile f) :=
          fun f => (hn f).bind fun _ => Passes.quietly (.jumpWith _ f) fun _ => Passes.shift.bind fun _ => hk
        obtain ⟨m, hm, hmore⟩ := spends_readMoreComparisons _ start _ _ _ hand
        refine ⟨m, hm, hmore.trans ?_⟩
        rw [List.length_cons]
        omega
      · exact fun n hn => ⟨n, hn, rfl⟩
termination_by ts.length

theorem spends_readConjunction (ts : List Token) :
    (readConjunction ts).Spends fun n cs => ∀ f, Passes n (cs.compile f) :=
  (spends_readComparison ts).andThen fun _ us hn =>
    (spends_readMoreComparisons _ us us _).spends fun _ => hn

theorem spends_readMoreConjunctions (cs : Condition) (start ts : List Token) (h : ts <:+ start) :
    (readMoreConjunctions cs start ts h).SpendsSince
      (fun n cs => ∀ t f, Passes n (cs.compileWith t f)) cs ts := by
  match ts, h with
  | [], h =>
      rw [readMoreConjunctions]
      exact fun n hn => ⟨n, hn, rfl⟩
  | t :: ts₁, h =>
      rw [readMoreConjunctions]
      split
      · intro n hn
        obtain ⟨k, hk, hconjunction⟩ := spends_readConjunction ts₁
        generalize readConjunction ts₁ = next at *
        have := next.length_rest_le
        have hor : ∀ t f, Passes (n + (1 + k)) ((Condition.or cs next.value).compileWith t f) :=
          fun t f => (hn t f).bind fun _ => Passes.quietly (.jumpWith _ t) fun _ => Passes.shift.bind fun _ =>
            (Passes.place _).quietly fun _ => Passes.newLabel.quietly fun l =>
            (hk l).finish fun _ => .pure
        obtain ⟨m, hm, hmore⟩ := spends_readMoreConjunctions _ start _ _ _ hor
        refine ⟨m, hm, hmore.trans ?_⟩
        rw [List.length_cons]
        omega
      · exact fun n hn => ⟨n, hn, rfl⟩
termination_by ts.length

theorem spends_readCondition (ts : List Token) :
    (readCondition ts).Spends fun n c => Passes n c.compile :=
  (spends_readConjunction ts).andThen fun _ us hn =>
    ((spends_readMoreConjunctions _ us us _).spends fun _ f => (hn f).finish fun _ => .pure).mono
      fun _ hm => Passes.newLabel.quietly fun t => Passes.newLabel.quietly fun f =>
        (hm t f).finish fun _ => .pure

end Tree

end MicroJava
