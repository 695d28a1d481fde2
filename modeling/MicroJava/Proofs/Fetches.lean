import Mathlib.Data.List.TakeWhile
import MicroJava.Compile
import MicroJava.Proofs.Completion
import MicroJava.Proofs.Passes

/-!
# Tokens are fetched up to the first `eof`

At first there is no token to look at, and each token that is passed brings the next one. Statements,
declarations and methods are compiled with as many tokens as were taken for them, tokens that were
passed over among them. So the last token that is fetched is the first `eof`, unless the program ends
there: then `eof` is passed as well, and nothing happens after that
(`TokenSource.compile_fetches`).
-/

namespace MicroJava

namespace Tree

open Compiler

/-! ### Statements -/

theorem passes_compileAssignment {n : Nat} {value : Expr} (hn : Passes n value.compile) (x : Operand)
    (op : AssignOp) : Passes n (compileAssignment x op value) := by
  unfold Tree.compileAssignment
  split
  · exact hn.finish fun _ => (Passes.inspect _).finish fun _ => (Passes.faultIf _ _).finish fun _ =>
      (Passes.assign _ _).finish fun _ => .pure
  · exact (Passes.prepareUpdate _).quietly fun _ => hn.finish fun _ =>
      (Passes.faultIf _ _).finish fun _ => (Passes.update _ _ _).finish fun _ => .pure

theorem spends_readAction (ts : List Token) :
    (readAction ts).Spends fun n a => ∀ x, Passes n (a.compile x) := by
  have hmissing : ∀ x, Passes 0 (Action.missing.compile x) := fun _ => .fault _
  cases ts with
  | nil => exact Parsed.spends_nothing [] hmissing
  | cons t ts =>
      rw [readAction]
      split
      · exact (Parsed.spends_one t ts (P := fun n _ => n = 1) rfl).andThen fun n us hn =>
          (spends_readExpr us).map fun m hm x => hn ▸ (Passes.faultIf _ _).quietly fun _ =>
            Passes.shift.bind fun _ => passes_compileAssignment hm x _
      · exact (Parsed.spends_one t ts (P := fun n _ => n = 1) rfl).andThen fun n us hn =>
          (spends_readArguments us).andThen fun m us hm =>
            (spends_accept .rightParen us).map fun k hk x => by
              subst hn
              exact (Passes.passArguments x hm hk).finish fun _ => (Passes.call x).finish fun _ => by
                split
                · exact .write _
                · exact .pure
      · exact Parsed.spends_one t ts fun x => .compileStep x 1
      · exact Parsed.spends_one t ts fun x => .compileStep x (-1)
      · exact Parsed.spends_nothing _ hmissing

theorem spends_readGuard (ts : List Token) : (readGuard ts).Spends
    fun n (opened, condition, closed) => Passes n (compileGuard opened condition closed) :=
  (spends_accept .leftParen ts).andThen fun _ us hopened =>
    (spends_readCondition us).andThen fun _ us hcondition =>
      (spends_accept .rightParen us).map fun _ hclosed =>
        Nat.add_assoc .. ▸ hopened.bind fun _ => hcondition.bind fun _ =>
          Passes.quietly (.jumpWith _ _) fun _ => (Passes.place _).quietly fun _ =>
          hclosed.finish fun _ => .pure

theorem spends_readWidth (ts : List Token) :
    (readWidth ts).Spends fun n width => Passes n (compileWidth width) := by
  refine (spends_accept_eq .comma ts).andThen fun n us hn => ?_
  subst hn
  cases (accept .comma ts).value with
  | false => exact Parsed.spends_nothing us .pure
  | true => exact (spends_readNumber 0 us).map fun k hk => Passes.shift.bind fun _ => hk

theorem compileStatements_concat (behindLoop : Option Label) (result : Ty) (ss : List Statement)
    (s : Statement) : compileStatements behindLoop result (ss ++ [s]) = (do
      compileStatements behindLoop result ss
      s.compile behindLoop result) := by
  induction ss with
  | nil =>
      rw [List.nil_append, compileStatements, compileStatements, pure_bind]
      exact bind_pure_unit
  | cons s' ss ih =>
      rw [List.cons_append, compileStatements, ih, compileStatements, bind_assoc]

namespace Statement

variable {d : Designator} {a : Action} {value : Expr} {width : Option (Option Int)}
  {condition : Condition} {body other : Statement} {ss : List Statement}
  {opened closed ended : Bool} {n m k : Nat} {l : Option Label} {r : Ty}

theorem passes_action (hd : Passes n d.compile) (ha : ∀ x, Passes m (a.compile x)) :
    Passes (n + (m + ended.toNat)) ((action d a ended).compile l r) := by
  rw [Statement.compile]
  exact (Passes.write _).quietly fun _ => hd.bind fun x => (ha x).bind fun _ => .expect _ _

theorem passes_ifThen (hguard : Passes n (compileGuard opened condition closed))
    (hbody : Passes m (body.compile l r)) :
    Passes (1 + (n + m)) ((ifThen opened condition closed body).compile l r) := by
  rw [Statement.compile]
  exact (Passes.write _).quietly fun _ => Passes.shift.bind fun _ => hguard.bind fun _ =>
    hbody.finish fun _ => .place _

theorem passes_ifThenElse (hguard : Passes n (compileGuard opened condition closed))
    (hbody : Passes m (body.compile l r)) (hother : Passes k (other.compile l r)) :
    Passes (1 + (n + (m + (1 + k))))
      ((ifThenElse opened condition closed body other).compile l r) := by
  rw [Statement.compile]
  exact (Passes.write _).quietly fun _ => Passes.shift.bind fun _ => hguard.bind fun _ =>
    hbody.bind fun _ => Passes.shift.bind fun _ => Passes.newLabel.quietly fun _ =>
    Passes.quietly (.jumpWith _ _) fun _ => (Passes.place _).quietly fun _ =>
    hother.finish fun _ => .place _

theorem passes_whileDo (hguard : Passes n (compileGuard opened condition closed))
    (hbody : ∀ l, Passes m (body.compile l r)) :
    Passes (1 + (n + m)) ((whileDo opened condition closed body).compile l r) := by
  rw [Statement.compile]
  exact (Passes.write _).quietly fun _ => Passes.shift.bind fun _ => Passes.newLabel.quietly
    fun _ => (Passes.place _).quietly fun _ => hguard.bind fun f => (hbody (some f)).finish fun _ =>
    Passes.quietly (.jumpWith _ _) fun _ => .place _

theorem passes_leave : Passes (1 + ended.toNat) ((leave ended).compile l r) := by
  rw [Statement.compile]
  exact (Passes.write _).quietly fun _ => Passes.shift.bind fun _ =>
    (Passes.compileBreak l).quietly fun _ => .expect _ _

theorem passes_giveNothing : Passes (1 + ended.toNat) ((give none ended).compile l r) := by
  rw [Statement.compile]
  exact (Passes.write _).quietly fun _ => Passes.shift.bind fun _ =>
    (Passes.faultIf _ _).quietly fun _ => (Passes.write _).quietly fun _ =>
    (Passes.write _).quietly fun _ => .expect _ _

theorem passes_give (hvalue : Passes n value.compile) :
    Passes (1 + (n + ended.toNat)) ((give (some value) ended).compile l r) := by
  rw [Statement.compile]
  exact (Passes.write _).quietly fun _ => Passes.shift.bind fun _ =>
    ((Passes.faultIf _ _).quietly fun _ => hvalue.finish fun _ => (Passes.inspect _).finish fun _ =>
      (Passes.faultIf _ _).finish fun _ => (Passes.load _).finish fun _ => .pure).bind fun _ =>
    (Passes.write _).quietly fun _ => (Passes.write _).quietly fun _ => .expect _ _

theorem passes_read (hd : Passes n d.compile) :
    Passes (1 + (opened.toNat + (n + (closed.toNat + ended.toNat))))
      ((read opened d closed ended).compile l r) := by
  rw [Statement.compile]
  exact (Passes.write _).quietly fun _ => Passes.shift.bind fun _ => (Passes.expect _ _).bind
    fun _ => hd.bind fun x => (Passes.faultIf _ _).quietly fun _ => (Passes.readValue _).quietly
    fun _ => (Passes.assign _ _).quietly fun _ => (Passes.expect _ _).bind fun _ => .expect _ _

theorem passes_print (hvalue : Passes n value.compile) (hwidth : Passes m (compileWidth width)) :
    Passes (1 + (opened.toNat + (n + (m + (closed.toNat + ended.toNat)))))
      ((print opened value width closed ended).compile l r) := by
  rw [Statement.compile]
  exact (Passes.write _).quietly fun _ => Passes.shift.bind fun _ => (Passes.expect _ _).bind
    fun _ => hvalue.bind fun x => (Passes.faultIf _ _).quietly fun _ => (Passes.load _).quietly
    fun _ => hwidth.bind fun _ => (Passes.emitAll _).quietly fun _ => (Passes.expect _ _).bind
    fun _ => .expect _ _

theorem passes_block (hss : Passes n (compileStatements l r ss)) :
    Passes (1 + (n + closed.toNat)) ((block ss closed).compile l r) := by
  rw [Statement.compile]
  exact (Passes.write _).quietly fun _ => Passes.shift.bind fun _ => hss.bind fun _ => .expect _ _

theorem passes_empty : Passes 1 (empty.compile l r) := by
  rw [Statement.compile]
  exact (Passes.write _).quietly fun _ => Passes.shift

end Statement

mutual

theorem spends_readStatement (ts : List Token) : (readStatement ts).Spends
    fun n s => ∀ behindLoop result, Passes n (s.compile behindLoop result) := by
  have hmissing : ∀ behindLoop result, Passes 0 (Statement.missing.compile behindLoop result) := by
    intro behindLoop result
    rw [Statement.compile]
    exact (Passes.write _).finish fun _ => .fault _
  match ts with
  | [] =>
      rw [readStatement]
      exact Parsed.spends_nothing [] hmissing
  | t :: ts₁ =>
      rw [readStatement]
      split
      · exact Parsed.spends_nothing _ hmissing
      · next head _ =>
          obtain ⟨n, hn, hlength⟩ := spends_readAfter head ts₁
          refine ⟨1 + n, hn, ?_⟩
          rw [Parsed.rest_widen, List.length_cons]
          omega
termination_by 2 * ts.length

/-- The token that the statement begins with was taken before. -/
theorem spends_readAfter (head : StatementHead) (ts : List Token) : (readAfter head ts).Spends
    fun n s => ∀ behindLoop result, Passes (1 + n) (s.compile behindLoop result) := by
  match head with
  | .name n =>
      rw [readAfter]
      dsimp only
      obtain ⟨n, hn, hdesignator⟩ := (spends_readSelectors _ ts ts List.suffix_rfl).spends
        (passes_compileName (.expectName (some n)))
      generalize readSelectors _ ts ts List.suffix_rfl = d at *
      obtain ⟨m, hm, haction⟩ := spends_readAction d.rest
      generalize readAction d.rest = action at *
      have hended := length_rest_accept .semicolon action.rest
      refine ⟨n + (m + (accept .semicolon action.rest).value.toNat), fun l r => ?_, ?_⟩
      · rw [← Nat.add_assoc]
        exact Statement.passes_action hn hm
      · dsimp only
        omega
  | .ifWord =>
      rw [readAfter]
      dsimp only
      obtain ⟨n, hn, hguard⟩ := spends_readGuard ts
      generalize readGuard ts = guard at *
      have := guard.length_rest_le
      obtain ⟨m, hm, hbody⟩ := spends_readStatement guard.rest
      generalize readStatement guard.rest = body at *
      have := body.length_rest_le
      have helse := length_rest_accept .kwElse body.rest
      have := (accept .kwElse body.rest).length_rest_le
      split
      · next hother =>
          rw [hother] at helse
          obtain ⟨k, hk, hother⟩ := spends_readStatement (accept .kwElse body.rest).rest
          generalize readStatement (accept .kwElse body.rest).rest = other at *
          refine ⟨n + (m + (1 + k)), fun l r => Statement.passes_ifThenElse hn (hm l r) (hk l r), ?_⟩
          change 1 + _ = _ at helse
          dsimp only
          omega
      · refine ⟨n + m, fun l r => Statement.passes_ifThen hn (hm l r), ?_⟩
        dsimp only
        omega
  | .whileWord =>
      rw [readAfter]
      dsimp only
      obtain ⟨n, hn, hguard⟩ := spends_readGuard ts
      generalize readGuard ts = guard at *
      have := guard.length_rest_le
      obtain ⟨m, hm, hbody⟩ := spends_readStatement guard.rest
      refine ⟨n + m, fun l r => Statement.passes_whileDo hn fun l => hm l r, ?_⟩
      dsimp only
      omega
  | .breakWord =>
      rw [readAfter]
      exact (spends_accept_eq .semicolon ts).map fun n hn l r => hn ▸ Statement.passes_leave
  | .returnWord =>
      rw [readAfter]
      split
      · obtain ⟨n, hn, hvalue⟩ := spends_readExpr ts
        have hended := length_rest_accept .semicolon (readExpr ts).rest
        refine ⟨n + (accept .semicolon (readExpr ts).rest).value.toNat,
          fun l r => Statement.passes_give hn, ?_⟩
        dsimp only
        omega
      · exact (spends_accept_eq .semicolon ts).map fun n hn l r => hn ▸ Statement.passes_giveNothing
  | .readWord =>
      rw [readAfter]
      dsimp only
      have hopened := length_rest_accept .leftParen ts
      generalize accept .leftParen ts = opened at *
      obtain ⟨n, hn, hdesignator⟩ := spends_readDesignator opened.rest
      generalize readDesignator opened.rest = d at *
      have hclosed := length_rest_accept .rightParen d.rest
      generalize accept .rightParen d.rest = closed at *
      have hended := length_rest_accept .semicolon closed.rest
      generalize accept .semicolon closed.rest = ended at *
      refine ⟨opened.value.toNat + (n + (closed.value.toNat + ended.value.toNat)),
        fun l r => Statement.passes_read hn, ?_⟩
      dsimp only
      omega
  | .printWord =>
      rw [readAfter]
      dsimp only
      have hopened := length_rest_accept .leftParen ts
      generalize accept .leftParen ts = opened at *
      obtain ⟨n, hn, hvalue⟩ := spends_readExpr opened.rest
      generalize readExpr opened.rest = e at *
      obtain ⟨m, hm, hwidth⟩ := spends_readWidth e.rest
      generalize readWidth e.rest = width at *
      have hclosed := length_rest_accept .rightParen width.rest
      generalize accept .rightParen width.rest = closed at *
      have hended := length_rest_accept .semicolon closed.rest
      generalize accept .semicolon closed.rest = ended at *
      refine ⟨opened.value.toNat + (n + (m + (closed.value.toNat + ended.value.toNat))),
        fun l r => Statement.passes_print hn hm, ?_⟩
      dsimp only
      omega
  | .brace =>
      rw [readAfter]
      dsimp only
      obtain ⟨n, hn, hstatements⟩ := spends_readStatements [] ts ts List.suffix_rfl 0 fun l r => by
        rw [List.reverse_nil, compileStatements]
        exact .pure
      generalize readStatements [] ts ts List.suffix_rfl = statements at *
      have hclosed := length_rest_accept .rightBrace statements.rest
      refine ⟨n + (accept .rightBrace statements.rest).value.toNat,
        fun l r => Statement.passes_block (hn l r), ?_⟩
      dsimp only
      omega
  | .semicolon =>
      rw [readAfter]
      exact Parsed.spends_nothing ts fun l r => Statement.passes_empty
termination_by 2 * ts.length + 1

theorem spends_readStatements (before : List Statement) (start ts : List Token) (h : ts <:+ start) :
    (readStatements before start ts h).SpendsSince
      (fun n ss => ∀ behindLoop result, Passes n (compileStatements behindLoop result ss))
      before.reverse ts := by
  match ts, h with
  | [], h =>
      rw [readStatements]
      exact fun n hn => ⟨n, hn, rfl⟩
  | t :: ts₁, h =>
      rw [readStatements]
      split
      · next head _ =>
          intro n hn
          obtain ⟨k, hk, hstatement⟩ := spends_readAfter head ts₁
          generalize readAfter head ts₁ = s at *
          have := s.length_rest_le
          have hconcat : ∀ l r, Passes (n + (1 + k))
              (compileStatements l r (s.value :: before).reverse) := by
            intro l r
            rw [List.reverse_cons, compileStatements_concat]
            exact (hn l r).bind fun _ => hk l r
          obtain ⟨m, hm, hmore⟩ := spends_readStatements _ start _ _ _ hconcat
          refine ⟨m, hm, hmore.trans ?_⟩
          rw [List.length_cons]
          omega
      · split
        · exact fun n hn => ⟨n, hn, rfl⟩
        · intro n hn
          have hskipped := length_rest_skipTo resumesStatement ts₁
          generalize skipTo resumesStatement ts₁ = skipped at *
          have := skipped.length_rest_le
          have hconcat : ∀ l r, Passes (n + (skipped.value + 1))
              (compileStatements l r (.skipped skipped.value :: before).reverse) := by
            intro l r
            rw [List.reverse_cons, compileStatements_concat, Statement.compile]
            exact (hn l r).bind fun _ => (Passes.write _).quietly fun _ => .skip _ _
          obtain ⟨m, hm, hmore⟩ := spends_readStatements _ start _ _ _ hconcat
          refine ⟨m, hm, hmore.trans ?_⟩
          rw [List.length_cons]
          omega
termination_by 2 * ts.length

end

/-! ### Declarations -/

theorem spends_readArrayMark (ts : List Token) : (readArrayMark ts).Spends fun n array =>
    ∀ k name, Passes k (expectName name) → Passes (k + n) (TypeName.compile { name, array }) := by
  refine (spends_accept_eq .leftBracket ts).andThen fun n us hn => ?_
  subst hn
  cases (accept .leftBracket ts).value with
  | false =>
      exact Parsed.spends_nothing us fun k name hname => hname.finish fun _ =>
        (Passes.findType _).finish fun _ => .pure
  | true =>
      exact (spends_accept .rightBracket us).map fun m hm k name hname => hname.bind fun _ =>
        (Passes.findType _).quietly fun _ => Passes.shift.bind fun _ => hm.finish fun _ => .newArray _

theorem spends_readTypeName (ts : List Token) :
    (readTypeName ts).Spends fun n t => Passes n t.compile :=
  (spends_readName ts).andThen fun k us hk =>
    (spends_readArrayMark us).map fun _ hn => hn k _ hk

theorem passes_declareVariable {n : Nat} {name : Option String} (hn : Passes n (expectName name))
    (type : Ty) : Passes n (declareVariable type name) :=
  hn.finish fun _ => (Passes.declare _ _ _).finish fun _ => .pure

theorem spends_readMoreNames (before : List (Option String)) (start ts : List Token)
    (h : ts <:+ start) : (readMoreNames before start ts h).SpendsSince
      (fun n names => ∀ type, Passes n (names.forM fun name => do
        shift
        declareVariable type name)) before.reverse ts := by
  match ts, h with
  | [], h =>
      rw [readMoreNames]
      exact fun n hn => ⟨n, hn, rfl⟩
  | t :: ts₁, h =>
      rw [readMoreNames]
      split
      · intro n hn
        obtain ⟨k, hk, hname⟩ := spends_readName ts₁
        generalize readName ts₁ = name at *
        have := name.length_rest_le
        have hconcat : ∀ type, Passes (n + (1 + k)) ((name.value :: before).reverse.forM fun name => do
            shift
            declareVariable type name) := by
          intro type
          rw [List.reverse_cons]
          exact .forM_concat (hn type) (Passes.shift.bind fun _ => passes_declareVariable hk type)
        obtain ⟨m, hm, hmore⟩ := spends_readMoreNames _ start _ _ _ hconcat
        refine ⟨m, hm, hmore.trans ?_⟩
        rw [List.length_cons]
        omega
      · exact fun n hn => ⟨n, hn, rfl⟩
termination_by ts.length

theorem spends_readVariables (type : TypeName) {k : Nat} (hk : Passes k type.compile)
    (ts : List Token) : (readVariables type ts).Spends fun n d => Passes (k + n) d.compile :=
  (spends_readName ts).andThen fun _ us hname =>
    ((spends_readMoreNames [] us us List.suffix_rfl).spends fun _ => .forM_nil).andThen
      fun _ us hothers => (spends_accept .semicolon us).map fun _ hended => by
        rw [Nat.zero_add] at hothers
        exact .of_eq (hk.bind fun type => (passes_declareVariable hname type).bind fun _ =>
          (hothers type).bind fun _ => hended) (by omega)

/-- The name that the type begins with was taken before. -/
theorem spends_readVariablesAfter (name : String) (ts : List Token) :
    (readVariablesAfter name ts).Spends fun n d => Passes (1 + n) d.compile :=
  (spends_readArrayMark ts).andThen fun _ us hn =>
    (spends_readVariables _ (hn 1 (some name) (.expectName _)) us).mono fun _ hm =>
      .of_eq hm (Nat.add_assoc ..)

theorem spends_readVariableDecls (before : List VariableDecl) (start ts : List Token)
    (h : ts <:+ start) : (readVariableDecls before start ts h).SpendsSince
      (fun n ds => Passes n (ds.forM VariableDecl.compile)) before.reverse ts := by
  match ts, h with
  | [], h =>
      rw [readVariableDecls]
      exact fun n hn => ⟨n, hn, rfl⟩
  | t :: ts₁, h =>
      rw [readVariableDecls]
      split
      · intro n hn
        obtain ⟨k, hk, hdecl⟩ := spends_readVariablesAfter t.name ts₁
        generalize readVariablesAfter t.name ts₁ = d at *
        have := d.length_rest_le
        have hconcat : Passes (n + (1 + k))
            ((d.value :: before).reverse.forM VariableDecl.compile) := by
          rw [List.reverse_cons]
          exact .forM_concat hn hk
        obtain ⟨m, hm, hmore⟩ := spends_readVariableDecls _ start _ _ _ hconcat
        refine ⟨m, hm, hmore.trans ?_⟩
        rw [List.length_cons]
        omega
      · exact fun n hn => ⟨n, hn, rfl⟩
termination_by ts.length

theorem spends_readConstantValue (ts : List Token) : (readConstantValue ts).Spends
    fun n v => ∀ type id, Passes n (v.compile type id) := by
  have hmissing : ∀ type id, Passes 0 (ConstantValue.missing.compile type id) := fun _ _ => .fault _
  have htake : ∀ type id shape value, Passes 1 (ConstantValue.compile.take type id shape value) :=
    fun type id shape value => (Passes.inspect _).quietly fun _ => (Passes.faultIf _ _).quietly
      fun _ => Passes.shift.finish fun _ => .modifySymbol _ _
  cases ts with
  | nil => exact Parsed.spends_nothing [] hmissing
  | cons t ts =>
      rw [readConstantValue]
      split
      · exact Parsed.spends_one t ts fun type id => htake type id .int t.value
      · exact Parsed.spends_one t ts fun type id => htake type id .char t.value
      · exact Parsed.spends_nothing _ hmissing

/-- The word that the declaration begins with was taken before. -/
theorem spends_readConstant (ts : List Token) :
    (readConstant ts).Spends fun n d => Passes (1 + n) d.compile :=
  (spends_readTypeName ts).andThen fun _ us htype =>
    (spends_readName us).andThen fun _ us hname =>
      (spends_accept .assign us).andThen fun _ us hassigned =>
        (spends_readConstantValue us).andThen fun _ us hvalue =>
          (spends_accept .semicolon us).map fun _ hended =>
            .of_eq (Passes.shift.bind fun _ => htype.bind fun type => hname.bind fun _ =>
              (Passes.declare _ _ _).quietly fun id => hassigned.bind fun _ =>
              (hvalue type id).bind fun _ => hended) (by omega)

/-- The word that the declaration begins with was taken before. -/
theorem spends_readClass (ts : List Token) :
    (readClass ts).Spends fun n d => Passes (1 + n) d.compile :=
  (spends_readName ts).andThen fun _ us hname =>
    (spends_accept .leftBrace us).andThen fun _ us hopened =>
      ((spends_readVariableDecls [] us us List.suffix_rfl).spends .forM_nil).andThen
        fun _ us hfields => (spends_accept .rightBrace us).map fun _ hclosed => by
          rw [Nat.zero_add] at hfields
          exact .of_eq (Passes.shift.bind fun _ => hname.bind fun _ => Passes.newObject.quietly
            fun _ => (Passes.declare _ _ _).quietly fun _ => hopened.bind fun _ =>
            ((Passes.modifyTable _).quietly fun _ => hfields.finish fun _ =>
              Passes.variableCount.finish fun _ => (Passes.faultIf _ _).finish fun _ =>
              Passes.currentLocals.finish fun _ => Passes.closeScope.finish fun _ => .pure).bind
            fun _ => (Passes.setFields _ _).quietly fun _ => hclosed) (by omega)

theorem spends_readDeclarations (before : List Declaration) (start ts : List Token)
    (h : ts <:+ start) : (readDeclarations before start ts h).SpendsSince
      (fun n ds => Passes n (ds.forM Declaration.compile)) before.reverse ts := by
  match ts, h with
  | [], h =>
      rw [readDeclarations]
      exact fun n hn => ⟨n, hn, rfl⟩
  | t :: ts₁, h =>
      have hmore : ∀ {d : Declaration} {k n : Nat} {us : List Token} (hus : us <:+ start),
          us.length ≤ ts₁.length → Passes k d.compile → k + us.length = ts₁.length + 1 →
          Passes n (before.reverse.forM Declaration.compile) →
          ∃ m, Passes m ((readDeclarations (d :: before) start us hus).value.forM Declaration.compile) ∧
            m + (readDeclarations (d :: before) start us hus).rest.length
              = n + (t :: ts₁).length := by
        intro d k n us hus hlength hd hk hn
        have hconcat : Passes (n + k) ((d :: before).reverse.forM Declaration.compile) := by
          rw [List.reverse_cons]
          exact .forM_concat hn hd
        obtain ⟨m, hm, hmore⟩ := spends_readDeclarations _ start us hus _ hconcat
        refine ⟨m, hm, hmore.trans ?_⟩
        rw [List.length_cons]
        omega
      rw [readDeclarations]
      dsimp only
      split
      · intro n hn
        obtain ⟨k, hk, hlength⟩ := spends_readConstant ts₁
        exact hmore _ (readConstant ts₁).length_rest_le hk (by omega) hn
      · intro n hn
        obtain ⟨k, hk, hlength⟩ := spends_readVariablesAfter t.name ts₁
        exact hmore _ (readVariablesAfter t.name ts₁).length_rest_le hk (by omega) hn
      · intro n hn
        obtain ⟨k, hk, hlength⟩ := spends_readClass ts₁
        exact hmore _ (readClass ts₁).length_rest_le hk (by omega) hn
      · exact fun n hn => ⟨n, hn, rfl⟩
      · intro n hn
        have hlength := length_rest_skipTo resumesDeclaration ts₁
        exact hmore _ (skipTo resumesDeclaration ts₁).length_rest_le
          (Passes.skip .invalidDeclaration (skipTo resumesDeclaration ts₁).value) (by omega) hn
termination_by ts.length

/-! ### Methods -/

/-- The comma before the parameter was taken before, unless it is the first one. -/
theorem spends_readParameter (ts : List Token) : (readParameter ts).Spends fun n p =>
    ∀ first, Passes ((if first then 0 else 1) + n) (compileParameters first [p]) :=
  (spends_readTypeName ts).andThen fun _ us htype =>
    (spends_readName us).map fun _ hname first =>
      (Passes.shiftUnless first).bind fun _ => htype.bind fun type =>
        (passes_declareVariable hname type).finish fun _ => .pure

theorem compileParameters_concat (first : Bool) (ps : List Parameter) (p : Parameter) :
    compileParameters first (ps ++ [p]) = (do
      compileParameters first ps
      compileParameters (first && ps.isEmpty) [p]) := by
  induction ps generalizing first with
  | nil =>
      rw [List.nil_append, List.isEmpty_nil, Bool.and_true, compileParameters.eq_1, pure_bind]
  | cons p' ps ih =>
      rw [List.cons_append, compileParameters, ih, Bool.false_and, List.isEmpty_cons, Bool.and_false,
        compileParameters.eq_2 _ p' ps]
      simp only [bind_assoc]

theorem spends_readMoreParameters (before : List Parameter) (start ts : List Token)
    (h : ts <:+ start) : (readMoreParameters before start ts h).SpendsSince
      (fun n ps => ps ≠ [] ∧ Passes n (compileParameters true ps)) before.reverse ts := by
  match ts, h with
  | [], h =>
      rw [readMoreParameters]
      exact fun n hn => ⟨n, hn, rfl⟩
  | t :: ts₁, h =>
      rw [readMoreParameters]
      split
      · rintro n ⟨hne, hn⟩
        obtain ⟨k, hk, hlength⟩ := spends_readParameter ts₁
        generalize readParameter ts₁ = p at *
        have := p.length_rest_le
        have hconcat : (p.value :: before).reverse ≠ [] ∧
            Passes (n + (1 + k)) (compileParameters true (p.value :: before).reverse) := by
          rw [List.reverse_cons, compileParameters_concat, List.isEmpty_eq_false_iff.2 hne]
          exact ⟨List.concat_ne_nil _ _, hn.bind fun _ => hk false⟩
        obtain ⟨m, hm, hmore⟩ := spends_readMoreParameters _ start _ _ _ hconcat
        refine ⟨m, hm, hmore.trans ?_⟩
        rw [List.length_cons]
        omega
      · exact fun n hn => ⟨n, hn, rfl⟩
termination_by ts.length

theorem spends_readParameters (ts : List Token) :
    (readParameters ts).Spends fun n ps => Passes n (compileParameters true ps) := by
  rw [readParameters]
  split
  · refine (spends_readParameter ts).andThen fun n us hfirst => ?_
    have hone : [(readParameter ts).value] ≠ [] ∧
        Passes n (compileParameters true [(readParameter ts).value]) :=
      ⟨List.cons_ne_nil _ _, .of_eq (hfirst true) (Nat.zero_add n)⟩
    exact ((spends_readMoreParameters [_] us us List.suffix_rfl).spends hone).mono fun _ h => h.2
  · exact Parsed.spends_nothing ts .pure

/-- A method passes what its signature, its local variables and its statements pass. -/
theorem passes_compileMethod {d : MethodDecl} {k a b c e v o m w : Nat}
    (hresult : Passes k (compileResult d.type)) (hname : Passes a (expectName d.name))
    (hopened : Passes b (expect .leftParen d.opened))
    (hparameters : Passes c (compileParameters true d.parameters))
    (hclosed : Passes e (expect .rightParen d.closed))
    (hlocals : Passes v (d.locals.forM VariableDecl.compile))
    (hbodyOpened : Passes o (expect .leftBrace d.bodyOpened))
    (hbody : ∀ behindLoop result, Passes m (compileStatements behindLoop result d.body))
    (hbodyClosed : Passes w (expect .rightBrace d.bodyClosed)) :
    Passes (k + a + b + c + e + v + o + m + w) d.compile := by
  have hdeclare : Passes (k + a) d.declare :=
    hresult.bind fun _ => hname.finish fun _ => (Passes.declare _ _ _).finish fun _ =>
      Passes.get_bind fun _ => (Passes.modifySymbol _ _).finish fun _ => .pure
  have hsignature : Passes (k + a + (b + (c + e))) d.compileSignature :=
    hdeclare.bind fun m => hopened.bind fun _ => (Passes.modifyTable _).quietly fun _ =>
      hparameters.bind fun _ => Passes.variableCount.quietly fun _ =>
      (Passes.modifySymbol _ _).quietly fun _ => hclosed.finish fun _ =>
      (Passes.noteMain _ _ _ _).finish fun _ => .pure
  have hhead : Passes (k + a + (b + (c + e)) + (v + o)) d.compileHead :=
    hsignature.bind fun m => hlocals.bind fun _ => Passes.variableCount.quietly fun _ =>
      (Passes.faultIf _ _).quietly fun _ => (Passes.write _).quietly fun _ =>
      Passes.currentLocals.quietly fun _ => (Passes.modifySymbol _ _).quietly fun _ =>
      (Passes.of_log fun _ => rfl).quietly fun _ => hbodyOpened.finish fun _ => .pure
  have htail : ∀ result, Passes w (d.compileTail result) := fun result =>
    hbodyClosed.finish fun _ => Passes.closeScope.finish fun _ => Passes.takeFarCount.finish fun _ =>
      (Passes.faultIf _ _).finish fun _ => .emitAll _
  exact .of_eq (hhead.bind fun m => (hbody none m.result).bind fun _ => htail m.result) (by omega)

/-- The type of the method was taken before. -/
theorem spends_readMethod (type : Option TypeName) {k : Nat} (hk : Passes k (compileResult type))
    (ts : List Token) : (readMethod type ts).Spends fun n d => Passes (k + n) d.compile :=
  (spends_readName ts).andThen fun _ us hname =>
    (spends_accept .leftParen us).andThen fun _ us hopened =>
      (spends_readParameters us).andThen fun _ us hparameters =>
        (spends_accept .rightParen us).andThen fun _ us hclosed =>
          ((spends_readVariableDecls [] us us List.suffix_rfl).spends .forM_nil).andThen
            fun _ us hlocals => (spends_accept .leftBrace us).andThen fun _ us hbodyOpened =>
              ((spends_readStatements [] us us List.suffix_rfl).spends fun _ _ => .pure).andThen
                fun _ us hbody => (spends_accept .rightBrace us).map fun _ hbodyClosed =>
                  .of_eq (passes_compileMethod hk hname hopened hparameters hclosed hlocals hbodyOpened
                    hbody hbodyClosed) (by omega)

theorem spends_readMembers (before : List Member) (start ts : List Token)
    (h : ts <:+ start) : (readMembers before start ts h).SpendsSince
      (fun n ms => Passes n (ms.forM Member.compile)) before.reverse ts := by
  match ts, h with
  | [], h =>
      rw [readMembers]
      exact fun n hn => ⟨n, hn, rfl⟩
  | t :: ts₁, h =>
      have hmore : ∀ {d : Member} {k n : Nat} {us : List Token} (hus : us <:+ start),
          us.length ≤ ts₁.length → Passes k d.compile → k + us.length = ts₁.length + 1 →
          Passes n (before.reverse.forM Member.compile) →
          ∃ m, Passes m ((readMembers (d :: before) start us hus).value.forM Member.compile) ∧
            m + (readMembers (d :: before) start us hus).rest.length
              = n + (t :: ts₁).length := by
        intro d k n us hus hlength hd hk hn
        have hconcat : Passes (n + k) ((d :: before).reverse.forM Member.compile) := by
          rw [List.reverse_cons]
          exact .forM_concat hn hd
        obtain ⟨m, hm, hmore⟩ := spends_readMembers _ start us hus _ hconcat
        refine ⟨m, hm, hmore.trans ?_⟩
        rw [List.length_cons]
        omega
      rw [readMembers]
      dsimp only
      split
      · intro n hn
        have hvoid : Passes 1 (compileResult none) := Passes.shift.finish fun _ => .pure
        obtain ⟨k, hk, hlength⟩ := spends_readMethod none hvoid ts₁
        exact hmore _ (readMethod none ts₁).length_rest_le hk (by omega) hn
      · intro n hn
        obtain ⟨a, ha, hmark⟩ := spends_readArrayMark ts₁
        have hmark_le := (readArrayMark ts₁).length_rest_le
        generalize readArrayMark ts₁ = mark at *
        have hresult : Passes (1 + a) (compileResult (some { name := t.name, array := mark.value })) :=
          (ha 1 (some t.name) (.expectName _)).finish fun _ => (Passes.inspect _).finish fun _ =>
            (Passes.faultIf _ _).finish fun _ => .pure
        obtain ⟨k, hk, hlength⟩ := spends_readMethod _ hresult mark.rest
        have hle := (readMethod (some { name := t.name, array := mark.value }) mark.rest).length_rest_le
        exact hmore _ (hle.trans hmark_le) hk (by omega) hn
      · exact fun n hn => ⟨n, hn, rfl⟩
      · intro n hn
        have hlength := length_rest_skipTo resumesMember ts₁
        exact hmore _ (skipTo resumesMember ts₁).length_rest_le
          (Passes.skip .invalidMethod (skipTo resumesMember ts₁).value) (by omega) hn
termination_by ts.length

/-! ### Programs -/

/-- The first token was fetched, what was taken is passed, and `eof` if nothing is left. -/
theorem spends_readProgram (ts : List Token) : (readProgram ts).Spends fun n p =>
    Passes (1 + n + p.complete.toNat) p.compile :=
  (spends_accept .kwProgram ts).andThen fun _ us hannounced =>
    (spends_readName us).andThen fun _ us hname =>
      ((spends_readDeclarations [] us us List.suffix_rfl).spends .forM_nil).andThen
        fun _ us hdeclarations => (spends_accept .leftBrace us).andThen fun _ us hopened =>
          ((spends_readMembers [] us us List.suffix_rfl).spends .forM_nil).andThen
            fun _ us hmembers => (spends_accept .rightBrace us).andThen fun _ us hclosed =>
              Parsed.spends_nothing us (.of_eq
                ((Passes.shift.bind fun _ => hannounced.bind fun _ => hname.bind fun _ =>
                    (Passes.declare _ _ _).quietly fun _ => (Passes.of_log fun _ => rfl).quietly fun _ =>
                    (Passes.modifyTable _).quietly fun _ => hdeclarations.bind fun _ =>
                    Passes.noteGlobals.quietly fun _ => hopened.finish fun _ => .pure).bind fun _ =>
                  hmembers.bind fun _ => hclosed.bind fun _ => Passes.currentLocals.quietly fun _ =>
                  (Passes.modifySymbol _ _).quietly fun _ => Passes.closeScope.quietly fun _ =>
                  Passes.get_bind fun _ => (Passes.faultIf _ _).quietly fun _ => .expect .eof _)
                (by omega))

/-- A program that nothing follows passes `eof` in the end. -/
theorem log_compile_of_complete {p : Program} (h : p.complete = true) (s : Compiler) :
    ∃ log : Array Event, (p.compile s).2.log = log.push .shift := by
  have hends : ∀ s, ∃ log : Array Event, (expect .eof p.complete s).2.log = log.push .shift := by
    intro s
    rw [h]
    exact ⟨s.log, rfl⟩
  exact hends _

end Tree

namespace TokenSource

open Compiler MicroJava.Tree

/-- The kind of the token that is looked at after the entries of a log. Before the first token was
fetched, it is a token that begins nothing. -/
def lookahead (source : TokenSource) (log : List Event) : Kind :=
  match log.count .shift with
  | 0 => .invalid
  | n + 1 => (source.readings[n]?.map (·.token.kind)).getD .eof

theorem length_tokens_lt_of_lookahead {source : TokenSource} {log : List Event}
    (h : source.lookahead log = .eof) : source.tokens.length < log.count .shift := by
  rw [lookahead] at h
  split at h
  · cases h
  · next n hcount =>
      rw [hcount, Nat.lt_succ_iff]
      by_contra hlt
      have hn : n < source.tokens.length := Nat.lt_of_not_le hlt
      have hkind := List.mem_takeWhile_imp (List.getElem_mem hn)
      have htoken : (source.readings.map Reading.token)[n]? = some source.tokens[n] :=
        List.prefix_iff_getElem?.1 (List.takeWhile_prefix _) n hn
      rw [List.getElem?_map] at htoken
      obtain ⟨r, hr, hrtoken⟩ := Option.map_eq_some_iff.1 htoken
      rw [hr, Option.map_some, Option.getD_some, hrtoken] at h
      simp [h] at hkind

theorem complete_read (ts : List Token) :
    (Program.read ts).complete = (readProgram ts).rest.isEmpty := rfl

theorem complete_read_of_length {ts : List Token} (h : (readProgram ts).rest.length = 0) :
    (Program.read ts).complete = true := by
  rw [complete_read, List.length_eq_zero_iff.1 h]
  rfl

/-- How often a token is fetched: at first, once for each token that was taken, and once more if no
token is left. -/
theorem count_shift_log (source : TokenSource) :
    source.compiler.log.toList.count .shift + (readProgram source.tokens).rest.length
      = source.tokens.length + 1 + (Program.read source.tokens).complete.toNat := by
  obtain ⟨n, hn, hlength⟩ := spends_readProgram source.tokens
  have hcount : source.compiler.log.toList.count .shift
      = 1 + n + (Program.read source.tokens).complete.toNat := (hn .initial).trans (Nat.zero_add _)
  omega

/-- Whatever the tokens are and however far apart diagnostics must be, compiling ends. It fetches at
most two tokens more than there are before the first `eof`, and fetches nothing while `eof` is looked
at, but for the last thing that it does: to pass the `eof` that a program must end with. -/
theorem compile_fetches (source : TokenSource) (minDistance : Nat) :
    ∃ c, source.compile minDistance = .ok c ∧
      c.diagnostics = source.diagnostics minDistance source.compiler.log ∧
      source.compiler.log.toList.count .shift ≤ source.tokens.length + 2 ∧
      ∀ before after, source.compiler.log.toList = before ++ .shift :: after →
        source.lookahead before = .eof →
        after = [] ∧ (Program.read source.tokens).complete = true := by
  have hcount := source.count_shift_log
  refine ⟨_, source.compile_eq_ok minDistance, rfl, ?_, fun before after hlog heof => ?_⟩
  · have := Bool.toNat_le (Program.read source.tokens).complete
    omega
  · have hbefore := length_tokens_lt_of_lookahead heof
    rw [hlog, List.count_append, List.count_cons_self] at hcount
    have hle := Bool.toNat_le (Program.read source.tokens).complete
    have hcomplete : (Program.read source.tokens).complete = true := by
      by_contra hnot
      have hzero : (Program.read source.tokens).complete.toNat = 0 := by
        rw [eq_false_of_ne_true hnot, Bool.toNat_false]
      exact hnot (complete_read_of_length (by omega))
    obtain ⟨log, hlast⟩ := log_compile_of_complete hcomplete .initial
    refine ⟨?_, hcomplete⟩
    -- The last entry passes a token, and no entry behind this one does.
    have hnone : .shift ∉ after := List.count_eq_zero.1 (by omega)
    rcases List.eq_nil_or_concat after with rfl | ⟨front, e, rfl⟩
    · rfl
    · rw [List.concat_eq_append] at *
      have hsame : before ++ .shift :: (front ++ [e]) = log.toList ++ [.shift] :=
        hlog.symm.trans ((congrArg Array.toList hlast).trans (Array.toList_push ..))
      rw [← List.cons_append, ← List.append_assoc] at hsame
      have he : [e] = [.shift] := (List.append_inj' hsame rfl).2
      rw [he] at hnone
      exact absurd (List.mem_append_right front List.mem_cons_self) hnone

end TokenSource

end MicroJava
