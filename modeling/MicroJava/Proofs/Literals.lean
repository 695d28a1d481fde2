import MicroJava.Tree.ReadProgram

/-!
# The literals of a tree are those of its tokens

`Expr.Literals P` says that `P` holds of the numbers and characters that an expression mentions, and
so on for all trees. What holds of the values of the tokens holds of the literals of what is read from
them (`Tree.Program.literals_read`).
-/

namespace MicroJava

namespace Tree

section Literals

variable (P : Int → Prop)

mutual

/-- `P` holds of the literals of a sum. -/
def Expr.Literals : Expr → Prop
  | .term x | .neg x => x.Literals
  | .add e _ x => e.Literals ∧ x.Literals

/-- `P` holds of the literals of a product, exponents apart. -/
def Term.Literals : Term → Prop
  | .factor f => f.Literals
  | .mul x _ f => x.Literals ∧ f.Literals
  | .power x _ => x.Literals

/-- `P` holds of the literals of a factor. -/
def Factor.Literals : Factor → Prop
  | .designator d => d.Literals
  | .call d arguments _ => d.Literals ∧ ArgumentLiterals arguments
  | .number n | .char n => P n
  | .newArray _ size _ => size.Literals
  | .group e _ => e.Literals
  | .newObject _ | .missing => True

/-- `P` holds of the literals of a designator. -/
def Designator.Literals : Designator → Prop
  | .name _ => True
  | .field d _ => d.Literals
  | .element d index _ => d.Literals ∧ index.Literals

/-- `P` holds of the literals of the arguments of a call. -/
def ArgumentLiterals : List Expr → Prop
  | [] => True
  | e :: es => e.Literals ∧ ArgumentLiterals es

end

/-- `P` holds of the literals of a comparison. -/
def Comparison.Literals (c : Comparison) : Prop :=
  c.left.Literals P ∧ c.right.Literals P

/-- `P` holds of the literals of a conjunction. -/
def Conjunction.Literals : Conjunction → Prop
  | .comparison c => c.Literals P
  | .and cs c => cs.Literals ∧ c.Literals P

/-- `P` holds of the literals of a condition. -/
def Condition.Literals : Condition → Prop
  | .conjunction c => c.Literals P
  | .or cs c => cs.Literals ∧ c.Literals P

/-- `P` holds of the literals of what happens to a designator. -/
def Action.Literals : Action → Prop
  | .assign _ value => value.Literals P
  | .call arguments _ => ArgumentLiterals P arguments
  | .increment | .decrement | .missing => True

mutual

/-- `P` holds of the literals of a statement. -/
def Statement.Literals : Statement → Prop
  | .action d a _ => d.Literals P ∧ a.Literals P
  | .ifThen _ c _ body | .whileDo _ c _ body => c.Literals P ∧ body.Literals
  | .ifThenElse _ c _ body other => c.Literals P ∧ body.Literals ∧ other.Literals
  | .give value _ => ∀ e ∈ value, e.Literals P
  | .read _ d _ _ => d.Literals P
  | .print _ value width _ _ => value.Literals P ∧ ∀ n ∈ width.join, P n
  | .block statements _ => StatementLiterals statements
  | .leave _ | .empty | .missing | .skipped _ => True

/-- `P` holds of the literals of several statements. -/
def StatementLiterals : List Statement → Prop
  | [] => True
  | s :: ss => s.Literals ∧ StatementLiterals ss

end

/-- `P` holds of the value that a constant is given. -/
def ConstantValue.Literals : ConstantValue → Prop
  | .number n | .char n => P n
  | .missing => True

/-- `P` holds of the values of constants that a declaration gives. -/
def Declaration.Literals : Declaration → Prop
  | .constant d => d.value.Literals P
  | _ => True

/-- `P` holds of the literals of the body of a method. -/
def Member.Literals : Member → Prop
  | .method d => StatementLiterals P d.body
  | .skipped _ => True

/-- `P` holds of the literals of a program. -/
structure Program.Literals (p : Program) : Prop where
  declarations : ∀ d ∈ p.declarations, d.Literals P
  members : ∀ d, .method d ∈ p.members → StatementLiterals P d.body

variable {P}

mutual

/-- What holds of all numbers holds of literals. -/
theorem Expr.literals_of_forall (h : ∀ n, P n) : (e : Expr) → e.Literals P
  | .term x | .neg x => by
      rw [Expr.Literals]
      exact x.literals_of_forall h
  | .add e _ x => by
      rw [Expr.Literals]
      exact ⟨e.literals_of_forall h, x.literals_of_forall h⟩

theorem Term.literals_of_forall (h : ∀ n, P n) : (x : Term) → x.Literals P
  | .factor f => by
      rw [Term.Literals]
      exact f.literals_of_forall h
  | .mul x _ f => by
      rw [Term.Literals]
      exact ⟨x.literals_of_forall h, f.literals_of_forall h⟩
  | .power x _ => by
      rw [Term.Literals]
      exact x.literals_of_forall h

theorem Factor.literals_of_forall (h : ∀ n, P n) : (f : Factor) → f.Literals P
  | .designator d => by
      rw [Factor.Literals]
      exact d.literals_of_forall h
  | .call d arguments _ => by
      rw [Factor.Literals]
      exact ⟨d.literals_of_forall h, argumentLiterals_of_forall h arguments⟩
  | .number n | .char n => by
      rw [Factor.Literals]
      exact h n
  | .newArray _ size _ => by
      rw [Factor.Literals]
      exact size.literals_of_forall h
  | .group e _ => by
      rw [Factor.Literals]
      exact e.literals_of_forall h
  | .newObject _ | .missing => by
      rw [Factor.Literals]
      trivial

theorem Designator.literals_of_forall (h : ∀ n, P n) : (d : Designator) → d.Literals P
  | .name _ => by
      rw [Designator.Literals]
      trivial
  | .field d _ => by
      rw [Designator.Literals]
      exact d.literals_of_forall h
  | .element d index _ => by
      rw [Designator.Literals]
      exact ⟨d.literals_of_forall h, index.literals_of_forall h⟩

theorem argumentLiterals_of_forall (h : ∀ n, P n) : (es : List Expr) → ArgumentLiterals P es
  | [] => by
      rw [ArgumentLiterals]
      trivial
  | e :: es => by
      rw [ArgumentLiterals]
      exact ⟨e.literals_of_forall h, argumentLiterals_of_forall h es⟩

end

theorem Action.literals_of_forall (h : ∀ n, P n) (a : Action) : a.Literals P := by
  cases a with
  | assign op value => exact value.literals_of_forall h
  | call arguments _ => exact argumentLiterals_of_forall h arguments
  | increment | decrement | missing => trivial

theorem Declaration.literals_of_forall (h : ∀ n, P n) (d : Declaration) : d.Literals P := by
  cases d with
  | constant d =>
      change d.value.Literals P
      cases d.value with
      | number n | char n => exact h n
      | missing => trivial
  | globals _ | object _ | skipped _ => trivial

end Literals

/-! ### Reading -/

/-- `P` holds of the values of all tokens. -/
def Valued (P : Int → Prop) (ts : List Token) : Prop := ∀ t ∈ ts, P t.value

variable {P : Int → Prop}

namespace Valued

theorem suffix {ts us : List Token} (h : Valued P ts) (hs : us <:+ ts) : Valued P us :=
  fun t ht => h t (hs.subset ht)

theorem rest {α : Type} {ts : List Token} (h : Valued P ts) (p : Parsed α ts) : Valued P p.rest :=
  h.suffix p.suffix

theorem tail {t : Token} {ts : List Token} (h : Valued P (t :: ts)) : Valued P ts :=
  h.suffix (List.suffix_cons t ts)

theorem head {t : Token} {ts : List Token} (h : Valued P (t :: ts)) : P t.value :=
  h t List.mem_cons_self

end Valued

theorem literals_readNumber {ts : List Token} (hts : Valued P ts) : ∀ n ∈ (readNumber ts).value, P n := by
  cases ts with
  | nil => simp [readNumber, Parsed.nothing]
  | cons t ts =>
      rw [readNumber]
      split
      · simpa [Parsed.one] using hts.head
      · simp [Parsed.nothing]

mutual

theorem literals_readExpr (ts : List Token) (hts : Valued P ts) : (readExpr ts).value.Literals P := by
  rw [readExpr]
  dsimp only
  have := (accept .minus ts).length_rest_le
  have := (readTerm (accept .minus ts).rest).length_rest_le
  have hfirst := hts.rest (accept .minus ts)
  have hterm := literals_readTerm _ hfirst
  refine literals_readSum _ _ _ _ (hfirst.rest _) ?_
  split <;> (rw [Expr.Literals]; exact hterm)
termination_by 8 * ts.length + 4

theorem literals_readSum (x : Expr) (start ts : List Token) (h : ts <:+ start) (hts : Valued P ts)
    (hx : x.Literals P) : (readSum x start ts h).value.Literals P := by
  match ts, h with
  | [], h =>
      rw [readSum]
      exact hx
  | t :: ts₁, h =>
      rw [readSum]
      split
      · exact hx
      · have := (readTerm ts₁).length_rest_le
        refine literals_readSum _ start _ ((readTerm ts₁).suffix.trans ((List.suffix_cons t ts₁).trans h))
          (hts.tail.rest _) ?_
        rw [Expr.Literals]
        exact ⟨hx, literals_readTerm ts₁ hts.tail⟩
termination_by 8 * ts.length

theorem literals_readTerm (ts : List Token) (hts : Valued P ts) : (readTerm ts).value.Literals P := by
  rw [readTerm]
  have := (readFactor ts).length_rest_le
  refine literals_readProduct _ ts _ (readFactor ts).suffix (hts.rest _) ?_
  rw [Term.Literals]
  exact literals_readFactor ts hts
termination_by 8 * ts.length + 3

theorem literals_readProduct (x : Term) (start ts : List Token) (h : ts <:+ start) (hts : Valued P ts)
    (hx : x.Literals P) : (readProduct x start ts h).value.Literals P := by
  match ts, h with
  | [], h =>
      rw [readProduct]
      exact hx
  | t :: ts₁, h =>
      rw [readProduct]
      split
      · have := (readFactor ts₁).length_rest_le
        refine literals_readProduct _ start _
          ((readFactor ts₁).suffix.trans ((List.suffix_cons t ts₁).trans h)) (hts.tail.rest _) ?_
        rw [Term.Literals]
        exact ⟨hx, literals_readFactor ts₁ hts.tail⟩
      · split
        · have := (readNumber ts₁).length_rest_le
          refine literals_readProduct _ start _
            ((readNumber ts₁).suffix.trans ((List.suffix_cons t ts₁).trans h))
            (hts.tail.rest (readNumber ts₁)) ?_
          rwa [Term.Literals]
        · exact hx
termination_by 8 * ts.length

theorem literals_readFactor (ts : List Token) (hts : Valued P ts) :
    (readFactor ts).value.Literals P := by
  match ts with
  | [] =>
      rw [readFactor, Parsed.nothing, Factor.Literals]
      trivial
  | t :: ts₁ =>
      rw [readFactor]
      split
      · have hd := literals_readSelectors (.name (some t.name)) ts₁ ts₁ List.suffix_rfl hts.tail (by
          rw [Designator.Literals]
          trivial)
        have := (readSelectors (.name (some t.name)) ts₁ ts₁ List.suffix_rfl).length_rest_le
        generalize readSelectors (.name (some t.name)) ts₁ ts₁ List.suffix_rfl = d at *
        have := (accept .leftParen d.rest).length_rest_le
        dsimp only
        split
        · rw [Factor.Literals]
          exact ⟨hd, literals_readArguments _ ((hts.tail.rest _).rest _)⟩
        · rwa [Factor.Literals]
      · rw [Factor.Literals]
        exact hts.head
      · rw [Factor.Literals]
        exact hts.head
      · have := (readName ts₁).length_rest_le
        have := (accept .leftBracket (readName ts₁).rest).length_rest_le
        dsimp only
        split
        · rw [Factor.Literals]
          exact literals_readExpr _ ((hts.tail.rest _).rest _)
        · rw [Factor.Literals]
          trivial
      · rw [Factor.Literals]
        exact literals_readExpr ts₁ hts.tail
      · rw [Parsed.nothing, Factor.Literals]
        trivial
termination_by 8 * ts.length + 2

theorem literals_readSelectors (x : Designator) (start ts : List Token) (h : ts <:+ start)
    (hts : Valued P ts) (hx : x.Literals P) : (readSelectors x start ts h).value.Literals P := by
  match ts, h with
  | [], h =>
      rw [readSelectors]
      exact hx
  | t :: ts₁, h =>
      rw [readSelectors]
      dsimp only
      split
      · have := (readName ts₁).length_rest_le
        refine literals_readSelectors _ start _ _ (hts.tail.rest _) ?_
        rwa [Designator.Literals]
      · split
        · have := (readExpr ts₁).length_rest_le
          have := (accept .rightBracket (readExpr ts₁).rest).length_rest_le
          refine literals_readSelectors _ start _ _ ((hts.tail.rest _).rest _) ?_
          rw [Designator.Literals]
          exact ⟨hx, literals_readExpr ts₁ hts.tail⟩
        · exact hx
termination_by 8 * ts.length

theorem literals_readArguments (ts : List Token) (hts : Valued P ts) :
    ArgumentLiterals P (readArguments ts).value := by
  rw [readArguments]
  split
  · have := (readExpr ts).length_rest_le
    rw [ArgumentLiterals]
    exact ⟨literals_readExpr ts hts, literals_readMoreArguments _ (hts.rest _)⟩
  · rw [Parsed.nothing, ArgumentLiterals]
    trivial
termination_by 8 * ts.length + 6

theorem literals_readMoreArguments (ts : List Token) (hts : Valued P ts) :
    ArgumentLiterals P (readMoreArguments ts).value := by
  match ts with
  | [] =>
      rw [readMoreArguments, Parsed.nothing, ArgumentLiterals]
      trivial
  | t :: ts₁ =>
      rw [readMoreArguments]
      split
      · have := (readExpr ts₁).length_rest_le
        rw [ArgumentLiterals]
        exact ⟨literals_readExpr ts₁ hts.tail, literals_readMoreArguments _ (hts.tail.rest _)⟩
      · rw [Parsed.nothing, ArgumentLiterals]
        trivial
termination_by 8 * ts.length + 5

end

/-! ### Conditions and statements -/

namespace Parsed

variable {α β : Type} {ts : List Token} {p : Parsed α ts} {Q : α → Prop} {R : β → Prop}

/-- What is read is good if the tokens are. -/
def Has (P : Int → Prop) (p : Parsed α ts) (Q : α → Prop) : Prop := Valued P ts → Q p.value

theorem Has.andThen {f : α → (us : List Token) → Parsed β us} (hp : p.Has P Q)
    (hf : Q p.value → (f p.value p.rest).Has P R) : (p.andThen f).Has P R :=
  fun hts => hf (hp hts) (hts.rest p)

/-- Nothing has to be known of what was read first. -/
theorem Has.after {f : α → (us : List Token) → Parsed β us}
    (hf : (f p.value p.rest).Has P R) : (p.andThen f).Has P R :=
  fun hts => hf (hts.rest p)

theorem Has.map {f : α → β} (hp : p.Has P Q) (hf : Q p.value → R (f p.value)) : (p.map f).Has P R :=
  fun hts => hf (hp hts)

theorem Has.of_forall (h : Q p.value) : p.Has P Q := fun _ => h

end Parsed

theorem has_readExpr (ts : List Token) : (readExpr ts).Has P fun e => e.Literals P :=
  literals_readExpr ts

theorem has_readArguments (ts : List Token) : (readArguments ts).Has P (ArgumentLiterals P) :=
  literals_readArguments ts

theorem literals_readDesignator (ts : List Token) :
    (readDesignator ts).Has P fun d => d.Literals P :=
  .after fun hts => literals_readSelectors _ _ _ _ hts (by rw [Designator.Literals]; trivial)

theorem literals_readComparison (ts : List Token) :
    (readComparison ts).Has P fun c => c.Literals P :=
  (has_readExpr ts).andThen fun hleft => .after <| (has_readExpr _).map fun hright => ⟨hleft, hright⟩

theorem literals_readMoreComparisons (cs : Conjunction) (start ts : List Token) (h : ts <:+ start)
    (hts : Valued P ts) (hcs : cs.Literals P) : (readMoreComparisons cs start ts h).value.Literals P := by
  match ts, h with
  | [], h =>
      rw [readMoreComparisons]
      exact hcs
  | t :: ts₁, h =>
      rw [readMoreComparisons]
      split
      · have := (readComparison ts₁).length_rest_le
        exact literals_readMoreComparisons _ start _
          ((readComparison ts₁).suffix.trans ((List.suffix_cons t ts₁).trans h))
          (hts.tail.rest (readComparison ts₁)) ⟨hcs, literals_readComparison ts₁ hts.tail⟩
      · exact hcs
termination_by ts.length

theorem literals_readConjunction (ts : List Token) :
    (readConjunction ts).Has P fun cs => cs.Literals P :=
  Parsed.Has.andThen (literals_readComparison ts) fun hfirst hts =>
    literals_readMoreComparisons _ _ _ _ hts hfirst

theorem literals_readMoreConjunctions (cs : Condition) (start ts : List Token) (h : ts <:+ start)
    (hts : Valued P ts) (hcs : cs.Literals P) : (readMoreConjunctions cs start ts h).value.Literals P := by
  match ts, h with
  | [], h =>
      rw [readMoreConjunctions]
      exact hcs
  | t :: ts₁, h =>
      rw [readMoreConjunctions]
      split
      · have := (readConjunction ts₁).length_rest_le
        exact literals_readMoreConjunctions _ start _
          ((readConjunction ts₁).suffix.trans ((List.suffix_cons t ts₁).trans h))
          (hts.tail.rest (readConjunction ts₁)) ⟨hcs, literals_readConjunction ts₁ hts.tail⟩
      · exact hcs
termination_by ts.length

theorem literals_readCondition (ts : List Token) :
    (readCondition ts).Has P fun cs => cs.Literals P :=
  Parsed.Has.andThen (literals_readConjunction ts) fun hfirst hts =>
    literals_readMoreConjunctions _ _ _ _ hts hfirst

theorem literals_readGuard (ts : List Token) :
    (readGuard ts).Has P fun guard => guard.2.1.Literals P :=
  .after <| (literals_readCondition _).andThen fun hcondition => .of_forall hcondition

theorem literals_readAction (ts : List Token) : (readAction ts).Has P fun a => a.Literals P := by
  cases ts with
  | nil => exact .of_forall trivial
  | cons t ts =>
      rw [readAction]
      split
      · exact .after <| (has_readExpr _).map id
      · exact .after <| (has_readArguments _).andThen fun harguments => .of_forall harguments
      all_goals exact .of_forall trivial

theorem literals_readWidth (ts : List Token) :
    (readWidth ts).Has P fun width => ∀ n ∈ width.join, P n := by
  refine .after ?_
  split
  · exact Parsed.Has.map (Q := fun k => ∀ n ∈ k, P n) literals_readNumber id
  · exact .of_forall (by simp [Parsed.nothing])

theorem literals_reverse {before : List Statement} (h : ∀ s ∈ before, s.Literals P) :
    StatementLiterals P before.reverse := by
  have : ∀ ss : List Statement, (∀ s ∈ ss, s.Literals P) → StatementLiterals P ss := fun ss hss => by
    induction ss with
    | nil =>
        rw [StatementLiterals]
        trivial
    | cons s ss ih =>
        rw [StatementLiterals]
        exact ⟨hss s List.mem_cons_self, ih fun r hr => hss r (List.mem_cons_of_mem s hr)⟩
  exact this _ fun s hs => h s (List.mem_reverse.1 hs)

mutual

theorem literals_readStatement (ts : List Token) (hts : Valued P ts) :
    (readStatement ts).value.Literals P := by
  match ts with
  | [] =>
      rw [readStatement, Parsed.nothing, Statement.Literals]
      trivial
  | t :: ts₁ =>
      rw [readStatement]
      split
      · rw [Parsed.nothing, Statement.Literals]
        trivial
      · exact literals_readAfter _ ts₁ hts.tail
termination_by 2 * ts.length

theorem literals_readAfter (head : StatementHead) (ts : List Token) (hts : Valued P ts) :
    (readAfter head ts).value.Literals P := by
  cases head with
  | name n =>
      rw [readAfter, Statement.Literals]
      exact ⟨literals_readSelectors _ _ _ _ hts (by rw [Designator.Literals]; trivial),
        literals_readAction _ (hts.rest _)⟩
  | ifWord =>
      have := (readGuard ts).length_rest_le
      have := (readStatement (readGuard ts).rest).length_rest_le
      have := (accept .kwElse (readStatement (readGuard ts).rest).rest).length_rest_le
      have hbody := literals_readStatement (readGuard ts).rest (hts.rest _)
      rw [readAfter]
      dsimp only
      split
      · rw [Statement.Literals]
        exact ⟨literals_readGuard ts hts, hbody,
          literals_readStatement _ (((hts.rest _).rest _).rest (accept .kwElse _))⟩
      · rw [Statement.Literals]
        exact ⟨literals_readGuard ts hts, hbody⟩
  | whileWord =>
      have := (readGuard ts).length_rest_le
      rw [readAfter, Statement.Literals]
      exact ⟨literals_readGuard ts hts, literals_readStatement _ (hts.rest _)⟩
  | breakWord =>
      rw [readAfter, Parsed.value_map, Statement.Literals]
      trivial
  | returnWord =>
      rw [readAfter]
      split
      · rw [Statement.Literals]
        simpa using literals_readExpr ts hts
      · rw [Parsed.value_map, Statement.Literals]
        simp
  | readWord =>
      rw [readAfter, Statement.Literals]
      exact literals_readDesignator _ (hts.rest _)
  | printWord =>
      rw [readAfter, Statement.Literals]
      exact ⟨literals_readExpr _ (hts.rest _), literals_readWidth _ ((hts.rest _).rest _)⟩
  | brace =>
      rw [readAfter, Statement.Literals]
      exact literals_readStatements [] ts ts List.suffix_rfl hts nofun
  | semicolon =>
      rw [readAfter, Parsed.nothing, Statement.Literals]
      trivial
termination_by 2 * ts.length + 1

theorem literals_readStatements (before : List Statement) (start ts : List Token) (h : ts <:+ start)
    (hts : Valued P ts) (hbefore : ∀ s ∈ before, s.Literals P) :
    StatementLiterals P (readStatements before start ts h).value := by
  match ts, h with
  | [], h =>
      rw [readStatements]
      exact literals_reverse hbefore
  | t :: ts₁, h =>
      have hskipped : ∀ n, (Statement.skipped n).Literals P := fun n => by
        rw [Statement.Literals]
        trivial
      rw [readStatements]
      dsimp only
      split
      · next head _ =>
          have := (readAfter head ts₁).length_rest_le
          exact literals_readStatements _ start _ _ (hts.tail.rest (readAfter head ts₁))
            (List.forall_mem_cons.2 ⟨literals_readAfter head ts₁ hts.tail, hbefore⟩)
      · split
        · exact literals_reverse hbefore
        · have := (skipTo resumesStatement ts₁).length_rest_le
          exact literals_readStatements _ start _ _ (hts.tail.rest (skipTo resumesStatement ts₁))
            (List.forall_mem_cons.2 ⟨hskipped _, hbefore⟩)
termination_by 2 * ts.length

end

/-! ### Declarations and programs -/

theorem literals_readConstantValue (ts : List Token) :
    (readConstantValue ts).Has P fun v => v.Literals P := by
  cases ts with
  | nil => exact .of_forall trivial
  | cons t ts =>
      rw [readConstantValue]
      split
      · exact Valued.head
      · exact Valued.head
      · exact .of_forall trivial

theorem literals_readConstant (ts : List Token) :
    (readConstant ts).Has P fun d => d.value.Literals P :=
  .after <| .after <| .after <| (literals_readConstantValue _).andThen fun hvalue => .of_forall hvalue

theorem literals_readDeclarations (before : List Declaration) (start ts : List Token)
    (h : ts <:+ start) (hts : Valued P ts) (hbefore : ∀ d ∈ before, d.Literals P) :
    ∀ d ∈ (readDeclarations before start ts h).value, d.Literals P := by
  match ts, h with
  | [], h =>
      rw [readDeclarations]
      exact fun d hd => hbefore d (List.mem_reverse.1 hd)
  | t :: ts₁, h =>
      rw [readDeclarations]
      dsimp only
      split
      · have := (readConstant ts₁).length_rest_le
        exact literals_readDeclarations _ start _ _ (hts.tail.rest (readConstant ts₁))
          (List.forall_mem_cons.2 ⟨literals_readConstant ts₁ hts.tail, hbefore⟩)
      · have := (readVariablesAfter t.name ts₁).length_rest_le
        exact literals_readDeclarations _ start _ _ (hts.tail.rest (readVariablesAfter t.name ts₁))
          (List.forall_mem_cons.2 ⟨trivial, hbefore⟩)
      · have := (readClass ts₁).length_rest_le
        exact literals_readDeclarations _ start _ _ (hts.tail.rest (readClass ts₁))
          (List.forall_mem_cons.2 ⟨trivial, hbefore⟩)
      · exact fun d hd => hbefore d (List.mem_reverse.1 hd)
      · have := (skipTo resumesDeclaration ts₁).length_rest_le
        exact literals_readDeclarations _ start _ _ (hts.tail.rest (skipTo resumesDeclaration ts₁))
          (List.forall_mem_cons.2 ⟨trivial, hbefore⟩)
termination_by ts.length

theorem literals_readMethod (type : Option TypeName) (ts : List Token) :
    (readMethod type ts).Has P fun d => StatementLiterals P d.body :=
  .after <| .after <| .after <| .after <| .after <| .after fun hts =>
    literals_readStatements [] _ _ List.suffix_rfl hts nofun

theorem literals_readMembers (before : List Member) (start ts : List Token) (h : ts <:+ start)
    (hts : Valued P ts) (hbefore : ∀ m ∈ before, m.Literals P) :
    ∀ m ∈ (readMembers before start ts h).value, m.Literals P := by
  match ts, h with
  | [], h =>
      rw [readMembers]
      exact fun m hm => hbefore m (List.mem_reverse.1 hm)
  | t :: ts₁, h =>
      rw [readMembers]
      dsimp only
      split
      · have := (readMethod none ts₁).length_rest_le
        exact literals_readMembers _ start _ _ (hts.tail.rest (readMethod none ts₁))
          (List.forall_mem_cons.2 ⟨literals_readMethod none ts₁ hts.tail, hbefore⟩)
      · have := (readArrayMark ts₁).length_rest_le
        generalize readArrayMark ts₁ = array at *
        have := (readMethod (some ⟨some t.name, array.value⟩) array.rest).length_rest_le
        exact literals_readMembers _ start _ _
          ((hts.tail.rest array).rest (readMethod (some ⟨some t.name, array.value⟩) array.rest))
          (List.forall_mem_cons.2 ⟨literals_readMethod _ _ (hts.tail.rest array), hbefore⟩)
      · exact fun m hm => hbefore m (List.mem_reverse.1 hm)
      · have := (skipTo resumesMember ts₁).length_rest_le
        exact literals_readMembers _ start _ _ (hts.tail.rest (skipTo resumesMember ts₁))
          (List.forall_mem_cons.2 ⟨trivial, hbefore⟩)
termination_by ts.length

/-- What holds of the values of all tokens holds of the literals of the program read from them. -/
theorem Program.literals_read {ts : List Token} (hts : Valued P ts) : (Program.read ts).Literals P where
  declarations := literals_readDeclarations _ _ _ _ ((hts.rest _).rest _) nofun
  members := fun d hd =>
    literals_readMembers [] _ _ _ ((((hts.rest _).rest _).rest _).rest _) (List.forall_mem_nil _)
      (.method d) hd

end Tree

end MicroJava
