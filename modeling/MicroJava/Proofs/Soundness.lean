import MicroJava.Grammar
import MicroJava.Tree.Intact
import MicroJava.Tree.ReadProgram

/-!
# What is read without a gap follows the grammar

If the tree that was read has no gap, then the tokens that were taken off the front are what the
grammar has for such a tree (`Parsed.Follows`). A tail that extends what was read so far takes any
number of operators with their operands (`Parsed.Extends`).
-/

namespace MicroJava.Tree

open Grammar Kind Nonterminal Ebnf

/-- If what was read is good, then the tokens that were taken are those of `a`. -/
def Parsed.Follows {α : Type} {ts : List Token} (p : Parsed α ts) (good : α → Prop) (a : Ebnf) :
    Prop :=
  good p.value → Takes a ts p.rest

/-- If what was read is good, then so is `x`, and the tokens that were taken since `ts` are those of
`a`. -/
def Parsed.Extends {α : Type} {start : List Token} (p : Parsed α start) (good : α → Prop) (x : α)
    (ts : List Token) (a : Ebnf) : Prop :=
  good p.value → good x ∧ Takes a ts p.rest

section Combine

variable {α β : Type} {ts : List Token} {p : Parsed α ts} {good : α → Prop} {good' : β → Prop}
  {f : α → (us : List Token) → Parsed β us} {x : β} {a b : Ebnf}

theorem Parsed.Follows.rule {n : Nonterminal} (h : p.Follows good (production n)) :
    p.Follows good n := fun hp => .rule (h hp)

/-- What was read first is extended by what follows. -/
theorem Parsed.Follows.extend (hp : p.Follows good a)
    (hf : (f p.value p.rest).Extends good' x p.rest b) (hx : good' x → good p.value) :
    (p.andThen f).Follows good' (a ++ b) := fun h =>
  have ⟨hfirst, hmore⟩ := hf h
  (hp (hx hfirst)).seq hmore

end Combine

theorem follows_accept (kind : Kind) (ts : List Token) :
    (accept kind ts).Follows (· = true) kind := by
  cases ts with
  | nil =>
      intro h
      cases h
  | cons t ts =>
      rw [accept]
      split
      · next hkind => exact fun _ => takes_token.2 ⟨t, rfl, hkind⟩
      · intro h
        cases h

theorem rest_accept_of_false {kind : Kind} {ts : List Token}
    (h : ¬ (accept kind ts).value = true) : (accept kind ts).rest = ts := by
  cases ts with
  | nil => rfl
  | cons t ts =>
      rw [accept] at h ⊢
      split at h
      · exact absurd rfl h
      · next hkind => rw [if_neg hkind]; rfl

theorem follows_readName (ts : List Token) :
    (readName ts).Follows (fun name => name.isSome) ident := by
  cases ts with
  | nil =>
      intro h
      cases h
  | cons t ts =>
      rw [readName]
      split
      · next hkind => exact fun _ => takes_token.2 ⟨t, rfl, hkind⟩
      · intro h
        cases h

theorem follows_readNumber (ts : List Token) :
    (readNumber ts).Follows (fun n => n.isSome) number := by
  cases ts with
  | nil =>
      intro h
      cases h
  | cons t ts =>
      rw [readNumber]
      split
      · next hkind => exact fun _ => takes_token.2 ⟨t, rfl, hkind⟩
      · intro h
        cases h

theorem takes_addOp {t : Token} {op : AddOp} (h : addOp? t.kind = some op) (ts : List Token) :
    Takes addop (t :: ts) ts := by
  refine .rule ?_
  unfold addOp? at h
  split at h
  · next hkind => exact .left (takes_token.2 ⟨t, rfl, hkind⟩)
  · next hkind => exact .right (takes_token.2 ⟨t, rfl, hkind⟩)
  · cases h

theorem takes_mulOp {t : Token} {op : MulOp} (h : mulOp? t.kind = some op) (ts : List Token) :
    Takes mulop (t :: ts) ts := by
  refine .rule ?_
  unfold mulOp? at h
  split at h
  · next hkind => exact .left (.left (takes_token.2 ⟨t, rfl, hkind⟩))
  · next hkind => exact .left (.right (takes_token.2 ⟨t, rfl, hkind⟩))
  · next hkind => exact .right (takes_token.2 ⟨t, rfl, hkind⟩)
  · cases h

mutual

theorem follows_readExpr (ts : List Token) : (readExpr ts).Follows Expr.Intact expr := by
  rw [readExpr]
  dsimp only
  intro he
  have := (accept .minus ts).length_rest_le
  have := (readTerm (accept .minus ts).rest).length_rest_le
  obtain ⟨hfirst, hsum⟩ := extends_readSum _ ts _ _ he
  have hterm := follows_readTerm (accept .minus ts).rest
  by_cases hminus : (accept .minus ts).value = true
  · rw [if_pos hminus, Expr.Intact] at hfirst
    exact .rule (((Takes.some (follows_accept .minus ts hminus)).seq (hterm hfirst)).seq hsum)
  · rw [if_neg hminus, Expr.Intact] at hfirst
    have hnone : Takes (opt minus) ts (accept .minus ts).rest := by
      rw [rest_accept_of_false hminus]
      exact .none
    exact .rule ((hnone.seq (hterm hfirst)).seq hsum)
termination_by 8 * ts.length + 4

theorem extends_readSum (x : Expr) (start ts : List Token) (h : ts <:+ start) :
    (readSum x start ts h).Extends Expr.Intact x ts (many (addop ++ term)) := by
  match ts, h with
  | [], h =>
      rw [readSum]
      exact fun he => ⟨he, .nil⟩
  | t :: ts₁, h =>
      rw [readSum]
      split
      · exact fun he => ⟨he, .nil⟩
      · next op hop =>
          intro he
          have := (readTerm ts₁).length_rest_le
          obtain ⟨hx, hmore⟩ := extends_readSum _ start _ _ he
          rw [Expr.Intact] at hx
          exact ⟨hx.1, .cons ((takes_addOp hop ts₁).seq (follows_readTerm ts₁ hx.2)) hmore⟩
termination_by 8 * ts.length

theorem follows_readTerm (ts : List Token) : (readTerm ts).Follows Term.Intact term := by
  rw [readTerm]
  intro hx
  have := (readFactor ts).length_rest_le
  obtain ⟨hfirst, hmore⟩ := extends_readProduct _ ts _ _ hx
  rw [Term.Intact] at hfirst
  exact .rule ((follows_readFactor ts hfirst).seq hmore)
termination_by 8 * ts.length + 3

theorem extends_readProduct (x : Term) (start ts : List Token) (h : ts <:+ start) :
    (readProduct x start ts h).Extends Term.Intact x ts
      (many (mulop ++ factor ||| power ++ number)) := by
  match ts, h with
  | [], h =>
      rw [readProduct]
      exact fun hx => ⟨hx, .nil⟩
  | t :: ts₁, h =>
      rw [readProduct]
      split
      · next op hop =>
          intro he
          have := (readFactor ts₁).length_rest_le
          obtain ⟨hx, hmore⟩ := extends_readProduct _ start _ _ he
          rw [Term.Intact] at hx
          exact ⟨hx.1,
            .cons (.left ((takes_mulOp hop ts₁).seq (follows_readFactor ts₁ hx.2))) hmore⟩
      · split
        · next hpower =>
            intro he
            have := (readNumber ts₁).length_rest_le
            obtain ⟨hx, hmore⟩ := extends_readProduct _ start (readNumber ts₁).rest _ he
            rw [Term.Intact] at hx
            exact ⟨hx.1, .cons (.right ((takes_token.2 ⟨t, rfl, hpower⟩).seq
              (follows_readNumber ts₁ hx.2))) hmore⟩
        · exact fun hx => ⟨hx, .nil⟩
termination_by 8 * ts.length

theorem follows_readFactor (ts : List Token) : (readFactor ts).Follows Factor.Intact factor := by
  match ts with
  | [] =>
      rw [readFactor]
      intro hf
      simp [Parsed.nothing, Factor.Intact] at hf
  | t :: ts₁ =>
      rw [readFactor]
      split
      · next hkind =>
          have := (readSelectors (.name (some t.name)) ts₁ ts₁ List.suffix_rfl).length_rest_le
          have hdesignator : (readSelectors (.name (some t.name)) ts₁ ts₁
              List.suffix_rfl).value.Intact → Takes designator (t :: ts₁) _ := fun hd =>
            .rule ((takes_token.2 ⟨t, rfl, hkind⟩).seq (extends_readSelectors _ ts₁ ts₁ _ hd).2)
          generalize readSelectors (.name (some t.name)) ts₁ ts₁ List.suffix_rfl = d at *
          have := (accept .leftParen d.rest).length_rest_le
          dsimp only
          split
          · next hcalled =>
              intro hf
              rw [Factor.Intact] at hf
              exact .rule (.left (.left (.left (.left ((hdesignator hf.1).seq (.some (.rule
                (((follows_accept .leftParen d.rest hcalled).seq
                  (follows_readArguments _ hf.2.1)).seq (follows_accept .rightParen _ hf.2.2)))))))))
          · intro hf
            rw [Factor.Intact] at hf
            exact .rule (.left (.left (.left (.left ((hdesignator hf).seq .none)))))
      · next hkind =>
          exact fun _ => .rule (.left (.left (.left (.right (takes_token.2 ⟨t, rfl, hkind⟩)))))
      · next hkind => exact fun _ => .rule (.left (.left (.right (takes_token.2 ⟨t, rfl, hkind⟩))))
      · next hkind =>
          have := (readName ts₁).length_rest_le
          have := (accept .leftBracket (readName ts₁).rest).length_rest_le
          have hnew : (readName ts₁).value.isSome → Takes (kwNew ++ ident) (t :: ts₁) _ := fun h =>
            (takes_token.2 ⟨t, rfl, hkind⟩).seq (follows_readName ts₁ h)
          dsimp only
          split
          · next hsized =>
              intro hf
              rw [Factor.Intact] at hf
              exact .rule (.left (.right ((hnew hf.1).seq (.some (((follows_accept .leftBracket _
                hsized).seq (follows_readExpr _ hf.2.1)).seq
                (follows_accept .rightBracket _ hf.2.2))))))
          · intro hf
            rw [Factor.Intact] at hf
            exact .rule (.left (.right ((hnew hf).seq .none)))
      · next hkind =>
          intro hf
          rw [Factor.Intact] at hf
          exact .rule (.right (((takes_token.2 ⟨t, rfl, hkind⟩).seq
            (follows_readExpr ts₁ hf.1)).seq (follows_accept .rightParen _ hf.2)))
      · intro hf
        simp [Parsed.nothing, Factor.Intact] at hf
termination_by 8 * ts.length + 2

theorem extends_readSelectors (x : Designator) (start ts : List Token) (h : ts <:+ start) :
    (readSelectors x start ts h).Extends Designator.Intact x ts
      (many (period ++ ident ||| leftBracket ++ expr ++ rightBracket)) := by
  match ts, h with
  | [], h =>
      rw [readSelectors]
      exact fun hd => ⟨hd, .nil⟩
  | t :: ts₁, h =>
      rw [readSelectors]
      dsimp only
      split
      · next hkind =>
          intro hd
          have := (readName ts₁).length_rest_le
          obtain ⟨hx, hmore⟩ := extends_readSelectors _ start _ _ hd
          rw [Designator.Intact] at hx
          exact ⟨hx.1, .cons (.left ((takes_token.2 ⟨t, rfl, hkind⟩).seq
            (follows_readName ts₁ hx.2))) hmore⟩
      · split
        · next hkind =>
            intro hd
            have := (readExpr ts₁).length_rest_le
            have := (accept .rightBracket (readExpr ts₁).rest).length_rest_le
            obtain ⟨hx, hmore⟩ := extends_readSelectors _ start _ _ hd
            rw [Designator.Intact] at hx
            exact ⟨hx.1, .cons (.right (((takes_token.2 ⟨t, rfl, hkind⟩).seq
              (follows_readExpr ts₁ hx.2.1)).seq (follows_accept .rightBracket _ hx.2.2))) hmore⟩
        · exact fun hd => ⟨hd, .nil⟩
termination_by 8 * ts.length

theorem follows_readArguments (ts : List Token) : (readArguments ts).Follows ArgumentsIntact
    (opt (expr ++ many (comma ++ expr))) := by
  rw [readArguments]
  split
  · intro hes
    have := (readExpr ts).length_rest_le
    rw [ArgumentsIntact] at hes
    exact .some ((follows_readExpr ts hes.1).seq (follows_readMoreArguments _ hes.2))
  · exact fun _ => .none
termination_by 8 * ts.length + 6

theorem follows_readMoreArguments (ts : List Token) :
    (readMoreArguments ts).Follows ArgumentsIntact (many (comma ++ expr)) := by
  match ts with
  | [] =>
      rw [readMoreArguments]
      exact fun _ => .nil
  | t :: ts₁ =>
      rw [readMoreArguments]
      split
      · next hkind =>
          intro hes
          have := (readExpr ts₁).length_rest_le
          rw [ArgumentsIntact] at hes
          exact .cons ((takes_token.2 ⟨t, rfl, hkind⟩).seq (follows_readExpr ts₁ hes.1))
            (follows_readMoreArguments _ hes.2)
      · exact fun _ => .nil
termination_by 8 * ts.length + 5

end

/-! ### Conditions -/

theorem follows_readDesignator (ts : List Token) :
    (readDesignator ts).Follows Designator.Intact designator :=
  ((follows_readName ts).extend (extends_readSelectors _ _ _ _)
    fun h => by rwa [Designator.Intact] at h).rule

theorem follows_readRelation (ts : List Token) :
    (readRelation ts).Follows (fun r => r.isSome) relop := by
  cases ts with
  | nil => exact fun h => nomatch h
  | cons t ts =>
      intro h
      refine .rule ?_
      rw [readRelation] at h ⊢
      unfold relation? at h ⊢
      simp only [production, takes_alt, takes_token]
      cases hkind : t.kind <;> simp [hkind, Parsed.one, Parsed.nothing] at h ⊢

theorem follows_readComparison (ts : List Token) :
    (readComparison ts).Follows Comparison.Intact condFact := fun hc =>
  .rule (((follows_readExpr ts hc.1).seq (follows_readRelation _ hc.2.1)).seq
    (follows_readExpr _ hc.2.2))

theorem extends_readMoreComparisons (cs : Conjunction) (start ts : List Token) (h : ts <:+ start) :
    (readMoreComparisons cs start ts h).Extends Conjunction.Intact cs ts
      (many (Kind.and ++ condFact)) := by
  match ts, h with
  | [], h =>
      rw [readMoreComparisons]
      exact fun hcs => ⟨hcs, .nil⟩
  | t :: ts₁, h =>
      rw [readMoreComparisons]
      split
      · next hkind =>
          intro hcs
          have := (readComparison ts₁).length_rest_le
          obtain ⟨hx, hmore⟩ :=
            extends_readMoreComparisons _ start (readComparison ts₁).rest _ hcs
          exact ⟨hx.1, .cons ((takes_token.2 ⟨t, rfl, hkind⟩).seq
            (follows_readComparison ts₁ hx.2)) hmore⟩
      · exact fun hcs => ⟨hcs, .nil⟩
termination_by ts.length

theorem follows_readConjunction (ts : List Token) :
    (readConjunction ts).Follows Conjunction.Intact condTerm :=
  have hfirst (h : Conjunction.Intact (.comparison (readComparison ts).value)) :
      (readComparison ts).value.Intact := h
  ((follows_readComparison ts).extend (extends_readMoreComparisons _ _ _ _) hfirst).rule

theorem extends_readMoreConjunctions (cs : Condition) (start ts : List Token) (h : ts <:+ start) :
    (readMoreConjunctions cs start ts h).Extends Condition.Intact cs ts
      (many (Kind.or ++ condTerm)) := by
  match ts, h with
  | [], h =>
      rw [readMoreConjunctions]
      exact fun hcs => ⟨hcs, .nil⟩
  | t :: ts₁, h =>
      rw [readMoreConjunctions]
      split
      · next hkind =>
          intro hcs
          have := (readConjunction ts₁).length_rest_le
          obtain ⟨hx, hmore⟩ :=
            extends_readMoreConjunctions _ start (readConjunction ts₁).rest _ hcs
          exact ⟨hx.1, .cons ((takes_token.2 ⟨t, rfl, hkind⟩).seq
            (follows_readConjunction ts₁ hx.2)) hmore⟩
      · exact fun hcs => ⟨hcs, .nil⟩
termination_by ts.length

theorem follows_readCondition (ts : List Token) :
    (readCondition ts).Follows Condition.Intact condition :=
  have hfirst (h : Condition.Intact (.conjunction (readConjunction ts).value)) :
      (readConjunction ts).value.Intact := h
  ((follows_readConjunction ts).extend (extends_readMoreConjunctions _ _ _ _) hfirst).rule

/-! ### Statements -/

/-- The kind of the token that a statement begins with. -/
def StatementHead.kind : StatementHead → Kind
  | name _ => ident
  | ifWord => kwIf
  | whileWord => kwWhile
  | breakWord => kwBreak
  | returnWord => kwReturn
  | readWord => kwRead
  | printWord => kwPrint
  | brace => leftBrace
  | semicolon => .semicolon

theorem kind_of_statementHead? {t : Token} {head : StatementHead}
    (h : statementHead? t = some head) : t.kind = head.kind := by
  unfold statementHead? at h
  split at h <;> first | (cases h; assumption) | cases h

theorem statementsIntact_iff {ss : List Statement} :
    StatementsIntact ss ↔ ∀ s ∈ ss, s.Intact := by
  induction ss with
  | nil => simp [StatementsIntact]
  | cons s ss ih => simp [StatementsIntact, ih]

theorem takes_assignOp {t : Token} {op : AssignOp} (h : assignOp? t.kind = some op)
    (ts : List Token) : Takes assignop (t :: ts) ts := by
  refine .rule ?_
  simp only [production, takes_alt, takes_token]
  unfold assignOp? at h
  split at h <;> simp_all

theorem follows_readAction (ts : List Token) : (readAction ts).Follows Action.Intact
    (assignop ++ expr ||| actPars ||| increment ||| decrement) := by
  cases ts with
  | nil => exact fun h => h.elim
  | cons t ts =>
      rw [readAction]
      split
      · next op hop =>
          exact fun ha => .left (.left (.left ((takes_assignOp hop ts).seq
            (follows_readExpr ts ha))))
      · next hkind =>
          exact fun ha => .left (.left (.right (.rule (((takes_token.2 ⟨t, rfl, hkind⟩).seq
            (follows_readArguments ts ha.1)).seq (follows_accept rightParen _ ha.2)))))
      · next hkind => exact fun _ => .left (.right (takes_token.2 ⟨t, rfl, hkind⟩))
      · next hkind => exact fun _ => .right (takes_token.2 ⟨t, rfl, hkind⟩)
      · exact fun h => h.elim

theorem takes_readGuard {a : Ebnf} {ts us : List Token} (h : Takes a us ts)
    (hg : GuardIntact (readGuard ts).value.1 (readGuard ts).value.2.1 (readGuard ts).value.2.2) :
    Takes (a ++ leftParen ++ condition ++ rightParen) us (readGuard ts).rest :=
  ((h.seq (follows_accept leftParen ts hg.1)).seq (follows_readCondition _ hg.2.1)).seq
    (follows_accept rightParen _ hg.2.2)

theorem follows_readWidth (ts : List Token) :
    (readWidth ts).Follows (· ≠ some none) (opt (comma ++ number)) := by
  intro hw
  by_cases hcomma : (accept .comma ts).value = true
  · have hread : readWidth ts = ((readNumber (accept .comma ts).rest).map some).widen
        (accept .comma ts).suffix := by
      rw [readWidth, Parsed.andThen, if_pos hcomma]
    rw [hread] at hw ⊢
    have hnumber : (readNumber (accept .comma ts).rest).value.isSome :=
      Option.isSome_iff_ne_none.2 fun hnone => hw (congrArg some hnone)
    exact .some ((follows_accept .comma ts hcomma).seq (follows_readNumber _ hnumber))
  · have hread : readWidth ts = (Parsed.nothing none (accept .comma ts).rest).widen
        (accept .comma ts).suffix := by
      rw [readWidth, Parsed.andThen, if_neg hcomma]
    rw [hread, Parsed.rest_widen, Parsed.nothing, rest_accept_of_false hcomma]
    exact .none

mutual

theorem follows_readStatement (ts : List Token) :
    (readStatement ts).Follows Statement.Intact statement := by
  match ts with
  | [] =>
      rw [readStatement]
      intro hs
      simp [Parsed.nothing, Statement.Intact] at hs
  | t :: ts₁ =>
      rw [readStatement]
      split
      · intro hs
        simp [Parsed.nothing, Statement.Intact] at hs
      · next head hhead => exact follows_readAfter hhead ts₁
termination_by 2 * ts.length

theorem follows_readAfter {t : Token} {head : StatementHead} (hhead : statementHead? t = some head)
    (ts : List Token) (hs : (readAfter head ts).value.Intact) :
    Takes statement (t :: ts) (readAfter head ts).rest := by
  have htoken : Takes head.kind (t :: ts) ts :=
    takes_token.2 ⟨t, rfl, kind_of_statementHead? hhead⟩
  refine .rule ?_
  simp only [production, takes_alt, or_assoc]
  cases head with
  | name n =>
      rw [readAfter] at hs ⊢
      dsimp only at hs ⊢
      rw [Statement.Intact] at hs
      have hd := (extends_readSelectors _ ts ts _ hs.1).2
      exact .inl (((Takes.rule (n := designator) (htoken.seq hd)).seq
        (follows_readAction _ hs.2.1)).seq (follows_accept .semicolon _ hs.2.2))
  | ifWord =>
      have := (readGuard ts).length_rest_le
      have := (readStatement (readGuard ts).rest).length_rest_le
      have := (accept .kwElse (readStatement (readGuard ts).rest).rest).length_rest_le
      have hbody := follows_readStatement (readGuard ts).rest
      have hother := follows_readStatement
        (accept .kwElse (readStatement (readGuard ts).rest).rest).rest
      rw [readAfter] at hs ⊢
      dsimp only at hs ⊢
      split at hs
      · next helse =>
          rw [Statement.Intact] at hs
          rw [if_pos helse]
          exact .inr (.inl (((takes_readGuard htoken hs.1).seq (hbody hs.2.1)).seq
            (.some ((follows_accept .kwElse _ helse).seq (hother hs.2.2)))))
      · next helse =>
          rw [Statement.Intact] at hs
          rw [if_neg helse]
          exact .inr (.inl (((takes_readGuard htoken hs.1).seq (hbody hs.2)).seq .none))
  | whileWord =>
      rw [readAfter] at hs ⊢
      dsimp only at hs ⊢
      rw [Statement.Intact] at hs
      have := (readGuard ts).length_rest_le
      exact .inr (.inr (.inl ((takes_readGuard htoken hs.1).seq (follows_readStatement _ hs.2))))
  | breakWord =>
      rw [readAfter] at hs ⊢
      rw [Parsed.value_map, Statement.Intact] at hs
      exact .inr (.inr (.inr (.inl (htoken.seq (follows_accept .semicolon ts hs)))))
  | returnWord =>
      rw [readAfter] at hs ⊢
      split at hs
      · next hstarts =>
          rw [if_pos hstarts]
          rw [Statement.Intact] at hs
          exact .inr (.inr (.inr (.inr (.inl ((htoken.seq (.some (follows_readExpr ts
            (hs.1 _ rfl)))).seq (follows_accept .semicolon _ hs.2))))))
      · next hstarts =>
          rw [if_neg hstarts]
          rw [Parsed.value_map, Statement.Intact] at hs
          exact .inr (.inr (.inr (.inr (.inl ((htoken.seq .none).seq
            (follows_accept .semicolon _ hs.2))))))
  | readWord =>
      rw [readAfter] at hs ⊢
      dsimp only at hs ⊢
      rw [Statement.Intact] at hs
      exact .inr (.inr (.inr (.inr (.inr (.inl ((((htoken.seq (follows_accept leftParen ts hs.1)).seq
        (follows_readDesignator _ hs.2.1)).seq (follows_accept rightParen _ hs.2.2.1)).seq
        (follows_accept .semicolon _ hs.2.2.2)))))))
  | printWord =>
      rw [readAfter] at hs ⊢
      dsimp only at hs ⊢
      rw [Statement.Intact] at hs
      exact .inr (.inr (.inr (.inr (.inr (.inr (.inl
        (((((htoken.seq (follows_accept leftParen ts hs.1)).seq (follows_readExpr _ hs.2.1)).seq
        (follows_readWidth _ hs.2.2.1)).seq (follows_accept rightParen _ hs.2.2.2.1)).seq
        (follows_accept .semicolon _ hs.2.2.2.2))))))))
  | brace =>
      rw [readAfter] at hs ⊢
      dsimp only at hs ⊢
      rw [Statement.Intact] at hs
      have hmany := (extends_readStatements [] ts ts _ hs.1).2
      exact .inr (.inr (.inr (.inr (.inr (.inr (.inr (.inl
        (.rule ((htoken.seq hmany).seq (follows_accept .rightBrace _ hs.2))))))))))
  | semicolon =>
      rw [readAfter]
      exact .inr (.inr (.inr (.inr (.inr (.inr (.inr (.inr htoken)))))))
termination_by 2 * ts.length + 1

theorem extends_readStatements (before : List Statement) (start ts : List Token)
    (h : ts <:+ start) : (readStatements before start ts h).Extends StatementsIntact
      before.reverse ts (many statement) := by
  match ts, h with
  | [], h =>
      rw [readStatements]
      exact fun hss => ⟨hss, .nil⟩
  | t :: ts₁, h =>
      rw [readStatements]
      split
      · next head hhead =>
          intro hss
          have := (readAfter head ts₁).length_rest_le
          obtain ⟨hbefore, hmore⟩ :=
            extends_readStatements _ start (readAfter head ts₁).rest _ hss
          simp only [statementsIntact_iff, List.mem_reverse, List.forall_mem_cons] at hbefore ⊢
          exact ⟨hbefore.2, .cons (follows_readAfter hhead ts₁ hbefore.1) hmore⟩
      · split
        · exact fun hss => ⟨hss, .nil⟩
        · intro hss
          have := (skipTo resumesStatement ts₁).length_rest_le
          have hbefore := (extends_readStatements _ start (skipTo resumesStatement ts₁).rest _
            hss).1
          simp only [statementsIntact_iff, List.mem_reverse, List.forall_mem_cons] at hbefore
          rw [Statement.Intact] at hbefore
          exact hbefore.1.elim
termination_by 2 * ts.length

end

/-! ### Programs -/

theorem follows_readArrayMark (ts : List Token) :
    (readArrayMark ts).Follows (· ≠ some false) (opt (leftBracket ++ rightBracket)) := by
  intro hm
  by_cases hopened : (accept .leftBracket ts).value = true
  · have hread : readArrayMark ts = ((accept .rightBracket (accept .leftBracket ts).rest).map
        some).widen (accept .leftBracket ts).suffix := by
      rw [readArrayMark, Parsed.andThen, if_pos hopened]
    rw [hread] at hm ⊢
    have hclosed : (accept .rightBracket (accept .leftBracket ts).rest).value = true :=
      Bool.of_not_eq_false fun hfalse => hm (congrArg some hfalse)
    exact .some ((follows_accept .leftBracket ts hopened).seq (follows_accept _ _ hclosed))
  · have hread : readArrayMark ts = (Parsed.nothing none (accept .leftBracket ts).rest).widen
        (accept .leftBracket ts).suffix := by
      rw [readArrayMark, Parsed.andThen, if_neg hopened]
    rw [hread, Parsed.rest_widen, Parsed.nothing, rest_accept_of_false hopened]
    exact .none

theorem follows_readTypeName (ts : List Token) :
    (readTypeName ts).Follows TypeName.Intact type := fun ht =>
  .rule ((follows_readName ts ht.1).seq (follows_readArrayMark _ ht.2))

theorem extends_readMoreNames (before : List (Option String)) (start ts : List Token)
    (h : ts <:+ start) : (readMoreNames before start ts h).Extends
      (fun names => ∀ name ∈ names, name.isSome) before.reverse ts (many (comma ++ ident)) := by
  match ts, h with
  | [], h =>
      rw [readMoreNames]
      exact fun hnames => ⟨hnames, .nil⟩
  | t :: ts₁, h =>
      rw [readMoreNames]
      split
      · next hkind =>
          intro hnames
          have := (readName ts₁).length_rest_le
          obtain ⟨hbefore, hmore⟩ :=
            extends_readMoreNames _ start (readName ts₁).rest _ hnames
          simp only [List.mem_reverse, List.forall_mem_cons] at hbefore ⊢
          exact ⟨hbefore.2, .cons ((takes_token.2 ⟨t, rfl, hkind⟩).seq
            (follows_readName ts₁ hbefore.1)) hmore⟩
      · exact fun hnames => ⟨hnames, .nil⟩
termination_by ts.length

/-- What follows the type in the declaration of variables. -/
theorem takes_readVariables {name : TypeName} {ts us : List Token} (h : Takes type us ts)
    (hd : (readVariables name ts).value.Intact) : Takes varDecl us (readVariables name ts).rest :=
  .rule (((h.seq (follows_readName ts hd.2.1)).seq (extends_readMoreNames [] _ _ _ hd.2.2.1).2).seq
    (follows_accept .semicolon _ hd.2.2.2))

theorem takes_readVariablesAfter {t : Token} (hkind : t.kind = ident) (ts : List Token)
    (hd : (readVariablesAfter t.name ts).value.Intact) :
    Takes varDecl (t :: ts) (readVariablesAfter t.name ts).rest :=
  takes_readVariables (.rule ((takes_token.2 ⟨t, rfl, hkind⟩).seq
    (follows_readArrayMark ts hd.1.2))) hd

theorem extends_readVariableDecls (before : List VariableDecl) (start ts : List Token)
    (h : ts <:+ start) : (readVariableDecls before start ts h).Extends
      (fun ds => ∀ d ∈ ds, d.Intact) before.reverse ts (many varDecl) := by
  match ts, h with
  | [], h =>
      rw [readVariableDecls]
      exact fun hds => ⟨hds, .nil⟩
  | t :: ts₁, h =>
      rw [readVariableDecls]
      split
      · next hkind =>
          intro hds
          have := (readVariablesAfter t.name ts₁).length_rest_le
          obtain ⟨hbefore, hmore⟩ :=
            extends_readVariableDecls _ start (readVariablesAfter t.name ts₁).rest _ hds
          simp only [List.mem_reverse, List.forall_mem_cons] at hbefore ⊢
          exact ⟨hbefore.2, .cons (takes_readVariablesAfter hkind ts₁ hbefore.1) hmore⟩
      · exact fun hds => ⟨hds, .nil⟩
termination_by ts.length

theorem follows_readConstantValue (ts : List Token) :
    (readConstantValue ts).Follows ConstantValue.Intact (number ||| charConst) := by
  cases ts with
  | nil => exact fun h => absurd rfl h
  | cons t ts =>
      rw [readConstantValue]
      split
      · next hkind => exact fun _ => .left (takes_token.2 ⟨t, rfl, hkind⟩)
      · next hkind => exact fun _ => .right (takes_token.2 ⟨t, rfl, hkind⟩)
      · exact fun h => absurd rfl h

theorem takes_readConstant {t : Token} (hkind : t.kind = kwFinal) (ts : List Token)
    (hd : (readConstant ts).value.Intact) : Takes constDecl (t :: ts) (readConstant ts).rest := by
  obtain ⟨htype, hname, hassigned, hvalue, hended⟩ := hd
  exact .rule ((((((takes_token.2 ⟨t, rfl, hkind⟩).seq (follows_readTypeName ts htype)).seq
    (follows_readName _ hname)).seq (follows_accept .assign _ hassigned)).seq
    (follows_readConstantValue _ hvalue)).seq (follows_accept .semicolon _ hended))

theorem takes_readClass {t : Token} (hkind : t.kind = kwClass) (ts : List Token)
    (hd : (readClass ts).value.Intact) : Takes classDecl (t :: ts) (readClass ts).rest := by
  obtain ⟨hname, hopened, hfields, hclosed⟩ := hd
  exact .rule (((((takes_token.2 ⟨t, rfl, hkind⟩).seq (follows_readName ts hname)).seq
    (follows_accept .leftBrace _ hopened)).seq (extends_readVariableDecls [] _ _ _ hfields).2).seq
    (follows_accept .rightBrace _ hclosed))

theorem extends_readDeclarations (before : List Declaration) (start ts : List Token)
    (h : ts <:+ start) : (readDeclarations before start ts h).Extends
      (fun ds => ∀ d ∈ ds, d.Intact) before.reverse ts
      (many (constDecl ||| varDecl ||| classDecl)) := by
  match ts, h with
  | [], h =>
      rw [readDeclarations]
      exact fun hds => ⟨hds, .nil⟩
  | t :: ts₁, h =>
      rw [readDeclarations]
      split
      · next hkind =>
          intro hds
          have := (readConstant ts₁).length_rest_le
          obtain ⟨hbefore, hmore⟩ :=
            extends_readDeclarations _ start (readConstant ts₁).rest _ hds
          simp only [List.mem_reverse, List.forall_mem_cons] at hbefore ⊢
          exact ⟨hbefore.2, .cons (.left (.left (takes_readConstant hkind ts₁ hbefore.1))) hmore⟩
      · next hkind =>
          intro hds
          have := (readVariablesAfter t.name ts₁).length_rest_le
          obtain ⟨hbefore, hmore⟩ :=
            extends_readDeclarations _ start (readVariablesAfter t.name ts₁).rest _ hds
          simp only [List.mem_reverse, List.forall_mem_cons] at hbefore ⊢
          exact ⟨hbefore.2,
            .cons (.left (.right (takes_readVariablesAfter hkind ts₁ hbefore.1))) hmore⟩
      · next hkind =>
          intro hds
          have := (readClass ts₁).length_rest_le
          obtain ⟨hbefore, hmore⟩ := extends_readDeclarations _ start (readClass ts₁).rest _ hds
          simp only [List.mem_reverse, List.forall_mem_cons] at hbefore ⊢
          exact ⟨hbefore.2, .cons (.right (takes_readClass hkind ts₁ hbefore.1)) hmore⟩
      · exact fun hds => ⟨hds, .nil⟩
      · intro hds
        have := (skipTo resumesDeclaration ts₁).length_rest_le
        have hbefore := (extends_readDeclarations _ start
          (skipTo resumesDeclaration ts₁).rest _ hds).1
        simp only [List.mem_reverse, List.forall_mem_cons] at hbefore
        exact hbefore.1.elim
termination_by ts.length

theorem takes_readParameter {ts : List Token} (hp : (readParameter ts).value.Intact) :
    Takes (type ++ ident) ts (readParameter ts).rest :=
  (follows_readTypeName ts hp.1).seq (follows_readName _ hp.2)

theorem extends_readMoreParameters (before : List Parameter) (start ts : List Token)
    (h : ts <:+ start) : (readMoreParameters before start ts h).Extends
      (fun ps => ∀ p ∈ ps, p.Intact) before.reverse ts (many (comma ++ type ++ ident)) := by
  match ts, h with
  | [], h =>
      rw [readMoreParameters]
      exact fun hps => ⟨hps, .nil⟩
  | t :: ts₁, h =>
      rw [readMoreParameters]
      split
      · next hkind =>
          intro hps
          have := (readParameter ts₁).length_rest_le
          obtain ⟨hbefore, hmore⟩ :=
            extends_readMoreParameters _ start (readParameter ts₁).rest _ hps
          simp only [List.mem_reverse, List.forall_mem_cons] at hbefore ⊢
          obtain ⟨htype, hname⟩ := hbefore.1
          exact ⟨hbefore.2, .cons (((takes_token.2 ⟨t, rfl, hkind⟩).seq
            (follows_readTypeName ts₁ htype)).seq (follows_readName _ hname)) hmore⟩
      · exact fun hps => ⟨hps, .nil⟩
termination_by ts.length

theorem follows_readParameters (ts : List Token) :
    (readParameters ts).Follows (fun ps => ∀ p ∈ ps, p.Intact) (opt formPars) := by
  rw [readParameters]
  split
  · intro hps
    have hextends := extends_readMoreParameters [(readParameter ts).value]
      (readParameter ts).rest (readParameter ts).rest List.suffix_rfl
    obtain ⟨hfirst, hmore⟩ := hextends hps
    exact .some (.rule ((takes_readParameter (hfirst _ (by simp))).seq hmore))
  · exact fun _ => .none

/-- What follows the type of a method. -/
theorem takes_readMethod {result : Option TypeName} {ts us : List Token}
    (h : Takes (type ||| kwVoid) us ts) (hd : (readMethod result ts).value.Intact) :
    Takes methodDecl us (readMethod result ts).rest := by
  obtain ⟨-, hname, hopened, hparameters, hclosed, hlocals, hbodyOpened, hbody, hbodyClosed⟩ := hd
  have hblock := Takes.rule (n := block) (((follows_accept .leftBrace _ hbodyOpened).seq
    (extends_readStatements [] _ _ _ hbody).2).seq (follows_accept .rightBrace _ hbodyClosed))
  exact .rule ((((((h.seq (follows_readName ts hname)).seq (follows_accept .leftParen _ hopened)).seq
    (follows_readParameters _ hparameters)).seq (follows_accept .rightParen _ hclosed)).seq
    (extends_readVariableDecls [] _ _ _ hlocals).2).seq hblock)

theorem extends_readMembers (before : List Member) (start ts : List Token) (h : ts <:+ start) :
    (readMembers before start ts h).Extends (fun ms => ∀ m ∈ ms, m.Intact) before.reverse ts
      (many methodDecl) := by
  match ts, h with
  | [], h =>
      rw [readMembers]
      exact fun hms => ⟨hms, .nil⟩
  | t :: ts₁, h =>
      rw [readMembers]
      split
      · next hkind =>
          intro hms
          have := (readMethod none ts₁).length_rest_le
          obtain ⟨hbefore, hmore⟩ :=
            extends_readMembers _ start (readMethod none ts₁).rest _ hms
          simp only [List.mem_reverse, List.forall_mem_cons] at hbefore ⊢
          exact ⟨hbefore.2, .cons (takes_readMethod (.right (takes_token.2 ⟨t, rfl, hkind⟩))
            hbefore.1) hmore⟩
      · next hkind =>
          intro hms
          have := (readArrayMark ts₁).length_rest_le
          have := (readMethod (some ⟨some t.name, (readArrayMark ts₁).value⟩)
            (readArrayMark ts₁).rest).length_rest_le
          obtain ⟨hbefore, hmore⟩ := extends_readMembers _ start
            (readMethod (some ⟨some t.name, (readArrayMark ts₁).value⟩)
              (readArrayMark ts₁).rest).rest _ hms
          simp only [List.mem_reverse, List.forall_mem_cons] at hbefore ⊢
          have hmark := (hbefore.1.type _ rfl).2
          exact ⟨hbefore.2, .cons (takes_readMethod (.left (.rule
            ((takes_token.2 ⟨t, rfl, hkind⟩).seq (follows_readArrayMark ts₁ hmark))))
            hbefore.1) hmore⟩
      · exact fun hms => ⟨hms, .nil⟩
      · intro hms
        have := (skipTo resumesMember ts₁).length_rest_le
        have hbefore := (extends_readMembers _ start (skipTo resumesMember ts₁).rest _ hms).1
        simp only [List.mem_reverse, List.forall_mem_cons] at hbefore
        exact hbefore.1.elim
termination_by ts.length

/-- Tokens that are read as a program without a gap are a program of the grammar. -/
theorem derives_of_intact {ts : List Token} (h : (Program.read ts).Intact) :
    Derives program ts := by
  obtain ⟨hannounced, hname, hdeclarations, hopened, hmembers, hclosed, hcomplete⟩ := h
  have htakes : Takes program ts (readProgram ts).rest :=
    .rule ((((((follows_accept .kwProgram ts hannounced).seq (follows_readName _ hname)).seq
      (extends_readDeclarations [] _ _ _ hdeclarations).2).seq
      (follows_accept .leftBrace _ hopened)).seq (extends_readMembers [] _ _ _ hmembers).2).seq
      (follows_accept .rightBrace _ hclosed))
  have hrest : (readProgram ts).rest = [] := List.isEmpty_iff.1 hcomplete
  rw [hrest] at htakes
  exact takes_nil.1 htakes

end MicroJava.Tree
