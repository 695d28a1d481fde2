import MicroJava.Proofs.Soundness

/-!
# What follows the grammar is read without a gap

If the grammar takes tokens off the front, then so does the reader for it, and the tree that it makes
has no gap (`Parsed.Finds`). A reader looks one token ahead to see where it ends, so the tokens
behind must not begin with one that goes on: an operator behind a product, a selector behind a
designator.

A statement in a branch of another one takes every `else` that it can get. `Hangs` describes what
follows a statement: branches that begin with `else`, up to a token that is none. Whichever of these
branches a statement takes, those that are left still belong to the statements around it.
-/

namespace MicroJava.Tree

open Grammar Kind Nonterminal Ebnf

/-- What was read is good, and the tokens `us` are left. -/
def Parsed.Finds {α : Type} {ts : List Token} (p : Parsed α ts) (good : α → Prop)
    (us : List Token) : Prop :=
  good p.value ∧ p.rest = us

/-- Whether a designator goes on with a token of this kind. -/
def continuesDesignator : Kind → Bool
  | period | leftBracket => true
  | _ => false

/-- Whether a factor goes on with a token of this kind. -/
def continuesFactor : Kind → Bool
  | leftParen => true
  | k => continuesDesignator k

/-- Whether a product goes on with a token of this kind. -/
def continuesTerm : Kind → Bool
  | times | slash | percent | power => true
  | k => continuesFactor k

/-- Whether a sum goes on with a token of this kind. -/
def continuesExpr : Kind → Bool
  | plus | minus => true
  | k => continuesTerm k

/-! ### The next token -/

/-- Whether the first token is of a kind for which `p` holds is `value` wherever `a` is taken. -/
def Begins (p : Kind → Bool) (value : Bool) (a : Ebnf) : Prop :=
  ∀ ts us, Takes a ts us → startsWith p ts = value

section Next

variable {p q : Kind → Bool} {value : Bool} {a b : Ebnf} {k : Kind} {n : Nonterminal}
  {ts us : List Token}

namespace Begins

theorem token (h : p k = value) : Begins p value k := by
  rintro ts us hk
  obtain ⟨t, rfl, rfl⟩ := takes_token.1 hk
  exact h

theorem rule (h : Begins p value (production n)) : Begins p value n :=
  fun _ _ hn => h _ _ (takes_rule.1 hn)

theorem seq (h : Begins p value a) : Begins p value (a ++ b) := by
  intro ts us hab
  obtain ⟨_, ha, -⟩ := takes_seq.1 hab
  exact h _ _ ha

theorem alt (ha : Begins p value a) (hb : Begins p value b) : Begins p value (a ||| b) :=
  fun _ _ hab => (takes_alt.1 hab).elim (ha _ _) (hb _ _)

theorem opt (ha : Begins p value a) (hb : Begins p value b) : Begins p value (opt a ++ b) := by
  intro ts us hab
  obtain ⟨_, hopt, hb'⟩ := takes_seq.1 hab
  rcases takes_opt.1 hopt with h | rfl
  · exact ha _ _ h
  · exact hb _ _ hb'

/-- The first token of any number of things is that of one of them or of what follows. -/
theorem many (ha : Begins p value a) (h : Takes (many a) ts us)
    (hus : startsWith p us = value) : startsWith p ts = value := by
  rcases takes_many.1 h with rfl | ⟨_, hfirst, -⟩
  · exact hus
  · exact ha _ _ hfirst

theorem addop (h : ∀ k ∈ [plus, minus], p k = value) : Begins p value addop :=
  .rule ((token (h _ (by simp))).alt (token (h _ (by simp))))

theorem mulop (h : ∀ k ∈ [times, slash, percent], p k = value) : Begins p value mulop :=
  .rule (((token (h _ (by simp))).alt (token (h _ (by simp)))).alt (token (h _ (by simp))))

theorem designator (h : p ident = value) : Begins p value designator :=
  .rule (token h).seq

theorem factor (h : ∀ k ∈ [ident, number, charConst, kwNew, leftParen], p k = value) :
    Begins p value factor :=
  .rule (((((designator (h _ (by simp))).seq.alt (token (h _ (by simp)))).alt
    (token (h _ (by simp)))).alt (token (h _ (by simp))).seq.seq).alt
    (token (h _ (by simp))).seq.seq)

theorem term (h : ∀ k ∈ [ident, number, charConst, kwNew, leftParen], p k = value) :
    Begins p value term :=
  .rule (factor h).seq

theorem expr (h : ∀ k ∈ [minus, ident, number, charConst, kwNew, leftParen], p k = value) :
    Begins p value expr :=
  .rule (opt (token (h _ (by simp))) (term fun k hk => h k (List.mem_cons_of_mem _ hk))).seq

/-- What extends a sum begins with an operator. -/
theorem sumTail (h : ∀ k ∈ [plus, minus], p k = value) :
    Begins p value (.rule .addop ++ .rule .term) :=
  (addop h).seq

/-- What extends a product begins with an operator. -/
theorem productTail (h : ∀ k ∈ [times, slash, percent, power], p k = value) :
    Begins p value (.rule .mulop ++ .rule .factor ||| .token power ++ .token number) :=
  (mulop fun k hk => h k (List.mem_append_left [power] hk)).seq.alt (token (h _ (by simp))).seq

end Begins

theorem startsWith_mono (h : ∀ k, p k → q k) (hq : startsWith q ts = false) :
    startsWith p ts = false := by
  cases ts with
  | nil => rfl
  | cons t ts =>
      rw [startsWith, Bool.eq_false_iff] at hq ⊢
      exact fun hp => hq (h _ hp)

theorem ends_term (h : startsWith continuesExpr us = false) :
    startsWith continuesTerm us = false :=
  startsWith_mono (fun k hk => by cases k <;> first | rfl | cases hk) h

theorem ends_factor (h : startsWith continuesTerm us = false) :
    startsWith continuesFactor us = false :=
  startsWith_mono (fun k hk => by cases k <;> first | rfl | cases hk) h

theorem ends_designator (h : startsWith continuesFactor us = false) :
    startsWith continuesDesignator us = false :=
  startsWith_mono (fun k hk => by cases k <;> first | rfl | cases hk) h

end Next

section Single

variable {k : Kind} {ts us : List Token}

theorem finds_accept (h : Takes k ts us) : (accept k ts).Finds (· = true) us := by
  obtain ⟨t, rfl, hkind⟩ := takes_token.1 h
  rw [accept, if_pos hkind]
  exact ⟨rfl, rfl⟩

theorem accept_eq_false (h : startsWith (· = k) ts = false) :
    (accept k ts).value = false ∧ (accept k ts).rest = ts := by
  cases ts with
  | nil => exact ⟨rfl, rfl⟩
  | cons t ts =>
      rw [accept, if_neg (by simpa [startsWith] using h)]
      exact ⟨rfl, rfl⟩

theorem finds_readName (h : Takes ident ts us) :
    (readName ts).Finds (fun name => name.isSome) us := by
  obtain ⟨t, rfl, hkind⟩ := takes_token.1 h
  rw [readName, if_pos hkind]
  exact ⟨rfl, rfl⟩

theorem finds_readNumber (h : Takes number ts us) :
    (readNumber ts).Finds (fun n => n.isSome) us := by
  obtain ⟨t, rfl, hkind⟩ := takes_token.1 h
  rw [readNumber, if_pos hkind]
  exact ⟨rfl, rfl⟩

theorem exists_addOp (h : Takes addop ts us) : ∃ t op, ts = t :: us ∧ addOp? t.kind = some op := by
  simp only [takes_rule, production, takes_alt, takes_token] at h
  rcases h with ⟨t, rfl, hkind⟩ | ⟨t, rfl, hkind⟩
  · exact ⟨t, .plus, rfl, by rw [hkind]; rfl⟩
  · exact ⟨t, .minus, rfl, by rw [hkind]; rfl⟩

theorem exists_mulOp (h : Takes mulop ts us) : ∃ t op, ts = t :: us ∧ mulOp? t.kind = some op := by
  simp only [takes_rule, production, takes_alt, takes_token] at h
  rcases h with (⟨t, rfl, hkind⟩ | ⟨t, rfl, hkind⟩) | ⟨t, rfl, hkind⟩
  · exact ⟨t, .times, rfl, by rw [hkind]; rfl⟩
  · exact ⟨t, .slash, rfl, by rw [hkind]; rfl⟩
  · exact ⟨t, .percent, rfl, by rw [hkind]; rfl⟩

end Single

/-! ### Expressions -/

mutual

theorem finds_readExpr {ts us : List Token} (h : Takes expr ts us)
    (hus : startsWith continuesExpr us = false) : (readExpr ts).Finds Expr.Intact us := by
  obtain ⟨ts₂, h₂, hsum⟩ := takes_seq.1 (takes_rule.1 h)
  obtain ⟨ts₁, hminus, hterm⟩ := takes_seq.1 h₂
  have hts₂ : startsWith continuesTerm ts₂ = false :=
    (Begins.sumTail (by decide)).many hsum (ends_term hus)
  rw [readExpr]
  dsimp only
  have := (accept .minus ts).length_rest_le
  have := (readTerm (accept .minus ts).rest).length_rest_le
  rcases takes_opt.1 hminus with hminus | rfl
  · obtain ⟨hvalue, hrest⟩ := finds_accept hminus
    rw [← hrest] at hterm
    obtain ⟨hfirst, hrest'⟩ := finds_readTerm hterm hts₂
    rw [← hrest'] at hsum
    refine finds_readSum _ _ hsum hus ?_
    rw [if_pos hvalue, Expr.Intact]
    exact hfirst
  · obtain ⟨hvalue, hrest⟩ := accept_eq_false (k := minus) (Begins.term (by decide) _ _ hterm)
    rw [← hrest] at hterm
    obtain ⟨hfirst, hrest'⟩ := finds_readTerm hterm hts₂
    rw [← hrest'] at hsum
    refine finds_readSum _ _ hsum hus ?_
    rw [if_neg (by simp [hvalue]), Expr.Intact]
    exact hfirst
termination_by 8 * ts.length + 4

theorem finds_readSum {ts us : List Token} {x : Expr} (start : List Token) (hts : ts <:+ start)
    (h : Takes (many (addop ++ term)) ts us) (hus : startsWith continuesExpr us = false)
    (hx : x.Intact) : (readSum x start ts hts).Finds Expr.Intact us := by
  rcases takes_many.1 h with rfl | ⟨ts₂, hnext, hmore⟩
  · cases us with
    | nil =>
        rw [readSum]
        exact ⟨hx, rfl⟩
    | cons t us =>
        rw [readSum]
        have hop : addOp? t.kind = none := by
          cases hkind : t.kind <;> simp [startsWith, continuesExpr, hkind] at hus <;> rfl
        rw [hop]
        exact ⟨hx, rfl⟩
  · obtain ⟨ts₁, hop, hterm⟩ := takes_seq.1 hnext
    obtain ⟨t, op, rfl, hkind⟩ := exists_addOp hop
    rw [readSum, hkind]
    dsimp only
    have := (readTerm ts₁).length_rest_le
    have hts₂ : startsWith continuesTerm ts₂ = false :=
      (Begins.sumTail (by decide)).many hmore (ends_term hus)
    obtain ⟨hright, hrest⟩ := finds_readTerm hterm hts₂
    rw [← hrest] at hmore
    refine finds_readSum _ _ hmore hus ?_
    rw [Expr.Intact]
    exact ⟨hx, hright⟩
termination_by 8 * ts.length
decreasing_by all_goals (subst_vars; simp only [List.length_cons] at *; omega)

theorem finds_readTerm {ts us : List Token} (h : Takes term ts us)
    (hus : startsWith continuesTerm us = false) : (readTerm ts).Finds Term.Intact us := by
  obtain ⟨ts₁, hfactor, hmore⟩ := takes_seq.1 (takes_rule.1 h)
  rw [readTerm]
  have := (readFactor ts).length_rest_le
  have hts₁ : startsWith continuesFactor ts₁ = false :=
    (Begins.productTail (by decide)).many hmore (ends_factor hus)
  obtain ⟨hfirst, hrest⟩ := finds_readFactor hfactor hts₁
  rw [← hrest] at hmore
  refine finds_readProduct _ _ hmore hus ?_
  rw [Term.Intact]
  exact hfirst
termination_by 8 * ts.length + 3

theorem finds_readProduct {ts us : List Token} {x : Term} (start : List Token) (hts : ts <:+ start)
    (h : Takes (many (mulop ++ factor ||| power ++ number)) ts us)
    (hus : startsWith continuesTerm us = false) (hx : x.Intact) :
    (readProduct x start ts hts).Finds Term.Intact us := by
  rcases takes_many.1 h with rfl | ⟨ts₂, hnext, hmore⟩
  · cases us with
    | nil =>
        rw [readProduct]
        exact ⟨hx, rfl⟩
    | cons t us =>
        rw [readProduct]
        have hop : mulOp? t.kind = none ∧ t.kind ≠ power := by
          cases hkind : t.kind <;> simp [startsWith, continuesTerm, hkind] at hus <;> simp [mulOp?]
        rw [hop.1]
        dsimp only
        rw [if_neg hop.2]
        exact ⟨hx, rfl⟩
  · have hts₂ : startsWith continuesFactor ts₂ = false :=
      (Begins.productTail (by decide)).many hmore
        (ends_factor hus)
    rcases takes_alt.1 hnext with hnext | hnext
    · obtain ⟨ts₁, hop, hfactor⟩ := takes_seq.1 hnext
      obtain ⟨t, op, rfl, hkind⟩ := exists_mulOp hop
      rw [readProduct, hkind]
      dsimp only
      have := (readFactor ts₁).length_rest_le
      obtain ⟨hright, hrest⟩ := finds_readFactor hfactor hts₂
      rw [← hrest] at hmore
      refine finds_readProduct _ _ hmore hus ?_
      rw [Term.Intact]
      exact ⟨hx, hright⟩
    · obtain ⟨ts₁, hpower, hnumber⟩ := takes_seq.1 hnext
      obtain ⟨t, rfl, hkind⟩ := takes_token.1 hpower
      rw [readProduct]
      simp only [hkind, mulOp?, if_true]
      have := (readNumber ts₁).length_rest_le
      obtain ⟨hexponent, hrest⟩ := finds_readNumber hnumber
      rw [← hrest] at hmore
      refine finds_readProduct _ _ hmore hus ?_
      rw [Term.Intact]
      exact ⟨hx, hexponent⟩
termination_by 8 * ts.length
decreasing_by all_goals (subst_vars; simp only [List.length_cons] at *; omega)

theorem finds_readFactor {ts us : List Token} (h : Takes factor ts us)
    (hus : startsWith continuesFactor us = false) : (readFactor ts).Finds Factor.Intact us := by
  replace h := takes_rule.1 h
  simp only [production, takes_alt, or_assoc] at h
  rcases h with h | h | h | h | h
  · -- a designator, and a call of it if a parenthesis follows
    obtain ⟨ts₂, hd, hcall⟩ := takes_seq.1 h
    obtain ⟨ts₁, hname, hselectors⟩ := takes_seq.1 (takes_rule.1 hd)
    obtain ⟨t, rfl, hkind⟩ := takes_token.1 hname
    have hts₂ : startsWith continuesDesignator ts₂ = false := by
      rcases takes_opt.1 hcall with hcall | rfl
      · exact Begins.rule (Begins.token (by rfl)).seq.seq _ _ hcall
      · exact ends_designator hus
    have hfinds := finds_readSelectors ts₁ List.suffix_rfl hselectors hts₂
      (show (Designator.name (some t.name)).Intact by simp [Designator.Intact])
    have := (readSelectors (.name (some t.name)) ts₁ ts₁ List.suffix_rfl).length_rest_le
    rw [readFactor]
    simp only [hkind]
    generalize readSelectors (.name (some t.name)) ts₁ ts₁ List.suffix_rfl = d at *
    obtain ⟨hd', rfl⟩ := hfinds
    have := (accept .leftParen d.rest).length_rest_le
    rcases takes_opt.1 hcall with hcall | rfl
    · obtain ⟨ts₄, hcall, hclosed⟩ := takes_seq.1 (takes_rule.1 hcall)
      obtain ⟨ts₃, hopened, harguments⟩ := takes_seq.1 hcall
      obtain ⟨hopened', rfl⟩ := finds_accept hopened
      obtain ⟨harguments', rfl⟩ := finds_readArguments harguments hclosed
      obtain ⟨hclosed', rfl⟩ := finds_accept hclosed
      rw [if_pos hopened']
      exact ⟨by rw [Factor.Intact]; exact ⟨hd', harguments', hclosed'⟩, rfl⟩
    · have hcalled : startsWith (· = leftParen) d.rest = false :=
        startsWith_mono (fun k hk => by rw [of_decide_eq_true hk]; rfl) hus
      rw [if_neg (by simp [(accept_eq_false hcalled).1])]
      exact ⟨by rw [Factor.Intact]; exact hd', rfl⟩
  · obtain ⟨t, rfl, hkind⟩ := takes_token.1 h
    rw [readFactor]
    simp only [hkind]
    exact ⟨by rw [Factor.Intact]; trivial, rfl⟩
  · obtain ⟨t, rfl, hkind⟩ := takes_token.1 h
    rw [readFactor]
    simp only [hkind]
    exact ⟨by rw [Factor.Intact]; trivial, rfl⟩
  · obtain ⟨ts₂, h, hsize⟩ := takes_seq.1 h
    obtain ⟨ts₁, hnew, hname⟩ := takes_seq.1 h
    obtain ⟨t, rfl, hkind⟩ := takes_token.1 hnew
    obtain ⟨hname', rfl⟩ := finds_readName hname
    have := (readName ts₁).length_rest_le
    have := (accept .leftBracket (readName ts₁).rest).length_rest_le
    rw [readFactor]
    simp only [hkind]
    rcases takes_opt.1 hsize with hsize | rfl
    · obtain ⟨ts₄, hsize, hclosed⟩ := takes_seq.1 hsize
      obtain ⟨ts₃, hopened, he⟩ := takes_seq.1 hsize
      obtain ⟨hopened', rfl⟩ := finds_accept hopened
      obtain ⟨he', rfl⟩ := finds_readExpr he (Begins.token (by rfl) _ _ hclosed)
      obtain ⟨hclosed', rfl⟩ := finds_accept hclosed
      rw [if_pos hopened']
      exact ⟨by rw [Factor.Intact]; exact ⟨hname', he', hclosed'⟩, rfl⟩
    · have hsized : startsWith (· = leftBracket) (readName ts₁).rest = false :=
        startsWith_mono (fun k hk => by rw [of_decide_eq_true hk]; rfl) hus
      rw [if_neg (by simp [(accept_eq_false hsized).1])]
      exact ⟨by rw [Factor.Intact]; exact hname', rfl⟩
  · obtain ⟨ts₂, h, hclosed⟩ := takes_seq.1 h
    obtain ⟨ts₁, hopened, he⟩ := takes_seq.1 h
    obtain ⟨t, rfl, hkind⟩ := takes_token.1 hopened
    rw [readFactor]
    simp only [hkind]
    obtain ⟨he', rfl⟩ := finds_readExpr he (Begins.token (by rfl) _ _ hclosed)
    obtain ⟨hclosed', rfl⟩ := finds_accept hclosed
    exact ⟨by rw [Factor.Intact]; exact ⟨he', hclosed'⟩, rfl⟩
termination_by 8 * ts.length + 2
decreasing_by all_goals (subst_vars; simp only [List.length_cons] at *; omega)

theorem finds_readSelectors {ts us : List Token} {x : Designator} (start : List Token)
    (hts : ts <:+ start)
    (h : Takes (many (period ++ ident ||| leftBracket ++ expr ++ rightBracket)) ts us)
    (hus : startsWith continuesDesignator us = false) (hx : x.Intact) :
    (readSelectors x start ts hts).Finds Designator.Intact us := by
  rcases takes_many.1 h with rfl | ⟨ts₃, hnext, hmore⟩
  · cases us with
    | nil =>
        rw [readSelectors]
        exact ⟨hx, rfl⟩
    | cons t us =>
        rw [readSelectors]
        have hkind : t.kind ≠ period ∧ t.kind ≠ leftBracket := by
          cases hkind : t.kind <;> simp [startsWith, continuesDesignator, hkind] at hus ⊢
        rw [if_neg hkind.1, if_neg hkind.2]
        exact ⟨hx, rfl⟩
  · rcases takes_alt.1 hnext with hnext | hnext
    · obtain ⟨ts₁, hperiod, hname⟩ := takes_seq.1 hnext
      obtain ⟨t, rfl, hkind⟩ := takes_token.1 hperiod
      obtain ⟨hname', rfl⟩ := finds_readName hname
      have := (readName ts₁).length_rest_le
      have hfield : (Designator.field x (readName ts₁).value).Intact := by
        rw [Designator.Intact]
        exact ⟨hx, hname'⟩
      have hfinds := finds_readSelectors start
        ((readName ts₁).suffix.trans ((List.suffix_cons t ts₁).trans hts)) hmore hus hfield
      rw [readSelectors, if_pos hkind]
      exact hfinds
    · obtain ⟨ts₂, hnext, hclosed⟩ := takes_seq.1 hnext
      obtain ⟨ts₁, hopened, he⟩ := takes_seq.1 hnext
      obtain ⟨t, rfl, hkind⟩ := takes_token.1 hopened
      obtain ⟨he', rfl⟩ := finds_readExpr he (Begins.token (by rfl) _ _ hclosed)
      obtain ⟨hclosed', rfl⟩ := finds_accept hclosed
      have := (readExpr ts₁).length_rest_le
      have := (accept .rightBracket (readExpr ts₁).rest).length_rest_le
      have helement : (Designator.element x (readExpr ts₁).value
          (accept .rightBracket (readExpr ts₁).rest).value).Intact := by
        rw [Designator.Intact]
        exact ⟨hx, he', hclosed'⟩
      have hfinds := finds_readSelectors start ((accept .rightBracket _).suffix.trans
        ((readExpr ts₁).suffix.trans ((List.suffix_cons t ts₁).trans hts))) hmore hus helement
      rw [readSelectors, if_neg (by simp [hkind]), if_pos hkind]
      exact hfinds
termination_by 8 * ts.length
decreasing_by all_goals (subst_vars; simp only [List.length_cons] at *; omega)

theorem finds_readArguments {ts us vs : List Token}
    (h : Takes (opt (expr ++ many (comma ++ expr))) ts us) (hus : Takes rightParen us vs) :
    (readArguments ts).Finds ArgumentsIntact us := by
  rw [readArguments]
  rcases takes_opt.1 h with h | rfl
  · obtain ⟨ts₁, he, hmore⟩ := takes_seq.1 h
    have hts₁ : startsWith continuesExpr ts₁ = false :=
      (Begins.token (by rfl)).seq.many hmore (Begins.token (by rfl) _ _ hus)
    rw [if_pos (Begins.expr (by decide) _ _ he)]
    obtain ⟨he', rfl⟩ := finds_readExpr he hts₁
    have := (readExpr ts).length_rest_le
    obtain ⟨hes', rfl⟩ := finds_readMoreArguments hmore hus
    exact ⟨by rw [ArgumentsIntact]; exact ⟨he', hes'⟩, rfl⟩
  · have hstarts : startsWith startsExpr us = false := Begins.token (by rfl) _ _ hus
    rw [if_neg (by simp [hstarts])]
    exact ⟨by rw [Parsed.nothing, ArgumentsIntact]; trivial, rfl⟩
termination_by 8 * ts.length + 6

theorem finds_readMoreArguments {ts us vs : List Token} (h : Takes (many (comma ++ expr)) ts us)
    (hus : Takes rightParen us vs) : (readMoreArguments ts).Finds ArgumentsIntact us := by
  rcases takes_many.1 h with rfl | ⟨ts₂, hnext, hmore⟩
  · obtain ⟨t, rfl, hkind⟩ := takes_token.1 hus
    rw [readMoreArguments, if_neg (by simp [hkind])]
    exact ⟨by rw [Parsed.nothing, ArgumentsIntact]; trivial, rfl⟩
  · obtain ⟨ts₁, hcomma, he⟩ := takes_seq.1 hnext
    obtain ⟨t, rfl, hkind⟩ := takes_token.1 hcomma
    have hts₂ : startsWith continuesExpr ts₂ = false :=
      (Begins.token (by rfl)).seq.many hmore (Begins.token (by rfl) _ _ hus)
    obtain ⟨he', rfl⟩ := finds_readExpr he hts₂
    have := (readExpr ts₁).length_rest_le
    obtain ⟨hes', rfl⟩ := finds_readMoreArguments hmore hus
    rw [readMoreArguments, if_pos hkind]
    exact ⟨by rw [ArgumentsIntact]; exact ⟨he', hes'⟩, rfl⟩
termination_by 8 * ts.length + 5
decreasing_by all_goals (subst_vars; simp only [List.length_cons] at *; omega)

end

theorem finds_readDesignator {ts us : List Token} (h : Takes designator ts us)
    (hus : startsWith continuesDesignator us = false) :
    (readDesignator ts).Finds Designator.Intact us := by
  obtain ⟨ts₁, hname, hselectors⟩ := takes_seq.1 (takes_rule.1 h)
  obtain ⟨hname', rfl⟩ := finds_readName hname
  exact finds_readSelectors _ List.suffix_rfl hselectors hus (by rwa [Designator.Intact])

/-! ### Conditions -/

/-- Whether a conjunction goes on with a token of this kind. -/
def continuesConjunction : Kind → Bool
  | .and => true
  | k => continuesExpr k

/-- Whether a condition goes on with a token of this kind. -/
def continuesCondition : Kind → Bool
  | .or => true
  | k => continuesConjunction k

theorem finds_readRelation {ts us : List Token} (h : Takes relop ts us) :
    (readRelation ts).Finds (fun r => r.isSome) us := by
  replace h := takes_rule.1 h
  simp only [production, takes_alt, takes_token, or_assoc] at h
  rcases h with ⟨t, rfl, hkind⟩ | ⟨t, rfl, hkind⟩ | ⟨t, rfl, hkind⟩ | ⟨t, rfl, hkind⟩ |
    ⟨t, rfl, hkind⟩ | ⟨t, rfl, hkind⟩ <;>
  · rw [readRelation, hkind]
    exact ⟨rfl, rfl⟩

theorem begins_relop {p : Kind → Bool} {value : Bool}
    (h : ∀ k ∈ [equal, notEqual, greater, greaterEqual, less, lessEqual], p k = value) :
    Begins p value relop :=
  .rule ((((((Begins.token (h _ (by simp))).alt (.token (h _ (by simp)))).alt
    (.token (h _ (by simp)))).alt (.token (h _ (by simp)))).alt (.token (h _ (by simp)))).alt
    (.token (h _ (by simp))))

theorem finds_readComparison {ts us : List Token} (h : Takes condFact ts us)
    (hus : startsWith continuesExpr us = false) :
    (readComparison ts).Finds Comparison.Intact us := by
  obtain ⟨ts₂, h, hright⟩ := takes_seq.1 (takes_rule.1 h)
  obtain ⟨ts₁, hleft, hrelation⟩ := takes_seq.1 h
  obtain ⟨hleft', rfl⟩ := finds_readExpr hleft (begins_relop (by decide) _ _ hrelation)
  obtain ⟨hrelation', rfl⟩ := finds_readRelation hrelation
  obtain ⟨hright', rfl⟩ := finds_readExpr hright hus
  exact ⟨⟨hleft', hrelation', hright'⟩, rfl⟩

theorem finds_readMoreComparisons {ts us : List Token} {cs : Conjunction} (start : List Token)
    (hts : ts <:+ start) (h : Takes (many (Kind.and ++ condFact)) ts us)
    (hus : startsWith continuesConjunction us = false) (hcs : cs.Intact) :
    (readMoreComparisons cs start ts hts).Finds Conjunction.Intact us := by
  rcases takes_many.1 h with rfl | ⟨ts₂, hnext, hmore⟩
  · cases us with
    | nil =>
        rw [readMoreComparisons]
        exact ⟨hcs, rfl⟩
    | cons t us =>
        have hkind : t.kind ≠ .and := by
          intro hkind
          simp [startsWith, continuesConjunction, hkind] at hus
        rw [readMoreComparisons, if_neg hkind]
        exact ⟨hcs, rfl⟩
  · obtain ⟨ts₁, hand, hc⟩ := takes_seq.1 hnext
    obtain ⟨t, rfl, hkind⟩ := takes_token.1 hand
    have hts₂ : startsWith continuesExpr ts₂ = false :=
      (Begins.token (by rfl)).seq.many hmore
        (startsWith_mono (fun k hk => by cases k <;> first | rfl | exact hk) hus)
    obtain ⟨hc', rfl⟩ := finds_readComparison hc hts₂
    have := (readComparison ts₁).length_rest_le
    have hfinds := finds_readMoreComparisons start ((readComparison ts₁).suffix.trans
      ((List.suffix_cons t ts₁).trans hts)) hmore hus
      (show Conjunction.Intact (.and cs (readComparison ts₁).value) from ⟨hcs, hc'⟩)
    rw [readMoreComparisons, if_pos hkind]
    exact hfinds
termination_by ts.length
decreasing_by all_goals (subst_vars; simp only [List.length_cons] at *; omega)

theorem finds_readConjunction {ts us : List Token} (h : Takes condTerm ts us)
    (hus : startsWith continuesConjunction us = false) :
    (readConjunction ts).Finds Conjunction.Intact us := by
  obtain ⟨ts₁, hfirst, hmore⟩ := takes_seq.1 (takes_rule.1 h)
  have hts₁ : startsWith continuesExpr ts₁ = false :=
    (Begins.token (by rfl)).seq.many hmore
      (startsWith_mono (fun k hk => by cases k <;> first | rfl | exact hk) hus)
  obtain ⟨hfirst', rfl⟩ := finds_readComparison hfirst hts₁
  have hcs : (Conjunction.comparison (readComparison ts).value).Intact := hfirst'
  exact finds_readMoreComparisons _ List.suffix_rfl hmore hus hcs

theorem finds_readMoreConjunctions {ts us : List Token} {cs : Condition} (start : List Token)
    (hts : ts <:+ start) (h : Takes (many (Kind.or ++ condTerm)) ts us)
    (hus : startsWith continuesCondition us = false) (hcs : cs.Intact) :
    (readMoreConjunctions cs start ts hts).Finds Condition.Intact us := by
  rcases takes_many.1 h with rfl | ⟨ts₂, hnext, hmore⟩
  · cases us with
    | nil =>
        rw [readMoreConjunctions]
        exact ⟨hcs, rfl⟩
    | cons t us =>
        have hkind : t.kind ≠ .or := by
          intro hkind
          simp [startsWith, continuesCondition, hkind] at hus
        rw [readMoreConjunctions, if_neg hkind]
        exact ⟨hcs, rfl⟩
  · obtain ⟨ts₁, hor, hc⟩ := takes_seq.1 hnext
    obtain ⟨t, rfl, hkind⟩ := takes_token.1 hor
    have hts₂ : startsWith continuesConjunction ts₂ = false :=
      (Begins.token (by rfl)).seq.many hmore
        (startsWith_mono (fun k hk => by cases k <;> first | rfl | exact hk) hus)
    obtain ⟨hc', rfl⟩ := finds_readConjunction hc hts₂
    have := (readConjunction ts₁).length_rest_le
    have hfinds := finds_readMoreConjunctions start ((readConjunction ts₁).suffix.trans
      ((List.suffix_cons t ts₁).trans hts)) hmore hus
      (show Condition.Intact (.or cs (readConjunction ts₁).value) from ⟨hcs, hc'⟩)
    rw [readMoreConjunctions, if_pos hkind]
    exact hfinds
termination_by ts.length
decreasing_by all_goals (subst_vars; simp only [List.length_cons] at *; omega)

theorem finds_readCondition {ts us : List Token} (h : Takes condition ts us)
    (hus : startsWith continuesCondition us = false) : (readCondition ts).Finds Condition.Intact us := by
  obtain ⟨ts₁, hfirst, hmore⟩ := takes_seq.1 (takes_rule.1 h)
  have hts₁ : startsWith continuesConjunction ts₁ = false :=
    (Begins.token (by rfl)).seq.many hmore
      (startsWith_mono (fun k hk => by cases k <;> first | rfl | exact hk) hus)
  obtain ⟨hfirst', rfl⟩ := finds_readConjunction hfirst hts₁
  have hcs : (Condition.conjunction (readConjunction ts).value).Intact := hfirst'
  exact finds_readMoreConjunctions _ List.suffix_rfl hmore hus hcs

/-! ### Statements -/

/-- The first token of a statement with a condition, and what is read after it. -/
theorem finds_readGuard {k : Kind} {ts us : List Token}
    (h : Takes (k ++ leftParen ++ condition ++ rightParen) ts us) : ∃ t ts₁, ts = t :: ts₁ ∧
      t.kind = k ∧ (readGuard ts₁).Finds (fun g => GuardIntact g.1 g.2.1 g.2.2) us := by
  obtain ⟨ts₃, h, hclosed⟩ := takes_seq.1 h
  obtain ⟨ts₂, h, hcondition⟩ := takes_seq.1 h
  obtain ⟨ts₁, hk, hopened⟩ := takes_seq.1 h
  obtain ⟨t, rfl, hkind⟩ := takes_token.1 hk
  obtain ⟨hopened', rfl⟩ := finds_accept hopened
  obtain ⟨hcondition', rfl⟩ := finds_readCondition hcondition (Begins.token (by rfl) _ _ hclosed)
  obtain ⟨hclosed', rfl⟩ := finds_accept hclosed
  exact ⟨t, ts₁, rfl, hkind, ⟨hopened', hcondition', hclosed'⟩, rfl⟩

theorem finds_readWidth {ts us vs : List Token} (h : Takes (opt (comma ++ number)) ts us)
    (hus : Takes rightParen us vs) : (readWidth ts).Finds (· ≠ some none) us := by
  rcases takes_opt.1 h with h | rfl
  · obtain ⟨ts₁, hcomma, hnumber⟩ := takes_seq.1 h
    obtain ⟨hcomma', rfl⟩ := finds_accept hcomma
    obtain ⟨hnumber', rfl⟩ := finds_readNumber hnumber
    rw [readWidth, Parsed.andThen, if_pos hcomma']
    refine ⟨fun hnone => ?_, rfl⟩
    rw [Option.some.inj hnone] at hnumber'
    cases hnumber'
  · obtain ⟨hvalue, hrest⟩ := accept_eq_false (k := comma) (Begins.token (by rfl) _ _ hus)
    rw [readWidth, Parsed.andThen, if_neg (by simp [hvalue])]
    refine ⟨fun hvalue => ?_, hrest⟩
    cases hvalue

theorem exists_assignOp {ts us : List Token} (h : Takes assignop ts us) :
    ∃ t op, ts = t :: us ∧ assignOp? t.kind = some op := by
  replace h := takes_rule.1 h
  simp only [production, takes_alt, takes_token, or_assoc] at h
  rcases h with ⟨t, rfl, hkind⟩ | ⟨t, rfl, hkind⟩ | ⟨t, rfl, hkind⟩ | ⟨t, rfl, hkind⟩ |
    ⟨t, rfl, hkind⟩ | ⟨t, rfl, hkind⟩ <;>
  exact ⟨t, _, rfl, by rw [hkind]; rfl⟩

theorem begins_action {p : Kind → Bool} {value : Bool}
    (h : ∀ k ∈ [assign, plusAssign, minusAssign, timesAssign, slashAssign, percentAssign,
      leftParen, increment, decrement], p k = value) :
    Begins p value (assignop ++ expr ||| actPars ||| increment ||| decrement) :=
  have hassign : Begins p value assignop :=
    .rule ((((((Begins.token (h _ (by simp))).alt (.token (h _ (by simp)))).alt
      (.token (h _ (by simp)))).alt (.token (h _ (by simp)))).alt (.token (h _ (by simp)))).alt
      (.token (h _ (by simp))))
  ((hassign.seq.alt (.rule (Begins.token (h _ (by simp))).seq.seq)).alt
    (.token (h _ (by simp)))).alt (.token (h _ (by simp)))

theorem finds_readAction {ts us vs : List Token}
    (h : Takes (assignop ++ expr ||| actPars ||| increment ||| decrement) ts us)
    (hus : Takes Kind.semicolon us vs) : (readAction ts).Finds Action.Intact us := by
  simp only [takes_alt, or_assoc] at h
  rcases h with h | h | h | h
  · obtain ⟨ts₁, hop, he⟩ := takes_seq.1 h
    obtain ⟨t, op, rfl, hkind⟩ := exists_assignOp hop
    obtain ⟨he', rfl⟩ := finds_readExpr he (Begins.token (by rfl) _ _ hus)
    rw [readAction, hkind]
    exact ⟨he', rfl⟩
  · obtain ⟨ts₂, h, hclosed⟩ := takes_seq.1 (takes_rule.1 h)
    obtain ⟨ts₁, hopened, harguments⟩ := takes_seq.1 h
    obtain ⟨t, rfl, hkind⟩ := takes_token.1 hopened
    obtain ⟨harguments', rfl⟩ := finds_readArguments harguments hclosed
    obtain ⟨hclosed', rfl⟩ := finds_accept hclosed
    rw [readAction, hkind]
    exact ⟨⟨harguments', hclosed'⟩, rfl⟩
  · obtain ⟨t, rfl, hkind⟩ := takes_token.1 h
    rw [readAction, hkind]
    exact ⟨trivial, rfl⟩
  · obtain ⟨t, rfl, hkind⟩ := takes_token.1 h
    rw [readAction, hkind]
    exact ⟨trivial, rfl⟩

/-- The first token of a statement. -/
theorem Begins.statement {p : Kind → Bool} {value : Bool}
    (h : ∀ k ∈ [ident, kwIf, kwWhile, kwBreak, kwReturn, kwRead, kwPrint, leftBrace, .semicolon],
      p k = value) : Begins p value statement := by
  have htoken {k : Kind} (hk : k ∈ [ident, kwIf, kwWhile, kwBreak, kwReturn, kwRead, kwPrint,
    leftBrace, .semicolon]) : Begins p value k := .token (h k hk)
  exact .rule ((((((((((Begins.designator (h _ (by simp))).seq.seq).alt
    (htoken (by simp)).seq.seq.seq.seq.seq).alt (htoken (by simp)).seq.seq.seq.seq).alt
    (htoken (by simp)).seq).alt (htoken (by simp)).seq.seq).alt
    (htoken (by simp)).seq.seq.seq.seq).alt (htoken (by simp)).seq.seq.seq.seq.seq).alt
    (.rule (htoken (by simp)).seq.seq)).alt (htoken (by simp)))

/-- What may follow a statement, with all places where it may end: branches that begin with `else`,
up to a token that is none. -/
def Hangs : List (List Token) → Prop
  | [] => False
  | [us] => startsWith (· = kwElse) us = false
  | us :: vs :: rest => Takes (kwElse ++ statement) us vs ∧ Hangs (vs :: rest)

/-- A statement without gaps was read, and it ends at one of some places. -/
def Parsed.EndsIn {ts : List Token} (p : Parsed Statement ts) (ps : List (List Token)) : Prop :=
  p.value.Intact ∧ ∃ qs, p.rest :: qs <:+ ps

theorem Parsed.EndsIn.of_finds {ts us : List Token} {p : Parsed Statement ts}
    {ps : List (List Token)} (h : p.Finds Statement.Intact us) : p.EndsIn (us :: ps) :=
  ⟨h.1, ps, h.2 ▸ List.suffix_rfl⟩

theorem Hangs.of_suffix {ps qs : List (List Token)} {us : List Token} (h : Hangs ps)
    (hqs : us :: qs <:+ ps) : Hangs (us :: qs) := by
  induction ps with
  | nil => exact h.elim
  | cons vs ps ih =>
      rcases List.suffix_cons_iff.1 hqs with heq | hqs
      · rwa [heq]
      · cases ps with
        | nil => simp at hqs
        | cons ws ps => exact ih h.2 hqs

/-- After the body of a conditional statement either `else` follows, with a branch that ends at one
of the places, or one of the places is reached. -/
theorem Hangs.cases {r us : List Token} {ps qs : List (List Token)} (hps : Hangs (us :: ps))
    (hqs : r :: qs <:+ us :: ps) :
    (∃ vs, Takes (kwElse ++ statement) r vs ∧ ∃ qs, Hangs (vs :: qs) ∧ vs :: qs <:+ us :: ps) ∨
      startsWith (· = kwElse) r = false ∧ ∃ qs, r :: qs <:+ us :: ps := by
  have hangs := hps.of_suffix hqs
  cases qs with
  | nil => exact .inr ⟨hangs, [], hqs⟩
  | cons vs qs => exact .inl ⟨vs, hangs.1, qs, hangs.2, (List.suffix_cons r _).trans hqs⟩

/-- Whether a statement begins with a token of this kind. -/
def startsStatement : Kind → Bool
  | ident | kwIf | kwWhile | kwBreak | kwReturn | kwRead | kwPrint | leftBrace | .semicolon => true
  | _ => false

theorem exists_statementHead {ts us : List Token} (h : Takes statement ts us) :
    ∃ t ts₁ head, ts = t :: ts₁ ∧ statementHead? t = some head := by
  have hstarts : startsWith startsStatement ts = true := Begins.statement (by decide) _ _ h
  cases ts with
  | nil => cases hstarts
  | cons t ts =>
      have hhead : (statementHead? t).isSome := by
        cases hkind : t.kind <;> simp [startsWith, startsStatement, statementHead?, hkind] at hstarts ⊢
      obtain ⟨head, hhead⟩ := Option.isSome_iff_exists.1 hhead
      exact ⟨t, ts, head, rfl, hhead⟩

/-! ### Statements that hold no others -/

section Simple

variable {t : Token} {head : StatementHead} {ts us : List Token}

theorem finds_readAfter_name (hhead : statementHead? t = some head)
    (h : Takes (designator ++ (assignop ++ expr ||| actPars ||| increment ||| decrement) ++
      Kind.semicolon) (t :: ts) us) : (readAfter head ts).Finds Statement.Intact us := by
  obtain ⟨ts₃, h, hended⟩ := takes_seq.1 h
  obtain ⟨ts₂, hd, haction⟩ := takes_seq.1 h
  obtain ⟨ts₁, hname, hselectors⟩ := takes_seq.1 (takes_rule.1 hd)
  obtain ⟨_, ⟨⟩, hkind⟩ := takes_token.1 hname
  obtain rfl : StatementHead.name t.name = head := by simpa [statementHead?, hkind] using hhead
  have hname : (Designator.name (some t.name)).Intact := by simp [Designator.Intact]
  obtain ⟨hd', rfl⟩ := finds_readSelectors ts List.suffix_rfl hselectors
    (begins_action (by decide) _ _ haction) hname
  obtain ⟨haction', rfl⟩ := finds_readAction haction hended
  obtain ⟨hended', rfl⟩ := finds_accept hended
  rw [readAfter]
  exact ⟨by rw [Statement.Intact]; exact ⟨hd', haction', hended'⟩, rfl⟩

theorem finds_readAfter_break (hhead : statementHead? t = some head)
    (h : Takes (kwBreak ++ Kind.semicolon) (t :: ts) us) :
    (readAfter head ts).Finds Statement.Intact us := by
  obtain ⟨ts₁, hk, hended⟩ := takes_seq.1 h
  obtain ⟨_, ⟨⟩, hkind⟩ := takes_token.1 hk
  obtain rfl : StatementHead.breakWord = head := by simpa [statementHead?, hkind] using hhead
  obtain ⟨hended', rfl⟩ := finds_accept hended
  rw [readAfter]
  exact ⟨by rw [Parsed.value_map, Statement.Intact]; exact hended', rfl⟩

theorem finds_readAfter_return (hhead : statementHead? t = some head)
    (h : Takes (kwReturn ++ opt expr ++ Kind.semicolon) (t :: ts) us) :
    (readAfter head ts).Finds Statement.Intact us := by
  obtain ⟨ts₂, h, hended⟩ := takes_seq.1 h
  obtain ⟨ts₁, hk, hvalue⟩ := takes_seq.1 h
  obtain ⟨_, ⟨⟩, hkind⟩ := takes_token.1 hk
  obtain rfl : StatementHead.returnWord = head := by simpa [statementHead?, hkind] using hhead
  rw [readAfter]
  rcases takes_opt.1 hvalue with hvalue | rfl
  · rw [if_pos (Begins.expr (by decide) _ _ hvalue)]
    obtain ⟨hvalue', rfl⟩ := finds_readExpr hvalue (Begins.token (by rfl) _ _ hended)
    obtain ⟨hended', rfl⟩ := finds_accept hended
    exact ⟨by rw [Statement.Intact]; exact ⟨by simpa using hvalue', hended'⟩, rfl⟩
  · have hstarts : startsWith startsExpr ts₂ = false := Begins.token (by rfl) _ _ hended
    obtain ⟨hended', rfl⟩ := finds_accept hended
    rw [if_neg (by simp [hstarts])]
    exact ⟨by rw [Parsed.value_map, Statement.Intact]; exact ⟨nofun, hended'⟩, rfl⟩

theorem finds_readAfter_read (hhead : statementHead? t = some head)
    (h : Takes (kwRead ++ leftParen ++ designator ++ rightParen ++ Kind.semicolon) (t :: ts) us) :
    (readAfter head ts).Finds Statement.Intact us := by
  obtain ⟨ts₄, h, hended⟩ := takes_seq.1 h
  obtain ⟨ts₃, h, hclosed⟩ := takes_seq.1 h
  obtain ⟨ts₂, h, hd⟩ := takes_seq.1 h
  obtain ⟨ts₁, hk, hopened⟩ := takes_seq.1 h
  obtain ⟨_, ⟨⟩, hkind⟩ := takes_token.1 hk
  obtain rfl : StatementHead.readWord = head := by simpa [statementHead?, hkind] using hhead
  obtain ⟨hopened', rfl⟩ := finds_accept hopened
  obtain ⟨hd', rfl⟩ := finds_readDesignator hd (Begins.token (by rfl) _ _ hclosed)
  obtain ⟨hclosed', rfl⟩ := finds_accept hclosed
  obtain ⟨hended', rfl⟩ := finds_accept hended
  rw [readAfter]
  exact ⟨by rw [Statement.Intact]; exact ⟨hopened', hd', hclosed', hended'⟩, rfl⟩

theorem finds_readAfter_print (hhead : statementHead? t = some head)
    (h : Takes (kwPrint ++ leftParen ++ expr ++ opt (comma ++ number) ++ rightParen ++
      Kind.semicolon) (t :: ts) us) : (readAfter head ts).Finds Statement.Intact us := by
  obtain ⟨ts₅, h, hended⟩ := takes_seq.1 h
  obtain ⟨ts₄, h, hclosed⟩ := takes_seq.1 h
  obtain ⟨ts₃, h, hwidth⟩ := takes_seq.1 h
  obtain ⟨ts₂, h, hvalue⟩ := takes_seq.1 h
  obtain ⟨ts₁, hk, hopened⟩ := takes_seq.1 h
  obtain ⟨_, ⟨⟩, hkind⟩ := takes_token.1 hk
  obtain rfl : StatementHead.printWord = head := by simpa [statementHead?, hkind] using hhead
  have hts₃ : startsWith continuesExpr ts₃ = false := by
    rcases takes_opt.1 hwidth with hwidth | rfl
    · exact (Begins.token (by rfl)).seq _ _ hwidth
    · exact Begins.token (by rfl) _ _ hclosed
  obtain ⟨hopened', rfl⟩ := finds_accept hopened
  obtain ⟨hvalue', rfl⟩ := finds_readExpr hvalue hts₃
  obtain ⟨hwidth', rfl⟩ := finds_readWidth hwidth hclosed
  obtain ⟨hclosed', rfl⟩ := finds_accept hclosed
  obtain ⟨hended', rfl⟩ := finds_accept hended
  rw [readAfter]
  exact ⟨by rw [Statement.Intact]; exact ⟨hopened', hvalue', hwidth', hclosed', hended'⟩, rfl⟩

theorem finds_readAfter_semicolon (hhead : statementHead? t = some head)
    (h : Takes Kind.semicolon (t :: ts) us) : (readAfter head ts).Finds Statement.Intact us := by
  obtain ⟨_, ⟨⟩, hkind⟩ := takes_token.1 h
  obtain rfl : StatementHead.semicolon = head := by simpa [statementHead?, hkind] using hhead
  rw [readAfter]
  exact ⟨by rw [Parsed.nothing, Statement.Intact]; trivial, rfl⟩

end Simple

/-! ### Statements that hold others -/

/-- The body of a conditional statement is read up to an `else` that it does not take, or up to
where the whole statement may end. It is known to end at one of the places where it may. -/
theorem Parsed.EndsIn.branch {ts ts₂ us : List Token} {ps : List (List Token)} {p : Parsed Statement ts}
    (hp : ∀ qs, Hangs (ts₂ :: qs) → p.EndsIn (ts₂ :: qs))
    (helse : Takes (opt (kwElse ++ statement)) ts₂ us) (hps : Hangs (us :: ps)) :
    p.value.Intact ∧
      ((∃ vs, Takes (kwElse ++ statement) p.rest vs ∧ ∃ qs, Hangs (vs :: qs) ∧ vs :: qs <:+ us :: ps) ∨
        startsWith (· = kwElse) p.rest = false ∧ ∃ qs, p.rest :: qs <:+ us :: ps) := by
  rcases takes_opt.1 helse with helse | rfl
  · have hangs : Hangs (ts₂ :: us :: ps) := ⟨helse, hps⟩
    obtain ⟨hp', qs, hqs⟩ := hp _ hangs
    refine ⟨hp', ?_⟩
    rcases List.suffix_cons_iff.1 hqs with heq | hqs
    · rw [(List.cons.inj heq).1]
      exact .inl ⟨us, helse, ps, hps, List.suffix_rfl⟩
    · exact hps.cases hqs
  · obtain ⟨hp', qs, hqs⟩ := hp _ hps
    exact ⟨hp', hps.cases hqs⟩

mutual

theorem endsIn_readStatement {ts us : List Token} {ps : List (List Token)}
    (h : Takes statement ts us) (hps : Hangs (us :: ps)) :
    (readStatement ts).EndsIn (us :: ps) := by
  obtain ⟨t, ts₁, head, rfl, hhead⟩ := exists_statementHead h
  rw [readStatement]
  simp only [hhead]
  exact endsIn_readAfter hhead h hps
termination_by 2 * ts.length
decreasing_by all_goals (subst_vars; simp only [List.length_cons] at *; omega)

/-- A statement is read up to where it ends, or up to the end of a branch that follows. -/
theorem endsIn_readAfter {t : Token} {head : StatementHead} {ts us : List Token}
    {ps : List (List Token)} (hhead : statementHead? t = some head)
    (h : Takes statement (t :: ts) us) (hps : Hangs (us :: ps)) :
    (readAfter head ts).EndsIn (us :: ps) := by
  replace h := takes_rule.1 h
  simp only [production, takes_alt, or_assoc] at h
  rcases h with h | h | h | h | h | h | h | h | h
  · exact .of_finds (finds_readAfter_name hhead h)
  · obtain ⟨ts₂, h, helse⟩ := takes_seq.1 h
    obtain ⟨ts₁, hguard, hbody⟩ := takes_seq.1 h
    obtain ⟨_, _, ⟨⟩, hkind, hguard', rfl⟩ := finds_readGuard hguard
    obtain rfl : StatementHead.ifWord = head := by simpa [statementHead?, hkind] using hhead
    have := (readGuard ts).length_rest_le
    have := (readStatement (readGuard ts).rest).length_rest_le
    have := (accept kwElse (readStatement (readGuard ts).rest).rest).length_rest_le
    obtain ⟨hbody', hrest⟩ :=
      Parsed.EndsIn.branch (fun qs hqs => endsIn_readStatement hbody hqs) helse hps
    rw [readAfter]
    dsimp only
    obtain ⟨vs, helse, qs, hqs, hsuffix⟩ | ⟨hnone, qs, hqs⟩ := hrest
    · obtain ⟨ts₃, helse, hother⟩ := takes_seq.1 helse
      obtain ⟨helse', rfl⟩ := finds_accept helse
      obtain ⟨hother', qs', hqs'⟩ := endsIn_readStatement hother hqs
      rw [if_pos helse']
      exact ⟨by rw [Statement.Intact]; exact ⟨hguard', hbody', hother'⟩, qs', hqs'.trans hsuffix⟩
    · rw [if_neg (by simp [(accept_eq_false hnone).1])]
      exact ⟨by rw [Statement.Intact]; exact ⟨hguard', hbody'⟩, qs, hqs⟩
  · obtain ⟨ts₁, hguard, hbody⟩ := takes_seq.1 h
    obtain ⟨_, _, ⟨⟩, hkind, hguard', rfl⟩ := finds_readGuard hguard
    obtain rfl : StatementHead.whileWord = head := by simpa [statementHead?, hkind] using hhead
    have := (readGuard ts).length_rest_le
    obtain ⟨hbody', qs, hqs⟩ := endsIn_readStatement hbody hps
    rw [readAfter]
    exact ⟨by rw [Statement.Intact]; exact ⟨hguard', hbody'⟩, qs, hqs⟩
  · exact .of_finds (finds_readAfter_break hhead h)
  · exact .of_finds (finds_readAfter_return hhead h)
  · exact .of_finds (finds_readAfter_read hhead h)
  · exact .of_finds (finds_readAfter_print hhead h)
  · obtain ⟨ts₂, h, hclosed⟩ := takes_seq.1 (takes_rule.1 h)
    obtain ⟨ts₁, hk, hstatements⟩ := takes_seq.1 h
    obtain ⟨_, ⟨⟩, hkind⟩ := takes_token.1 hk
    obtain rfl : StatementHead.brace = head := by simpa [statementHead?, hkind] using hhead
    have hnil : StatementsIntact [] := by rw [StatementsIntact]; trivial
    obtain ⟨hstatements', rfl⟩ :=
      finds_readStatements ts List.suffix_rfl hstatements hclosed hnil
    obtain ⟨hclosed', rfl⟩ := finds_accept hclosed
    rw [readAfter]
    exact .of_finds ⟨by rw [Statement.Intact]; exact ⟨hstatements', hclosed'⟩, rfl⟩
  · exact .of_finds (finds_readAfter_semicolon hhead h)
termination_by 2 * ts.length + 1

theorem finds_readStatements {ts us vs : List Token} {before : List Statement}
    (start : List Token) (hts : ts <:+ start) (h : Takes (many statement) ts us)
    (hus : Takes rightBrace us vs) (hbefore : StatementsIntact before) :
    (readStatements before start ts hts).Finds StatementsIntact us := by
  rcases takes_many.1 h with rfl | ⟨ts₂, hnext, hmore⟩
  · obtain ⟨t, rfl, hkind⟩ := takes_token.1 hus
    have hhead : statementHead? t = none := by simp [statementHead?, hkind]
    rw [readStatements]
    simp only [hhead, if_pos hkind]
    refine ⟨?_, rfl⟩
    simpa [statementsIntact_iff] using hbefore
  · obtain ⟨t, ts₁, head, rfl, hhead⟩ := exists_statementHead hnext
    have hangs : Hangs [ts₂] :=
      (Begins.statement (by decide)).many hmore (Begins.token (by rfl) _ _ hus)
    obtain ⟨hs, qs, hqs⟩ := endsIn_readAfter hhead hnext hangs
    have := (readAfter head ts₁).length_rest_le
    obtain rfl : (readAfter head ts₁).rest = ts₂ := by
      simpa using hqs.subset List.mem_cons_self
    have hfinds := finds_readStatements start ((readAfter head ts₁).suffix.trans
      ((List.suffix_cons t ts₁).trans hts)) hmore hus
      (show StatementsIntact ((readAfter head ts₁).value :: before) by
        rw [StatementsIntact]; exact ⟨hs, hbefore⟩)
    rw [readStatements]
    simp only [hhead]
    exact hfinds
termination_by 2 * ts.length
decreasing_by all_goals (subst_vars; simp only [List.length_cons] at *; omega)

end

/-! ### Programs -/

theorem finds_readArrayMark {ts us : List Token} (h : Takes (opt (leftBracket ++ rightBracket)) ts us)
    (hus : startsWith (· = leftBracket) us = false) :
    (readArrayMark ts).Finds (· ≠ some false) us := by
  rcases takes_opt.1 h with h | rfl
  · obtain ⟨ts₁, hopened, hclosed⟩ := takes_seq.1 h
    obtain ⟨hopened', rfl⟩ := finds_accept hopened
    obtain ⟨hclosed', rfl⟩ := finds_accept hclosed
    rw [readArrayMark, Parsed.andThen, if_pos hopened']
    exact ⟨by simp [hclosed'], rfl⟩
  · obtain ⟨hvalue, hrest⟩ := accept_eq_false hus
    rw [readArrayMark, Parsed.andThen, if_neg (by simp [hvalue])]
    refine ⟨fun hvalue => ?_, hrest⟩
    cases hvalue

theorem finds_readTypeName {ts us : List Token} (h : Takes type ts us)
    (hus : startsWith (· = leftBracket) us = false) :
    (readTypeName ts).Finds TypeName.Intact us := by
  obtain ⟨ts₁, hname, hmark⟩ := takes_seq.1 (takes_rule.1 h)
  obtain ⟨hname', rfl⟩ := finds_readName hname
  obtain ⟨hmark', rfl⟩ := finds_readArrayMark hmark hus
  exact ⟨⟨hname', hmark'⟩, rfl⟩

theorem finds_readMoreNames {ts us : List Token} {before : List (Option String)}
    (start : List Token) (hts : ts <:+ start) (h : Takes (many (comma ++ ident)) ts us)
    (hus : startsWith (· = comma) us = false) (hbefore : ∀ name ∈ before, name.isSome) :
    (readMoreNames before start ts hts).Finds (fun names => ∀ name ∈ names, name.isSome) us := by
  rcases takes_many.1 h with rfl | ⟨ts₂, hnext, hmore⟩
  · cases us with
    | nil =>
        rw [readMoreNames]
        exact ⟨by simpa using hbefore, rfl⟩
    | cons t us =>
        rw [readMoreNames, if_neg (by simpa [startsWith] using hus)]
        exact ⟨by simpa using hbefore, rfl⟩
  · obtain ⟨ts₁, hcomma, hname⟩ := takes_seq.1 hnext
    obtain ⟨t, rfl, hkind⟩ := takes_token.1 hcomma
    obtain ⟨hname', rfl⟩ := finds_readName hname
    have := (readName ts₁).length_rest_le
    have hfinds := finds_readMoreNames start ((readName ts₁).suffix.trans
      ((List.suffix_cons t ts₁).trans hts)) hmore hus (List.forall_mem_cons.2 ⟨hname', hbefore⟩)
    rw [readMoreNames, if_pos hkind]
    exact hfinds
termination_by ts.length
decreasing_by all_goals (subst_vars; simp only [List.length_cons] at *; omega)

theorem finds_readVariables {name : TypeName} {ts us : List Token} (hname : name.Intact)
    (h : Takes (ident ++ many (comma ++ ident) ++ Kind.semicolon) ts us) :
    (readVariables name ts).Finds VariableDecl.Intact us := by
  obtain ⟨ts₂, h, hended⟩ := takes_seq.1 h
  obtain ⟨ts₁, hfirst, hothers⟩ := takes_seq.1 h
  obtain ⟨hfirst', rfl⟩ := finds_readName hfirst
  obtain ⟨hothers', rfl⟩ := finds_readMoreNames _ List.suffix_rfl hothers
    (Begins.token (by rfl) _ _ hended) (List.forall_mem_nil _)
  obtain ⟨hended', rfl⟩ := finds_accept hended
  exact ⟨⟨hname, hfirst', hothers', hended'⟩, rfl⟩

/-- Variables begin with the name of their type. -/
theorem finds_readVariablesAfter {ts us : List Token} (h : Takes varDecl ts us) :
    ∃ t ts₁, ts = t :: ts₁ ∧ t.kind = ident ∧
      (readVariablesAfter t.name ts₁).Finds VariableDecl.Intact us := by
  obtain ⟨ts₄, h, hended⟩ := takes_seq.1 (takes_rule.1 h)
  obtain ⟨ts₃, h, hothers⟩ := takes_seq.1 h
  obtain ⟨ts₂, htype, hfirst⟩ := takes_seq.1 h
  obtain ⟨ts₁, hname, hmark⟩ := takes_seq.1 (takes_rule.1 htype)
  obtain ⟨t, rfl, hkind⟩ := takes_token.1 hname
  obtain ⟨hmark', rfl⟩ := finds_readArrayMark hmark (Begins.token (by rfl) _ _ hfirst)
  exact ⟨t, ts₁, rfl, hkind, finds_readVariables ⟨rfl, hmark'⟩ ((hfirst.seq hothers).seq hended)⟩

theorem finds_readVariableDecls {ts us : List Token} {before : List VariableDecl}
    (start : List Token) (hts : ts <:+ start) (h : Takes (many varDecl) ts us)
    (hus : startsWith (· = ident) us = false) (hbefore : ∀ d ∈ before, d.Intact) :
    (readVariableDecls before start ts hts).Finds (fun ds => ∀ d ∈ ds, d.Intact) us := by
  rcases takes_many.1 h with rfl | ⟨ts₂, hnext, hmore⟩
  · cases us with
    | nil =>
        rw [readVariableDecls]
        exact ⟨by simpa using hbefore, rfl⟩
    | cons t us =>
        rw [readVariableDecls, if_neg (by simpa [startsWith] using hus)]
        exact ⟨by simpa using hbefore, rfl⟩
  · obtain ⟨t, ts₁, rfl, hkind, hd, rfl⟩ := finds_readVariablesAfter hnext
    have := (readVariablesAfter t.name ts₁).length_rest_le
    have hfinds := finds_readVariableDecls start ((readVariablesAfter t.name ts₁).suffix.trans
      ((List.suffix_cons t ts₁).trans hts)) hmore hus (List.forall_mem_cons.2 ⟨hd, hbefore⟩)
    rw [readVariableDecls, if_pos hkind]
    exact hfinds
termination_by ts.length
decreasing_by all_goals (subst_vars; simp only [List.length_cons] at *; omega)

theorem finds_readConstantValue {ts us : List Token} (h : Takes (number ||| charConst) ts us) :
    (readConstantValue ts).Finds ConstantValue.Intact us := by
  rcases takes_alt.1 h with h | h <;>
  · obtain ⟨t, rfl, hkind⟩ := takes_token.1 h
    simp only [readConstantValue, hkind]
    refine ⟨fun hvalue => ?_, rfl⟩
    cases hvalue

theorem finds_readConstant {ts us : List Token} (h : Takes constDecl ts us) :
    ∃ t ts₁, ts = t :: ts₁ ∧ t.kind = kwFinal ∧
      (readConstant ts₁).Finds ConstantDecl.Intact us := by
  obtain ⟨ts₅, h, hended⟩ := takes_seq.1 (takes_rule.1 h)
  obtain ⟨ts₄, h, hvalue⟩ := takes_seq.1 h
  obtain ⟨ts₃, h, hassigned⟩ := takes_seq.1 h
  obtain ⟨ts₂, h, hname⟩ := takes_seq.1 h
  obtain ⟨ts₁, hk, htype⟩ := takes_seq.1 h
  obtain ⟨t, rfl, hkind⟩ := takes_token.1 hk
  obtain ⟨htype', rfl⟩ := finds_readTypeName htype (Begins.token (by rfl) _ _ hname)
  obtain ⟨hname', rfl⟩ := finds_readName hname
  obtain ⟨hassigned', rfl⟩ := finds_accept hassigned
  obtain ⟨hvalue', rfl⟩ := finds_readConstantValue hvalue
  obtain ⟨hended', rfl⟩ := finds_accept hended
  exact ⟨t, ts₁, rfl, hkind, ⟨htype', hname', hassigned', hvalue', hended'⟩, rfl⟩

theorem finds_readClass {ts us : List Token} (h : Takes classDecl ts us) :
    ∃ t ts₁, ts = t :: ts₁ ∧ t.kind = kwClass ∧ (readClass ts₁).Finds ClassDecl.Intact us := by
  obtain ⟨ts₄, h, hclosed⟩ := takes_seq.1 (takes_rule.1 h)
  obtain ⟨ts₃, h, hfields⟩ := takes_seq.1 h
  obtain ⟨ts₂, h, hopened⟩ := takes_seq.1 h
  obtain ⟨ts₁, hk, hname⟩ := takes_seq.1 h
  obtain ⟨t, rfl, hkind⟩ := takes_token.1 hk
  obtain ⟨hname', rfl⟩ := finds_readName hname
  obtain ⟨hopened', rfl⟩ := finds_accept hopened
  obtain ⟨hfields', rfl⟩ := finds_readVariableDecls _ List.suffix_rfl hfields
    (Begins.token (by rfl) _ _ hclosed) (List.forall_mem_nil _)
  obtain ⟨hclosed', rfl⟩ := finds_accept hclosed
  exact ⟨t, ts₁, rfl, hkind, ⟨hname', hopened', hfields', hclosed'⟩, rfl⟩

theorem finds_readDeclarations {ts us vs : List Token} {before : List Declaration}
    (start : List Token) (hts : ts <:+ start)
    (h : Takes (many (constDecl ||| varDecl ||| classDecl)) ts us) (hus : Takes leftBrace us vs)
    (hbefore : ∀ d ∈ before, d.Intact) :
    (readDeclarations before start ts hts).Finds (fun ds => ∀ d ∈ ds, d.Intact) us := by
  rcases takes_many.1 h with rfl | ⟨ts₂, hnext, hmore⟩
  · obtain ⟨t, rfl, hkind⟩ := takes_token.1 hus
    rw [readDeclarations]
    simp only [hkind]
    exact ⟨by simpa using hbefore, rfl⟩
  · simp only [takes_alt, or_assoc] at hnext
    rcases hnext with hnext | hnext | hnext
    · obtain ⟨t, ts₁, rfl, hkind, hd, rfl⟩ := finds_readConstant hnext
      have := (readConstant ts₁).length_rest_le
      have hfinds := finds_readDeclarations start ((readConstant ts₁).suffix.trans
        ((List.suffix_cons t ts₁).trans hts)) hmore hus
        (List.forall_mem_cons.2 ⟨show (Declaration.constant _).Intact from hd, hbefore⟩)
      rw [readDeclarations]
      simp only [hkind]
      exact hfinds
    · obtain ⟨t, ts₁, rfl, hkind, hd, rfl⟩ := finds_readVariablesAfter hnext
      have := (readVariablesAfter t.name ts₁).length_rest_le
      have hfinds := finds_readDeclarations start ((readVariablesAfter t.name ts₁).suffix.trans
        ((List.suffix_cons t ts₁).trans hts)) hmore hus
        (List.forall_mem_cons.2 ⟨show (Declaration.globals _).Intact from hd, hbefore⟩)
      rw [readDeclarations]
      simp only [hkind]
      exact hfinds
    · obtain ⟨t, ts₁, rfl, hkind, hd, rfl⟩ := finds_readClass hnext
      have := (readClass ts₁).length_rest_le
      have hfinds := finds_readDeclarations start ((readClass ts₁).suffix.trans
        ((List.suffix_cons t ts₁).trans hts)) hmore hus
        (List.forall_mem_cons.2 ⟨show (Declaration.object _).Intact from hd, hbefore⟩)
      rw [readDeclarations]
      simp only [hkind]
      exact hfinds
termination_by ts.length
decreasing_by all_goals (subst_vars; simp only [List.length_cons] at *; omega)

theorem finds_readParameter {ts us : List Token} (h : Takes (type ++ ident) ts us) :
    (readParameter ts).Finds Parameter.Intact us := by
  obtain ⟨ts₁, htype, hname⟩ := takes_seq.1 h
  obtain ⟨htype', rfl⟩ := finds_readTypeName htype (Begins.token (by rfl) _ _ hname)
  obtain ⟨hname', rfl⟩ := finds_readName hname
  exact ⟨⟨htype', hname'⟩, rfl⟩

theorem finds_readMoreParameters {ts us : List Token} {before : List Parameter}
    (start : List Token) (hts : ts <:+ start) (h : Takes (many (comma ++ type ++ ident)) ts us)
    (hus : startsWith (· = comma) us = false) (hbefore : ∀ p ∈ before, p.Intact) :
    (readMoreParameters before start ts hts).Finds (fun ps => ∀ p ∈ ps, p.Intact) us := by
  rcases takes_many.1 h with rfl | ⟨ts₃, hnext, hmore⟩
  · cases us with
    | nil =>
        rw [readMoreParameters]
        exact ⟨by simpa using hbefore, rfl⟩
    | cons t us =>
        rw [readMoreParameters, if_neg (by simpa [startsWith] using hus)]
        exact ⟨by simpa using hbefore, rfl⟩
  · obtain ⟨ts₂, hnext, hname⟩ := takes_seq.1 hnext
    obtain ⟨ts₁, hcomma, htype⟩ := takes_seq.1 hnext
    obtain ⟨t, rfl, hkind⟩ := takes_token.1 hcomma
    obtain ⟨hp, rfl⟩ := finds_readParameter (htype.seq hname)
    have := (readParameter ts₁).length_rest_le
    have hfinds := finds_readMoreParameters start ((readParameter ts₁).suffix.trans
      ((List.suffix_cons t ts₁).trans hts)) hmore hus (List.forall_mem_cons.2 ⟨hp, hbefore⟩)
    rw [readMoreParameters, if_pos hkind]
    exact hfinds
termination_by ts.length
decreasing_by all_goals (subst_vars; simp only [List.length_cons] at *; omega)

theorem finds_readParameters {ts us vs : List Token} (h : Takes (opt formPars) ts us)
    (hus : Takes rightParen us vs) :
    (readParameters ts).Finds (fun ps => ∀ p ∈ ps, p.Intact) us := by
  rcases takes_opt.1 h with h | rfl
  · obtain ⟨ts₁, hfirst, hmore⟩ := takes_seq.1 (takes_rule.1 h)
    have hstarts : startsWith (· = ident) ts = true :=
      (Begins.rule (n := type) (Begins.token (by rfl)).seq).seq _ _ hfirst
    obtain ⟨hfirst', rfl⟩ := finds_readParameter hfirst
    rw [readParameters, if_pos hstarts]
    exact finds_readMoreParameters _ List.suffix_rfl hmore (Begins.token (by rfl) _ _ hus)
      (by simpa using hfirst')
  · have hstarts : startsWith (· = ident) us = false := Begins.token (by rfl) _ _ hus
    rw [readParameters, if_neg (by simp [hstarts])]
    exact ⟨List.forall_mem_nil _, rfl⟩

theorem finds_readMethod {result : Option TypeName} {ts us : List Token}
    (hresult : ∀ t, result = some t → t.Intact)
    (h : Takes (ident ++ leftParen ++ opt formPars ++ rightParen ++ many varDecl ++ block) ts us) :
    (readMethod result ts).Finds MethodDecl.Intact us := by
  obtain ⟨ts₅, h, hblock⟩ := takes_seq.1 h
  obtain ⟨ts₄, h, hlocals⟩ := takes_seq.1 h
  obtain ⟨ts₃, h, hclosed⟩ := takes_seq.1 h
  obtain ⟨ts₂, h, hparameters⟩ := takes_seq.1 h
  obtain ⟨ts₁, hname, hopened⟩ := takes_seq.1 h
  obtain ⟨ts₇, h, hbodyClosed⟩ := takes_seq.1 (takes_rule.1 hblock)
  obtain ⟨ts₆, hbodyOpened, hbody⟩ := takes_seq.1 h
  have hnil : StatementsIntact [] := by rw [StatementsIntact]; trivial
  obtain ⟨hname', rfl⟩ := finds_readName hname
  obtain ⟨hopened', rfl⟩ := finds_accept hopened
  obtain ⟨hparameters', rfl⟩ := finds_readParameters hparameters hclosed
  obtain ⟨hclosed', rfl⟩ := finds_accept hclosed
  obtain ⟨hlocals', rfl⟩ := finds_readVariableDecls _ List.suffix_rfl hlocals
    (Begins.token (by rfl) _ _ hbodyOpened) (List.forall_mem_nil _)
  obtain ⟨hbodyOpened', rfl⟩ := finds_accept hbodyOpened
  obtain ⟨hbody', rfl⟩ := finds_readStatements _ List.suffix_rfl hbody hbodyClosed hnil
  obtain ⟨hbodyClosed', rfl⟩ := finds_accept hbodyClosed
  exact ⟨⟨hresult, hname', hopened', hparameters', hclosed', hlocals', hbodyOpened', hbody',
    hbodyClosed'⟩, rfl⟩

/-- A method begins with its type. -/
theorem exists_takes_result {ts us : List Token} (h : Takes methodDecl ts us) :
    ∃ vs, Takes (type ||| kwVoid) ts vs ∧
      Takes (ident ++ leftParen ++ opt formPars ++ rightParen ++ many varDecl ++ block) vs us := by
  obtain ⟨ts₆, h, hblock⟩ := takes_seq.1 (takes_rule.1 h)
  obtain ⟨ts₅, h, hlocals⟩ := takes_seq.1 h
  obtain ⟨ts₄, h, hclosed⟩ := takes_seq.1 h
  obtain ⟨ts₃, h, hparameters⟩ := takes_seq.1 h
  obtain ⟨ts₂, h, hopened⟩ := takes_seq.1 h
  obtain ⟨ts₁, hresult, hname⟩ := takes_seq.1 h
  exact ⟨ts₁, hresult,
    ((((hname.seq hopened).seq hparameters).seq hclosed).seq hlocals).seq hblock⟩

theorem finds_readMembers {ts us vs : List Token} {before : List Member}
    (start : List Token) (hts : ts <:+ start) (h : Takes (many methodDecl) ts us)
    (hus : Takes rightBrace us vs) (hbefore : ∀ m ∈ before, m.Intact) :
    (readMembers before start ts hts).Finds (fun ms => ∀ m ∈ ms, m.Intact) us := by
  rcases takes_many.1 h with rfl | ⟨ts₃, hnext, hmore⟩
  · obtain ⟨t, rfl, hkind⟩ := takes_token.1 hus
    rw [readMembers]
    simp only [hkind]
    exact ⟨by simpa using hbefore, rfl⟩
  · obtain ⟨ts₂, hresult, htail⟩ := exists_takes_result hnext
    rcases takes_alt.1 hresult with htype | hvoid
    · obtain ⟨ts₁, hname, hmark⟩ := takes_seq.1 (takes_rule.1 htype)
      obtain ⟨t, rfl, hkind⟩ := takes_token.1 hname
      have hts₂ : startsWith (· = leftBracket) ts₂ = false :=
        (Begins.token (by rfl)).seq.seq.seq.seq.seq _ _ htail
      obtain ⟨hmark', rfl⟩ := finds_readArrayMark hmark hts₂
      have hintact : (TypeName.mk (some t.name) (readArrayMark ts₁).value).Intact := ⟨rfl, hmark'⟩
      obtain ⟨hd, rfl⟩ := finds_readMethod
        (fun _ heq => Option.some.inj heq ▸ hintact) htail
      have := (readArrayMark ts₁).length_rest_le
      have := (readMethod (some ⟨some t.name, (readArrayMark ts₁).value⟩)
        (readArrayMark ts₁).rest).length_rest_le
      have hfinds := finds_readMembers start
        ((readMethod (some ⟨some t.name, (readArrayMark ts₁).value⟩)
          (readArrayMark ts₁).rest).suffix.trans ((readArrayMark ts₁).suffix.trans
          ((List.suffix_cons t ts₁).trans hts))) hmore hus
        (List.forall_mem_cons.2 ⟨show (Member.method _).Intact from hd, hbefore⟩)
      rw [readMembers]
      simp only [hkind]
      exact hfinds
    · obtain ⟨t, rfl, hkind⟩ := takes_token.1 hvoid
      have hnone : ∀ t, (none : Option TypeName) = some t → t.Intact :=
        fun _ heq => by cases heq
      obtain ⟨hd, rfl⟩ := finds_readMethod hnone htail
      have := (readMethod none ts₂).length_rest_le
      have hfinds := finds_readMembers start ((readMethod none ts₂).suffix.trans
        ((List.suffix_cons t ts₂).trans hts)) hmore hus
        (List.forall_mem_cons.2 ⟨show (Member.method _).Intact from hd, hbefore⟩)
      rw [readMembers]
      simp only [hkind]
      exact hfinds
termination_by ts.length
decreasing_by all_goals (subst_vars; simp only [List.length_cons] at *; omega)

/-- A program of the grammar is read without a gap. -/
theorem intact_of_derives {ts : List Token} (h : Derives program ts) :
    (Program.read ts).Intact := by
  obtain ⟨ts₅, h, hclosed⟩ := takes_seq.1 (takes_rule.1 (takes_nil.2 h))
  obtain ⟨ts₄, h, hmembers⟩ := takes_seq.1 h
  obtain ⟨ts₃, h, hopened⟩ := takes_seq.1 h
  obtain ⟨ts₂, h, hdeclarations⟩ := takes_seq.1 h
  obtain ⟨ts₁, hannounced, hname⟩ := takes_seq.1 h
  obtain ⟨hannounced', rfl⟩ := finds_accept hannounced
  obtain ⟨hname', rfl⟩ := finds_readName hname
  obtain ⟨hdeclarations', rfl⟩ := finds_readDeclarations _ List.suffix_rfl hdeclarations hopened
    (List.forall_mem_nil _)
  obtain ⟨hopened', rfl⟩ := finds_accept hopened
  obtain ⟨hmembers', rfl⟩ := finds_readMembers _ List.suffix_rfl hmembers hclosed
    (List.forall_mem_nil _)
  obtain ⟨hclosed', hrest⟩ := finds_accept hclosed
  exact ⟨hannounced', hname', hdeclarations', hopened', hmembers', hclosed',
    List.isEmpty_iff.2 hrest⟩

end MicroJava.Tree
