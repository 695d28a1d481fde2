import MicroJava.Tree.ReadProgram

/-!
# How far a reader looks ahead

Whoever reads a tree looks at the tokens that it takes and at one token behind them, and at the places of
none. Two lists of tokens are `Alike` up to a number of tokens if these agree in all but their places. Then
the same tree is read from both, if fewer tokens are taken than are known to agree (`Parsed.Agrees`). There
is one lemma for each reader, and `Program.read_of_alike` is about the whole program.

Nothing is said of what is read when all the tokens that agree were taken. A reader that goes on from there
leaves no more tokens than it was given, and that is all that counts (`Parsed.Agrees.bind`). The readers
that extend what was read before as long as a token tells them to share one recursion (`Repeats`).
-/

namespace MicroJava.Tree

/-- The first `n` tokens of two lists agree in all but their places. The end of a list counts as one. -/
inductive Alike : Nat → List Token → List Token → Prop
  | unseen (ts ts' : List Token) : Alike 0 ts ts'
  | nil (n : Nat) : Alike (n + 1) [] []
  | cons {n : Nat} {ts ts' : List Token} (t : Token) (p : Position) (h : Alike n ts ts') :
      Alike (n + 1) (t :: ts) ({ t with position := p } :: ts')

/-- Of the first `n` tokens of `ts`, which agree with those of another list, at least those are left that
were not taken. As long as one is left, the same was read from both lists. -/
def Parsed.Agrees {α : Type} {s s' : List Token} (p : Parsed α s) (p' : Parsed α s') (n : Nat)
    (ts : List Token) : Prop :=
  ∃ m, Alike m p.rest p'.rest ∧ (0 < m → p'.value = p.value) ∧ n + p.rest.length ≤ m + ts.length

theorem Parsed.length_rest_ite_le {α : Type} {ts : List Token} {b : Bool} {p q : Parsed α ts} {k : Nat}
    (hp : p.rest.length ≤ k) (hq : q.rest.length ≤ k) : (if b then p else q).rest.length ≤ k := by
  split
  · exact hp
  · exact hq

namespace Parsed.Agrees

variable {α β : Type} {s s' r r' ts ts' : List Token} {m n : Nat} {p : Parsed α s} {p' : Parsed α s'}
  {q : Parsed β r} {q' : Parsed β r'}

/-- No token is known to agree. -/
theorem unseen (h : p.rest.length ≤ ts.length) : p.Agrees p' 0 ts :=
  ⟨0, .unseen _ _, fun h => absurd h (Nat.lt_irrefl 0), Nat.add_le_add_left h 0⟩

/-- No token is taken. -/
theorem nothing (h : Alike n p.rest p'.rest) (hvalue : p'.value = p.value) : p.Agrees p' n p.rest :=
  ⟨n, h, fun _ => hvalue, Nat.le_refl _⟩

/-- A token in front was taken. -/
theorem cons {t : Token} (h : p.Agrees p' n ts) : p.Agrees p' (n + 1) (t :: ts) := by
  obtain ⟨m, hrest, hvalue, hlength⟩ := h
  exact ⟨m, hrest, hvalue, by simp only [List.length_cons]; omega⟩

theorem one (a : α) (t : Token) (q : Position) (h : Alike n ts ts') :
    (Parsed.one a t ts).Agrees (Parsed.one a { t with position := q } ts') (n + 1) (t :: ts) :=
  cons ⟨n, h, fun _ => rfl, Nat.le_refl _⟩

/-- Reading goes on in the rest. If no token that agrees is left there, it does not matter how. -/
theorem bind (hp : p.Agrees p' n ts) (hle : q.rest.length ≤ p.rest.length)
    (hq : ∀ m, Alike m p.rest p'.rest → p'.value = p.value → q.Agrees q' m p.rest) :
    q.Agrees q' n ts := by
  obtain ⟨m, hrest, hvalue, hlength⟩ := hp
  rcases Nat.eq_zero_or_pos m with rfl | hm
  -- The values may differ, so `hq` says nothing. As many tokens were taken as are known to agree.
  · exact ⟨0, .unseen _ _, fun h => absurd h (Nat.lt_irrefl 0), by omega⟩
  · obtain ⟨k, hrest', hvalue', hlength'⟩ := hq m hrest (hvalue hm)
    exact ⟨k, hrest', hvalue', by omega⟩

theorem andThen {f : α → (us : List Token) → Parsed β us} (hp : p.Agrees p' n ts)
    (hf : ∀ a us us' m, Alike m us us' → (f a us).Agrees (f a us') m us) :
    (p.andThen f).Agrees (p'.andThen f) n ts :=
  hp.bind (f p.value p.rest).length_rest_le fun m hrest hvalue => by
    obtain ⟨k, hrest', hvalue', hlength⟩ := hf p.value p.rest p'.rest m hrest
    refine ⟨k, ?_, ?_, hlength⟩
    · rwa [rest_andThen, rest_andThen, hvalue]
    · rwa [value_andThen, value_andThen, hvalue]

/-- What decides is seen, or nothing is. -/
theorem ite {b b' : Bool} {q₁ q₂ : Parsed β r} {q₁' q₂' : Parsed β r'} (hb : 0 < n → b' = b)
    (hle : (if b then q₁ else q₂).rest.length ≤ ts.length)
    (h₁ : q₁.Agrees q₁' n ts) (h₂ : q₂.Agrees q₂' n ts) :
    (if b then q₁ else q₂).Agrees (if b' then q₁' else q₂') n ts := by
  rcases Nat.eq_zero_or_pos n with rfl | hn
  · exact .unseen hle
  · rw [hb hn]
    split
    · exact h₁
    · exact h₂

/-- What was read last is made something else. -/
theorem finish (hp : p.Agrees p' n ts) (hrest : q.rest = p.rest) (hrest' : q'.rest = p'.rest)
    (hvalue : p'.value = p.value → q'.value = q.value) : q.Agrees q' n ts := by
  obtain ⟨m, halike, hsame, hlength⟩ := hp
  exact ⟨m, by rwa [hrest, hrest'], fun hm => hvalue (hsame hm), by rwa [hrest]⟩

theorem map {f : α → β} (hp : p.Agrees p' n ts) : (p.map f).Agrees (p'.map f) n ts :=
  hp.finish rfl rfl (congrArg f)

end Parsed.Agrees

section Front

variable {ts ts' : List Token} {n : Nat}

/-- Whether the first token is of a kind is decided alike, if it is seen. -/
theorem Alike.value_accept (h : Alike n ts ts') (kind : Kind) (hn : 0 < n) :
    (accept kind ts').value = (accept kind ts).value := by
  cases h with
  | unseen => exact absurd hn (Nat.lt_irrefl 0)
  | nil => rfl
  | cons t p h =>
      simp only [accept]
      split <;> rfl

theorem Alike.startsWith (h : Alike n ts ts') (p : Kind → Bool) (hn : 0 < n) :
    startsWith p ts' = startsWith p ts := by
  cases h with
  | unseen => exact absurd hn (Nat.lt_irrefl 0)
  | nil => rfl
  | cons => rfl

theorem agrees_accept (kind : Kind) (h : Alike n ts ts') :
    (accept kind ts).Agrees (accept kind ts') n ts := by
  cases h with
  | unseen => exact .unseen (accept kind ts).length_rest_le
  | nil n => exact .nothing (.nil n) rfl
  | cons t p h =>
      simp only [accept]
      split
      · exact .cons (.nothing h rfl)
      · exact .nothing (.cons t p h) rfl

theorem agrees_readName (h : Alike n ts ts') :
    (readName ts).Agrees (readName ts') n ts := by
  cases h with
  | unseen => exact .unseen (readName ts).length_rest_le
  | nil n => exact .nothing (.nil n) rfl
  | cons t p h =>
      simp only [readName]
      split
      · exact .cons (.nothing h rfl)
      · exact .nothing (.cons t p h) rfl

theorem agrees_readNumber (h : Alike n ts ts') :
    (readNumber ts).Agrees (readNumber ts') n ts := by
  cases h with
  | unseen => exact .unseen (readNumber ts).length_rest_le
  | nil n => exact .nothing (.nil n) rfl
  | cons t p h =>
      simp only [readNumber]
      split
      · exact .cons (.nothing h rfl)
      · exact .nothing (.cons t p h) rfl

theorem agrees_skipTo (resumes : Kind → Bool) (h : Alike n ts ts') :
    (skipTo resumes ts).Agrees (skipTo resumes ts') n ts := by
  induction h with
  | unseen => exact .unseen (skipTo resumes _).length_rest_le
  | nil n => exact .nothing (.nil n) rfl
  | @cons n ts₁ ts₁' t p h ih =>
      cases hresumes : resumes t.kind with
      | true =>
          have hnone : (Parsed.nothing 0 (t :: ts₁)).Agrees (.nothing 0 _) (n + 1) (t :: ts₁) :=
            .nothing (.cons t p h) rfl
          exact hnone.finish (by simp [skipTo, hresumes, Parsed.nothing])
            (by simp [skipTo, hresumes, Parsed.nothing]) fun _ => by simp [skipTo, hresumes]
      | false =>
          refine ih.cons.finish (by simp [skipTo, hresumes]) (by simp [skipTo, hresumes]) ?_
          simp [skipTo, hresumes]

end Front

/-! ### Readers that repeat -/

/-- A reader that extends what was read before. At each token `step` tells how to extend it, or that reading
ends there with `result`. -/
structure Repeats {α β : Type} (f : α → (start ts : List Token) → ts <:+ start → Parsed β start)
    (step : Token → Option ((ts : List Token) → Parsed (α → α) ts)) (result : α → β) : Prop where
  nil (x : α) (start : List Token) (h : [] <:+ start) : f x start [] h = ⟨result x, [], h⟩
  cons (x : α) (start : List Token) (t : Token) (ts : List Token) (h : t :: ts <:+ start) :
    f x start (t :: ts) h = match step t with
      | none => ⟨result x, t :: ts, h⟩
      | some extend => f ((extend ts).value x) start (extend ts).rest
          ((extend ts).suffix.trans ((List.suffix_cons t ts).trans h))

namespace Repeats

variable {α β : Type} {f : α → (start ts : List Token) → ts <:+ start → Parsed β start}
  {step : Token → Option ((ts : List Token) → Parsed (α → α) ts)} {result : α → β}

theorem length_rest_le (hf : Repeats f step result) (x : α) (start ts : List Token) (h : ts <:+ start) :
    (f x start ts h).rest.length ≤ ts.length := by
  induction hn : ts.length using Nat.strongRecOn generalizing x ts h with
  | ind n ih =>
      subst hn
      cases ts with
      | nil => exact Nat.le_of_eq (by rw [hf.nil])
      | cons t ts =>
          rw [hf.cons]
          split
          · exact Nat.le_refl _
          · next extend _ =>
              have hle := (extend ts).length_rest_le
              exact Nat.le_trans (ih _ (Nat.lt_succ_of_le hle) _ _ _ rfl) (Nat.le_succ_of_le hle)

/-- What is read when reading is repeated agrees, if what is read at each token does. -/
theorem agrees (hf : Repeats f step result) {start start' ts ts' : List Token} {n : Nat}
    (hplace : ∀ t p, step { t with position := p } = step t)
    (hextend : ∀ t extend, step t = some extend → ∀ us us' m, us.length < ts.length →
      Alike m us us' → (extend us).Agrees (extend us') m us)
    (x : α) (hts : ts <:+ start) (hts' : ts' <:+ start') (h : Alike n ts ts') :
    (f x start ts hts).Agrees (f x start' ts' hts') n ts := by
  -- Reading goes on in what one item leaves, which is shorter but no tail of the list.
  induction hn : ts.length using Nat.strongRecOn generalizing x n ts ts' hts hts' with
  | ind k ih =>
      subst hn
      cases h with
      | unseen => exact .unseen (hf.length_rest_le _ _ _ _)
      | nil n =>
          rw [hf.nil, hf.nil]
          exact .nothing (.nil n) rfl
      | @cons n ts₁ ts₁' t p h =>
          rw [hf.cons, hf.cons, hplace t p]
          cases hstep : step t with
          | none => exact .nothing (.cons t p h) rfl
          | some extend =>
              have hlt := Nat.lt_succ_of_le (extend ts₁).length_rest_le
              refine .cons ((hextend t extend hstep ts₁ ts₁' n (Nat.lt_succ_self _) h).bind
                (hf.length_rest_le _ _ _ _) fun m h hvalue => ?_)
              dsimp only
              rw [hvalue]
              exact ih _ hlt (fun t extend ht us us' m hus =>
                hextend t extend ht us us' m (Nat.lt_trans hus hlt)) _ _ _ h rfl

end Repeats

/-- Reading goes on at the tokens of one kind. -/
def onKind {α : Type} (kind : Kind) (extend : Token → (ts : List Token) → Parsed (α → α) ts)
    (t : Token) : Option ((ts : List Token) → Parsed (α → α) ts) :=
  if t.kind = kind then some (extend t) else none

theorem Repeats.agrees_onKind {α β : Type}
    {f : α → (start ts : List Token) → ts <:+ start → Parsed β start} {kind : Kind}
    {extend : Token → (ts : List Token) → Parsed (α → α) ts} {result : α → β}
    (hf : Repeats f (onKind kind extend) result) {start start' ts ts' : List Token} {n : Nat}
    (hplace : ∀ t p, extend { t with position := p } = extend t)
    (hextend : ∀ t us us' m, Alike m us us' → (extend t us).Agrees (extend t us') m us)
    (x : α) (hts : ts <:+ start) (hts' : ts' <:+ start') (h : Alike n ts ts') :
    (f x start ts hts).Agrees (f x start' ts' hts') n ts := by
  refine hf.agrees (fun t p => ?_) (fun t step hstep us us' m _ h => ?_) x hts hts' h
  · rw [onKind, onKind, hplace t p]
  · rw [onKind] at hstep
    split at hstep
    · cases hstep
      exact hextend t us us' m h
    · cases hstep

/-! ### Expressions -/

theorem repeats_readSum : Repeats readSum (fun t => (addOp? t.kind).map fun op ts =>
    (readTerm ts).map fun right e => .add e op right) id where
  nil _ _ _ := by
    rw [readSum]
    rfl
  cons e start t ts h := by
    rw [readSum]
    cases addOp? t.kind <;> rfl

theorem repeats_readProduct : Repeats readProduct (fun t => match mulOp? t.kind with
    | some op => some fun ts => (readFactor ts).map fun right x => .mul x op right
    | none => if t.kind = .power then
        some fun ts => (readNumber ts).map fun exponent x => .power x exponent
      else none) id where
  nil _ _ _ := by
    rw [readProduct]
    rfl
  cons x start t ts h := by
    rw [readProduct]
    generalize t.kind = kind
    cases kind <;> rfl

theorem repeats_readSelectors : Repeats readSelectors (fun t =>
    if t.kind = .period then some fun ts => (readName ts).map fun name d => .field d name
    else if t.kind = .leftBracket then some fun ts => (readExpr ts).andThen fun index ts =>
      (accept .rightBracket ts).map fun closed d => .element d index closed
    else none) id where
  nil _ _ _ := by
    rw [readSelectors]
    rfl
  cons d start t ts h := by
    rw [readSelectors]
    generalize t.kind = kind
    cases kind <;> rfl

mutual

theorem agrees_readExpr {ts ts' : List Token} {n : Nat} (h : Alike n ts ts') :
    (readExpr ts).Agrees (readExpr ts') n ts := by
  rw [readExpr, readExpr]
  dsimp only
  have := (accept .minus ts).length_rest_le
  have hle := (readTerm (accept .minus ts).rest).length_rest_le
  refine (agrees_accept .minus h).bind
    (Nat.le_trans (repeats_readSum.length_rest_le _ _ _ _) hle) fun m h hminus => ?_
  refine (agrees_readTerm h).bind (repeats_readSum.length_rest_le _ _ _ _) fun m h hfirst => ?_
  rw [hminus, hfirst]
  exact agrees_readSum _ _ _ h
termination_by 8 * ts.length + 4

theorem agrees_readSum (e : Expr) {start start' ts ts' : List Token} {n : Nat}
    (hts : ts <:+ start) (hts' : ts' <:+ start') (h : Alike n ts ts') :
    (readSum e start ts hts).Agrees (readSum e start' ts' hts') n ts := by
  refine repeats_readSum.agrees (fun _ _ => rfl) (fun t extend hextend us us' m hlt h => ?_) e hts hts' h
  obtain ⟨op, -, rfl⟩ := Option.map_eq_some_iff.1 hextend
  exact (agrees_readTerm h).map
termination_by 8 * ts.length

theorem agrees_readTerm {ts ts' : List Token} {n : Nat} (h : Alike n ts ts') :
    (readTerm ts).Agrees (readTerm ts') n ts := by
  rw [readTerm, readTerm]
  dsimp only
  have := (readFactor ts).length_rest_le
  refine (agrees_readFactor h).bind (repeats_readProduct.length_rest_le _ _ _ _) fun m h hfirst => ?_
  rw [hfirst]
  exact agrees_readProduct _ _ _ h
termination_by 8 * ts.length + 3

theorem agrees_readProduct (x : Term) {start start' ts ts' : List Token} {n : Nat}
    (hts : ts <:+ start) (hts' : ts' <:+ start') (h : Alike n ts ts') :
    (readProduct x start ts hts).Agrees (readProduct x start' ts' hts') n ts := by
  refine repeats_readProduct.agrees (fun _ _ => rfl) (fun t extend hextend us us' m hlt h => ?_)
    x hts hts' h
  split at hextend
  · cases hextend
    exact (agrees_readFactor h).map
  · split at hextend
    · cases hextend
      exact (agrees_readNumber h).map
    · cases hextend
termination_by 8 * ts.length

theorem agrees_readFactor {ts ts' : List Token} {n : Nat} (h : Alike n ts ts') :
    (readFactor ts).Agrees (readFactor ts') n ts := by
  match n, ts, ts', h with
  | _, ts, _, .unseen _ _ => exact .unseen (readFactor ts).length_rest_le
  | _, _, _, .nil n =>
      rw [readFactor]
      exact .nothing (.nil n) rfl
  | _, _, _, @Alike.cons n ts₁ ts₁' t p h =>
      rw [readFactor, readFactor]
      dsimp only
      split
      -- If no parenthesis follows, nothing is taken behind the designator, so both ways have a bound.
      · have := (readSelectors (.name (some t.name)) ts₁ ts₁ List.suffix_rfl).length_rest_le
        have hd := agrees_readSelectors (.name (some t.name)) List.suffix_rfl List.suffix_rfl h
        generalize readSelectors (.name (some t.name)) ts₁ ts₁ List.suffix_rfl = d at *
        generalize readSelectors (.name (some t.name)) ts₁' ts₁' List.suffix_rfl = d' at *
        have := (accept .leftParen d.rest).length_rest_le
        have harguments := (readArguments (accept .leftParen d.rest).rest).length_rest_le
        have hclosed :=
          (accept .rightParen (readArguments (accept .leftParen d.rest).rest).rest).length_rest_le
        have hcall := Nat.le_trans hclosed (Nat.le_trans harguments this)
        refine .cons (hd.bind (Parsed.length_rest_ite_le hcall (Nat.le_refl _)) fun m h hdvalue => ?_)
        refine .ite (h.value_accept .leftParen)
          (Parsed.length_rest_ite_le hcall (Nat.le_refl _)) ?_ (.nothing h (by rw [hdvalue]))
        refine (agrees_accept .leftParen h).bind (Nat.le_trans hclosed harguments) fun m h _ => ?_
        refine (agrees_readArguments h).bind hclosed fun m h harguments => ?_
        exact (agrees_accept .rightParen h).finish rfl rfl fun hclosed => by
          rw [hdvalue, harguments, hclosed]
      · exact .cons (.nothing h rfl)
      · exact .cons (.nothing h rfl)
      · have hname := (readName ts₁).length_rest_le
        have hsized := (accept .leftBracket (readName ts₁).rest).length_rest_le
        have hsize := (readExpr (accept .leftBracket (readName ts₁).rest).rest).length_rest_le
        have hclosed := (accept .rightBracket
          (readExpr (accept .leftBracket (readName ts₁).rest).rest).rest).length_rest_le
        have hnew := Nat.le_trans hclosed (Nat.le_trans hsize hsized)
        refine .cons ((agrees_readName h).bind (Parsed.length_rest_ite_le hnew (Nat.le_refl _))
          fun m h hname => ?_)
        refine .ite (h.value_accept .leftBracket)
          (Parsed.length_rest_ite_le hnew (Nat.le_refl _)) ?_ (.nothing h (by rw [hname]))
        refine (agrees_accept .leftBracket h).bind (Nat.le_trans hclosed hsize) fun m h _ => ?_
        refine (agrees_readExpr h).bind hclosed fun m h hsize => ?_
        exact (agrees_accept .rightBracket h).finish rfl rfl fun hclosed => by
          rw [hname, hsize, hclosed]
      · refine .cons ((agrees_readExpr h).bind (accept .rightParen (readExpr ts₁).rest).length_rest_le
          fun m h he => ?_)
        exact (agrees_accept .rightParen h).finish rfl rfl fun hclosed => by rw [he, hclosed]
      · exact .nothing (.cons t p h) rfl
termination_by 8 * ts.length + 2

theorem agrees_readSelectors (d : Designator) {start start' ts ts' : List Token} {n : Nat}
    (hts : ts <:+ start) (hts' : ts' <:+ start') (h : Alike n ts ts') :
    (readSelectors d start ts hts).Agrees (readSelectors d start' ts' hts') n ts := by
  refine repeats_readSelectors.agrees (fun _ _ => rfl) (fun t extend hextend us us' m hlt h => ?_)
    d hts hts' h
  split at hextend
  · cases hextend
    exact (agrees_readName h).map
  · split at hextend
    · cases hextend
      exact (agrees_readExpr h).andThen fun _ _ _ _ h => (agrees_accept .rightBracket h).map
    · cases hextend
termination_by 8 * ts.length

theorem agrees_readArguments {ts ts' : List Token} {n : Nat} (h : Alike n ts ts') :
    (readArguments ts).Agrees (readArguments ts') n ts := by
  have hfirst := (readExpr ts).length_rest_le
  have hothers := (readMoreArguments (readExpr ts).rest).length_rest_le
  rw [readArguments, readArguments]
  dsimp only
  refine .ite (h.startsWith startsExpr)
    (Parsed.length_rest_ite_le (Nat.le_trans hothers hfirst) (Nat.le_refl _)) ?_ (.nothing h rfl)
  refine (agrees_readExpr h).bind hothers fun m h hfirst => ?_
  exact (agrees_readMoreArguments h).finish rfl rfl fun hothers => by rw [hfirst, hothers]
termination_by 8 * ts.length + 6

theorem agrees_readMoreArguments {ts ts' : List Token} {n : Nat} (h : Alike n ts ts') :
    (readMoreArguments ts).Agrees (readMoreArguments ts') n ts := by
  match n, ts, ts', h with
  | _, ts, _, .unseen _ _ => exact .unseen (readMoreArguments ts).length_rest_le
  | _, _, _, .nil n =>
      rw [readMoreArguments]
      exact .nothing (.nil n) rfl
  | _, _, _, @Alike.cons n ts₁ ts₁' t p h =>
      rw [readMoreArguments, readMoreArguments]
      dsimp only
      split
      · have := (readExpr ts₁).length_rest_le
        refine .cons ((agrees_readExpr h).bind
          (readMoreArguments (readExpr ts₁).rest).length_rest_le fun m h hnext => ?_)
        exact (agrees_readMoreArguments h).finish rfl rfl fun hothers => by rw [hnext, hothers]
      · exact .nothing (.cons t p h) rfl
termination_by 8 * ts.length + 5

end

/-! ### Conditions -/

section Conditions

variable {ts ts' : List Token} {n : Nat}

theorem agrees_readDesignator (h : Alike n ts ts') :
    (readDesignator ts).Agrees (readDesignator ts') n ts :=
  (agrees_readName h).andThen fun _ _ _ _ h => agrees_readSelectors _ _ _ h

theorem agrees_readRelation (h : Alike n ts ts') :
    (readRelation ts).Agrees (readRelation ts') n ts := by
  cases h with
  | unseen => exact .unseen (readRelation ts).length_rest_le
  | nil n => exact .nothing (.nil n) rfl
  | cons t p h =>
      simp only [readRelation]
      split
      · exact .cons (.nothing h rfl)
      · exact .nothing (.cons t p h) rfl

theorem agrees_readComparison (h : Alike n ts ts') :
    (readComparison ts).Agrees (readComparison ts') n ts :=
  (agrees_readExpr h).andThen fun _ _ _ _ h =>
    (agrees_readRelation h).andThen fun _ _ _ _ h => (agrees_readExpr h).map

end Conditions

theorem repeats_readMoreComparisons : Repeats readMoreComparisons (onKind .and fun _ ts =>
    (readComparison ts).map fun next cs => .and cs next) id where
  nil _ _ _ := by
    rw [readMoreComparisons]
    rfl
  cons x start t ts h := by
    rw [readMoreComparisons, onKind]
    split <;> rfl

theorem agrees_readMoreComparisons (cs : Conjunction) {start start' ts ts' : List Token} {n : Nat}
    (hts : ts <:+ start) (hts' : ts' <:+ start') (h : Alike n ts ts') :
    (readMoreComparisons cs start ts hts).Agrees (readMoreComparisons cs start' ts' hts') n ts :=
  repeats_readMoreComparisons.agrees_onKind (fun _ _ => rfl)
    (fun _ _ _ _ h => (agrees_readComparison h).map) cs hts hts' h

theorem agrees_readConjunction {ts ts' : List Token} {n : Nat} (h : Alike n ts ts') :
    (readConjunction ts).Agrees (readConjunction ts') n ts :=
  (agrees_readComparison h).andThen fun _ _ _ _ h => agrees_readMoreComparisons _ _ _ h

theorem repeats_readMoreConjunctions : Repeats readMoreConjunctions (onKind .or fun _ ts =>
    (readConjunction ts).map fun next cs => .or cs next) id where
  nil _ _ _ := by
    rw [readMoreConjunctions]
    rfl
  cons x start t ts h := by
    rw [readMoreConjunctions, onKind]
    split <;> rfl

theorem agrees_readMoreConjunctions (cs : Condition) {start start' ts ts' : List Token} {n : Nat}
    (hts : ts <:+ start) (hts' : ts' <:+ start') (h : Alike n ts ts') :
    (readMoreConjunctions cs start ts hts).Agrees (readMoreConjunctions cs start' ts' hts') n ts :=
  repeats_readMoreConjunctions.agrees_onKind (fun _ _ => rfl)
    (fun _ _ _ _ h => (agrees_readConjunction h).map) cs hts hts' h

theorem agrees_readCondition {ts ts' : List Token} {n : Nat} (h : Alike n ts ts') :
    (readCondition ts).Agrees (readCondition ts') n ts :=
  (agrees_readConjunction h).andThen fun _ _ _ _ h => agrees_readMoreConjunctions _ _ _ h

/-! ### Statements -/

section Parts

variable {ts ts' : List Token} {n : Nat}

theorem agrees_readAction (h : Alike n ts ts') : (readAction ts).Agrees (readAction ts') n ts := by
  cases h with
  | unseen => exact .unseen (readAction ts).length_rest_le
  | nil n => exact .nothing (.nil n) rfl
  | cons t p h =>
      simp only [readAction]
      split
      · exact (Parsed.Agrees.one _ t p h).andThen fun _ _ _ _ h => (agrees_readExpr h).map
      · exact (Parsed.Agrees.one _ t p h).andThen fun _ _ _ _ h =>
          (agrees_readArguments h).andThen fun _ _ _ _ h => (agrees_accept .rightParen h).map
      · exact .cons (.nothing h rfl)
      · exact .cons (.nothing h rfl)
      · exact .nothing (.cons t p h) rfl

theorem agrees_readGuard (h : Alike n ts ts') : (readGuard ts).Agrees (readGuard ts') n ts :=
  (agrees_accept .leftParen h).andThen fun _ _ _ _ h =>
    (agrees_readCondition h).andThen fun _ _ _ _ h => (agrees_accept .rightParen h).map

theorem agrees_readWidth (h : Alike n ts ts') : (readWidth ts).Agrees (readWidth ts') n ts :=
  (agrees_accept .comma h).andThen fun announced _ _ _ h => by
    cases announced with
    | false => exact .nothing h rfl
    | true => exact (agrees_readNumber h).map

end Parts

theorem repeats_readStatements : Repeats readStatements (fun t => match statementHead? t with
    | some head => some fun ts => (readAfter head ts).map fun s before => s :: before
    | none => if t.kind = .rightBrace then none
      else some fun ts => (skipTo resumesStatement ts).map fun more before => .skipped more :: before)
    List.reverse where
  nil _ _ _ := by rw [readStatements]
  cons before start t ts h := by
    rw [readStatements]
    unfold statementHead?
    generalize t.kind = kind
    cases kind <;> rfl

mutual

theorem agrees_readStatement {ts ts' : List Token} {n : Nat} (h : Alike n ts ts') :
    (readStatement ts).Agrees (readStatement ts') n ts := by
  match n, ts, ts', h with
  | _, ts, _, .unseen _ _ => exact .unseen (readStatement ts).length_rest_le
  | _, _, _, .nil n =>
      rw [readStatement]
      exact .nothing (.nil n) rfl
  | _, _, _, @Alike.cons n ts₁ ts₁' t p h =>
      rw [readStatement, readStatement]
      dsimp only [statementHead?]
      split
      · exact .nothing (.cons t p h) rfl
      · next head hhead => exact .cons ((agrees_readAfter head h).finish rfl rfl id)
termination_by 2 * ts.length

theorem agrees_readAfter (head : StatementHead) {ts ts' : List Token} {n : Nat} (h : Alike n ts ts') :
    (readAfter head ts).Agrees (readAfter head ts') n ts := by
  cases head with
  | name s =>
      rw [readAfter, readAfter]
      exact (agrees_readSelectors _ _ _ h).andThen
        (f := fun d ts => (readAction ts).andThen fun action ts =>
          (accept .semicolon ts).map fun ended => Statement.action d action ended)
        fun _ _ _ _ h => (agrees_readAction h).andThen fun _ _ _ _ h => (agrees_accept .semicolon h).map
  | ifWord =>
      rw [readAfter, readAfter]
      dsimp only
      have := (readGuard ts).length_rest_le
      have hbody := (readStatement (readGuard ts).rest).length_rest_le
      have := (accept .kwElse (readStatement (readGuard ts).rest).rest).length_rest_le
      have hother :=
        (readStatement (accept .kwElse (readStatement (readGuard ts).rest).rest).rest).length_rest_le
      have hboth := Nat.le_trans hother this
      refine (agrees_readGuard h).bind
        (Nat.le_trans (Parsed.length_rest_ite_le hboth (Nat.le_refl _)) hbody) fun m h hguard => ?_
      refine (agrees_readStatement h).bind (Parsed.length_rest_ite_le hboth (Nat.le_refl _))
        fun m h hbody => ?_
      refine .ite (h.value_accept .kwElse)
        (Parsed.length_rest_ite_le hboth (Nat.le_refl _)) ?_ (.nothing h ?_)
      · refine (agrees_accept .kwElse h).bind hother fun m h _ => ?_
        refine (agrees_readStatement h).finish rfl rfl fun hother => ?_
        simp only [hguard, hbody, hother]
      · simp only [hguard, hbody]
  | whileWord =>
      rw [readAfter, readAfter]
      dsimp only
      have := (readGuard ts).length_rest_le
      refine (agrees_readGuard h).bind (readStatement (readGuard ts).rest).length_rest_le
        fun m h hguard => ?_
      refine (agrees_readStatement h).finish rfl rfl fun hbody => ?_
      simp only [hguard, hbody]
  | breakWord =>
      rw [readAfter, readAfter]
      exact (agrees_accept .semicolon h).map
  | returnWord =>
      rw [readAfter, readAfter]
      dsimp only
      refine .ite (h.startsWith startsExpr) (Parsed.length_rest_le _) ?_ ?_
      · exact (agrees_readExpr h).andThen
          (f := fun value ts => (accept .semicolon ts).map fun ended => Statement.give (some value) ended)
          fun _ _ _ _ h => (agrees_accept .semicolon h).map
      · exact (agrees_accept .semicolon h).map
  | readWord =>
      rw [readAfter, readAfter]
      exact (agrees_accept .leftParen h).andThen
        (f := fun opened ts => (readDesignator ts).andThen fun d ts =>
          (accept .rightParen ts).andThen fun closed ts =>
            (accept .semicolon ts).map fun ended => Statement.read opened d closed ended)
        fun _ _ _ _ h => (agrees_readDesignator h).andThen fun _ _ _ _ h =>
          (agrees_accept .rightParen h).andThen fun _ _ _ _ h => (agrees_accept .semicolon h).map
  | printWord =>
      rw [readAfter, readAfter]
      exact (agrees_accept .leftParen h).andThen
        (f := fun opened ts => (readExpr ts).andThen fun value ts =>
          (readWidth ts).andThen fun width ts => (accept .rightParen ts).andThen fun closed ts =>
            (accept .semicolon ts).map fun ended => Statement.print opened value width closed ended)
        fun _ _ _ _ h => (agrees_readExpr h).andThen fun _ _ _ _ h =>
          (agrees_readWidth h).andThen fun _ _ _ _ h =>
            (agrees_accept .rightParen h).andThen fun _ _ _ _ h => (agrees_accept .semicolon h).map
  | brace =>
      rw [readAfter, readAfter]
      dsimp only
      refine (agrees_readStatements [] List.suffix_rfl List.suffix_rfl h).bind
        (accept .rightBrace _).length_rest_le fun m h hstatements => ?_
      exact (agrees_accept .rightBrace h).finish rfl rfl fun hclosed => by rw [hstatements, hclosed]
  | semicolon =>
      rw [readAfter, readAfter]
      exact .nothing h rfl
termination_by 2 * ts.length + 1

theorem agrees_readStatements (before : List Statement) {start start' ts ts' : List Token} {n : Nat}
    (hts : ts <:+ start) (hts' : ts' <:+ start') (h : Alike n ts ts') :
    (readStatements before start ts hts).Agrees (readStatements before start' ts' hts') n ts := by
  refine repeats_readStatements.agrees (fun _ _ => rfl) (fun t extend hextend us us' m hlt h => ?_)
    before hts hts' h
  split at hextend
  · next head _ =>
      cases hextend
      exact (agrees_readAfter head h).map
  · split at hextend
    · cases hextend
    · cases hextend
      exact (agrees_skipTo resumesStatement h).map
termination_by 2 * ts.length

end

/-! ### Programs -/

section Parts

variable {ts ts' : List Token} {n : Nat}

theorem agrees_readArrayMark (h : Alike n ts ts') :
    (readArrayMark ts).Agrees (readArrayMark ts') n ts :=
  (agrees_accept .leftBracket h).andThen fun opened _ _ _ h => by
    cases opened with
    | false => exact .nothing h rfl
    | true => exact (agrees_accept .rightBracket h).map

theorem agrees_readTypeName (h : Alike n ts ts') : (readTypeName ts).Agrees (readTypeName ts') n ts :=
  (agrees_readName h).andThen fun _ _ _ _ h => (agrees_readArrayMark h).map

theorem agrees_readConstantValue (h : Alike n ts ts') :
    (readConstantValue ts).Agrees (readConstantValue ts') n ts := by
  cases h with
  | unseen => exact .unseen (readConstantValue ts).length_rest_le
  | nil n => exact .nothing (.nil n) rfl
  | cons t p h =>
      simp only [readConstantValue]
      split
      · exact .one _ t p h
      · exact .one _ t p h
      · exact .nothing (.cons t p h) rfl

theorem agrees_readConstant (h : Alike n ts ts') : (readConstant ts).Agrees (readConstant ts') n ts :=
  (agrees_readTypeName h).andThen fun _ _ _ _ h => (agrees_readName h).andThen fun _ _ _ _ h =>
    (agrees_accept .assign h).andThen fun _ _ _ _ h =>
      (agrees_readConstantValue h).andThen fun _ _ _ _ h => (agrees_accept .semicolon h).map

theorem agrees_readParameter (h : Alike n ts ts') :
    (readParameter ts).Agrees (readParameter ts') n ts :=
  (agrees_readTypeName h).andThen fun _ _ _ _ h => (agrees_readName h).map

end Parts

theorem repeats_readMoreNames : Repeats readMoreNames (onKind .comma fun _ ts =>
    (readName ts).map fun name before => name :: before) List.reverse where
  nil _ _ _ := by rw [readMoreNames]
  cons x start t ts h := by
    rw [readMoreNames, onKind]
    split <;> rfl

theorem agrees_readMoreNames (before : List (Option String)) {start start' ts ts' : List Token} {n : Nat}
    (hts : ts <:+ start) (hts' : ts' <:+ start') (h : Alike n ts ts') :
    (readMoreNames before start ts hts).Agrees (readMoreNames before start' ts' hts') n ts :=
  repeats_readMoreNames.agrees_onKind (fun _ _ => rfl)
    (fun _ _ _ _ h => (agrees_readName h).map) before hts hts' h

theorem agrees_readVariables (type : TypeName) {ts ts' : List Token} {n : Nat} (h : Alike n ts ts') :
    (readVariables type ts).Agrees (readVariables type ts') n ts :=
  (agrees_readName h).andThen fun _ _ _ _ h => (agrees_readMoreNames _ _ _ h).andThen fun _ _ _ _ h =>
    (agrees_accept .semicolon h).map

theorem agrees_readVariablesAfter (name : String) {ts ts' : List Token} {n : Nat}
    (h : Alike n ts ts') : (readVariablesAfter name ts).Agrees (readVariablesAfter name ts') n ts :=
  (agrees_readArrayMark h).andThen fun _ _ _ _ h => agrees_readVariables _ h

theorem repeats_readVariableDecls : Repeats readVariableDecls (onKind .ident fun t ts =>
    (readVariablesAfter t.name ts).map fun d before => d :: before) List.reverse where
  nil _ _ _ := by rw [readVariableDecls]
  cons x start t ts h := by
    rw [readVariableDecls, onKind]
    split <;> rfl

theorem agrees_readVariableDecls (before : List VariableDecl) {start start' ts ts' : List Token}
    {n : Nat} (hts : ts <:+ start) (hts' : ts' <:+ start') (h : Alike n ts ts') :
    (readVariableDecls before start ts hts).Agrees (readVariableDecls before start' ts' hts') n ts :=
  repeats_readVariableDecls.agrees_onKind (fun _ _ => rfl)
    (fun t _ _ _ h => (agrees_readVariablesAfter t.name h).map) before hts hts' h

theorem agrees_readClass {ts ts' : List Token} {n : Nat} (h : Alike n ts ts') :
    (readClass ts).Agrees (readClass ts') n ts :=
  (agrees_readName h).andThen fun _ _ _ _ h => (agrees_accept .leftBrace h).andThen fun _ _ _ _ h =>
    (agrees_readVariableDecls _ _ _ h).andThen fun _ _ _ _ h => (agrees_accept .rightBrace h).map

theorem repeats_readDeclarations : Repeats readDeclarations (fun t => match t.kind with
    | .kwFinal => some fun ts => (readConstant ts).map fun d before => .constant d :: before
    | .ident => some fun ts => (readVariablesAfter t.name ts).map fun d before => .globals d :: before
    | .kwClass => some fun ts => (readClass ts).map fun d before => .object d :: before
    | .leftBrace => none
    | _ => some fun ts => (skipTo resumesDeclaration ts).map fun more before => .skipped more :: before)
    List.reverse where
  nil _ _ _ := by rw [readDeclarations]
  cons before start t ts h := by
    rw [readDeclarations]
    generalize t.kind = kind
    cases kind <;> rfl

theorem agrees_readDeclarations (before : List Declaration) {start start' ts ts' : List Token} {n : Nat}
    (hts : ts <:+ start) (hts' : ts' <:+ start') (h : Alike n ts ts') :
    (readDeclarations before start ts hts).Agrees (readDeclarations before start' ts' hts') n ts := by
  refine repeats_readDeclarations.agrees (fun _ _ => rfl)
    (fun t extend hextend us us' m hlt h => ?_) before hts hts' h
  split at hextend
  · cases hextend
    exact (agrees_readConstant h).map
  · cases hextend
    exact (agrees_readVariablesAfter t.name h).map
  · cases hextend
    exact (agrees_readClass h).map
  · cases hextend
  · cases hextend
    exact (agrees_skipTo resumesDeclaration h).map

theorem repeats_readMoreParameters : Repeats readMoreParameters (onKind .comma fun _ ts =>
    (readParameter ts).map fun p before => p :: before) List.reverse where
  nil _ _ _ := by rw [readMoreParameters]
  cons x start t ts h := by
    rw [readMoreParameters, onKind]
    split <;> rfl

theorem agrees_readMoreParameters (before : List Parameter) {start start' ts ts' : List Token} {n : Nat}
    (hts : ts <:+ start) (hts' : ts' <:+ start') (h : Alike n ts ts') :
    (readMoreParameters before start ts hts).Agrees (readMoreParameters before start' ts' hts') n ts :=
  repeats_readMoreParameters.agrees_onKind (fun _ _ => rfl)
    (fun _ _ _ _ h => (agrees_readParameter h).map) before hts hts' h

theorem agrees_readParameters {ts ts' : List Token} {n : Nat} (h : Alike n ts ts') :
    (readParameters ts).Agrees (readParameters ts') n ts := by
  refine .ite (h.startsWith _) (Parsed.length_rest_le _) ?_ (.nothing h rfl)
  exact (agrees_readParameter h).andThen fun _ _ _ _ h => agrees_readMoreParameters _ _ _ h

theorem agrees_readMethod (type : Option TypeName) {ts ts' : List Token} {n : Nat}
    (h : Alike n ts ts') : (readMethod type ts).Agrees (readMethod type ts') n ts :=
  (agrees_readName h).andThen fun _ _ _ _ h => (agrees_accept .leftParen h).andThen fun _ _ _ _ h =>
    (agrees_readParameters h).andThen fun _ _ _ _ h => (agrees_accept .rightParen h).andThen
      fun _ _ _ _ h => (agrees_readVariableDecls _ _ _ h).andThen fun _ _ _ _ h =>
        (agrees_accept .leftBrace h).andThen fun _ _ _ _ h =>
          (agrees_readStatements _ _ _ h).andThen fun _ _ _ _ h => (agrees_accept .rightBrace h).map

theorem repeats_readMembers : Repeats readMembers (fun t => match t.kind with
    | .kwVoid => some fun ts => (readMethod none ts).map fun d before => .method d :: before
    | .ident => some fun ts => (readArrayMark ts).andThen fun array ts =>
        (readMethod (some { name := some t.name, array }) ts).map fun d before => .method d :: before
    | .rightBrace => none
    | _ => some fun ts => (skipTo resumesMember ts).map fun more before => .skipped more :: before)
    List.reverse where
  nil _ _ _ := by rw [readMembers]
  cons before start t ts h := by
    rw [readMembers]
    generalize t.kind = kind
    cases kind <;> rfl

theorem agrees_readMembers (before : List Member) {start start' ts ts' : List Token} {n : Nat}
    (hts : ts <:+ start) (hts' : ts' <:+ start') (h : Alike n ts ts') :
    (readMembers before start ts hts).Agrees (readMembers before start' ts' hts') n ts := by
  refine repeats_readMembers.agrees (fun _ _ => rfl) (fun t extend hextend us us' m hlt h => ?_)
    before hts hts' h
  split at hextend
  · cases hextend
    exact (agrees_readMethod none h).map
  · cases hextend
    exact (agrees_readArrayMark h).andThen fun _ _ _ _ h => (agrees_readMethod _ h).map
  · cases hextend
  · cases hextend
    exact (agrees_skipTo resumesMember h).map

theorem agrees_readProgram {ts ts' : List Token} {n : Nat} (h : Alike n ts ts') :
    (readProgram ts).Agrees (readProgram ts') n ts :=
  (agrees_accept .kwProgram h).andThen fun _ _ _ _ h => (agrees_readName h).andThen fun _ _ _ _ h =>
    (agrees_readDeclarations _ _ _ h).andThen fun _ _ _ _ h =>
      (agrees_accept .leftBrace h).andThen fun _ _ _ _ h =>
        (agrees_readMembers _ _ _ h).andThen fun _ _ _ _ h =>
          (agrees_accept .rightBrace h).andThen fun _ _ _ _ h => by
            cases h with
            | unseen => exact .unseen (Nat.le_refl _)
            | nil n => exact .nothing (.nil n) rfl
            | cons t p h => exact .nothing (.cons t p h) rfl

/-- The tree of a program is decided by the tokens that were taken and the one behind them. -/
theorem Program.read_of_alike {ts ts' : List Token} {n : Nat} (h : Alike n ts ts')
    (hn : ts.length < n + (readProgram ts).rest.length) : Program.read ts' = Program.read ts := by
  obtain ⟨m, -, hvalue, hlength⟩ := agrees_readProgram h
  exact hvalue (by omega)

end MicroJava.Tree
