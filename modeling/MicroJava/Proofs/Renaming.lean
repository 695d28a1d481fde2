import MicroJava.Proofs.Lookahead

/-!
# Reading renamed tokens

A renaming `ρ` of names acts on tokens (`Token.rename`) and on trees (`Tree.Program.rename`). Reading looks
at kinds only and copies names, so the tree of renamed tokens is the renamed tree, whatever `ρ` is
(`Tree.Program.read_rename`). There is one lemma for each reader.
-/

namespace MicroJava

variable (ρ : String → String)

/-- The token with another name. -/
def Token.rename (t : Token) : Token :=
  { t with name := ρ t.name }

@[simp]
theorem Token.kind_rename (t : Token) : (t.rename ρ).kind = t.kind := rfl

namespace Tree

/-! ### Renamed trees -/

mutual

/-- The sum with other names. -/
def Expr.rename : Expr → Expr
  | .term t => .term t.rename
  | .neg t => .neg t.rename
  | .add e op t => .add e.rename op t.rename

/-- The product with other names. -/
def Term.rename : Term → Term
  | .factor f => .factor f.rename
  | .mul t op f => .mul t.rename op f.rename
  | .power t exponent => .power t.rename exponent

/-- The factor with other names. -/
def Factor.rename : Factor → Factor
  | .designator d => .designator d.rename
  | .call d arguments closed => .call d.rename (renameExprs arguments) closed
  | .number n => .number n
  | .char n => .char n
  | .newObject name => .newObject (name.map ρ)
  | .newArray name size closed => .newArray (name.map ρ) size.rename closed
  | .group e closed => .group e.rename closed
  | .missing => .missing

/-- The designator with other names. -/
def Designator.rename : Designator → Designator
  | .name n => .name (n.map ρ)
  | .field d n => .field d.rename (n.map ρ)
  | .element d index closed => .element d.rename index.rename closed

/-- Several sums with other names. -/
def renameExprs : List Expr → List Expr
  | [] => []
  | e :: es => e.rename :: renameExprs es

end

/-- The comparison with other names. -/
def Comparison.rename (c : Comparison) : Comparison :=
  { left := c.left.rename ρ, relation := c.relation, right := c.right.rename ρ }

/-- The conjunction with other names. -/
def Conjunction.rename : Conjunction → Conjunction
  | .comparison c => .comparison (c.rename ρ)
  | .and cs c => .and cs.rename (c.rename ρ)

/-- The condition with other names. -/
def Condition.rename : Condition → Condition
  | .conjunction c => .conjunction (c.rename ρ)
  | .or cs c => .or cs.rename (c.rename ρ)

/-- What happens to a designator, with other names. -/
def Action.rename : Action → Action
  | .assign op value => .assign op (value.rename ρ)
  | .call arguments closed => .call (renameExprs ρ arguments) closed
  | .increment => .increment
  | .decrement => .decrement
  | .missing => .missing

mutual

/-- The statement with other names. -/
def Statement.rename : Statement → Statement
  | .action d a ended => .action (d.rename ρ) (a.rename ρ) ended
  | .ifThen opened condition closed body => .ifThen opened (condition.rename ρ) closed body.rename
  | .ifThenElse opened condition closed body other =>
    .ifThenElse opened (condition.rename ρ) closed body.rename other.rename
  | .whileDo opened condition closed body => .whileDo opened (condition.rename ρ) closed body.rename
  | .leave ended => .leave ended
  | .give value ended => .give (value.map (Expr.rename ρ)) ended
  | .read opened d closed ended => .read opened (d.rename ρ) closed ended
  | .print opened value width closed ended => .print opened (value.rename ρ) width closed ended
  | .block statements closed => .block (renameStatements statements) closed
  | .empty => .empty
  | .missing => .missing
  | .skipped more => .skipped more

/-- Several statements with other names. -/
def renameStatements : List Statement → List Statement
  | [] => []
  | s :: ss => s.rename :: renameStatements ss

end

/-- The mention of a type with another name. -/
def TypeName.rename (t : TypeName) : TypeName :=
  { t with name := t.name.map ρ }

/-- The declaration of variables with other names. -/
def VariableDecl.rename (d : VariableDecl) : VariableDecl :=
  { d with type := d.type.rename ρ, first := d.first.map ρ, others := d.others.map (Option.map ρ) }

/-- The declaration of a constant with other names. -/
def ConstantDecl.rename (d : ConstantDecl) : ConstantDecl :=
  { d with type := d.type.rename ρ, name := d.name.map ρ }

/-- The declaration of a class with other names. -/
def ClassDecl.rename (d : ClassDecl) : ClassDecl :=
  { d with name := d.name.map ρ, fields := d.fields.map (VariableDecl.rename ρ) }

/-- The declaration with other names. -/
def Declaration.rename : Declaration → Declaration
  | .constant d => .constant (d.rename ρ)
  | .globals d => .globals (d.rename ρ)
  | .object d => .object (d.rename ρ)
  | .skipped more => .skipped more

/-- The formal parameter with other names. -/
def Parameter.rename (p : Parameter) : Parameter :=
  { type := p.type.rename ρ, name := p.name.map ρ }

/-- The method with other names. -/
def MethodDecl.rename (d : MethodDecl) : MethodDecl :=
  { d with
    type := d.type.map (TypeName.rename ρ)
    name := d.name.map ρ
    parameters := d.parameters.map (Parameter.rename ρ)
    locals := d.locals.map (VariableDecl.rename ρ)
    body := renameStatements ρ d.body }

/-- The method of a program with other names. -/
def Member.rename : Member → Member
  | .method d => .method (d.rename ρ)
  | .skipped more => .skipped more

/-- The program with other names. -/
def Program.rename (p : Program) : Program :=
  { p with
    name := p.name.map ρ
    declarations := p.declarations.map (Declaration.rename ρ)
    members := p.members.map (Member.rename ρ) }

theorem renameStatements_eq_map (ss : List Statement) :
    renameStatements ρ ss = ss.map (Statement.rename ρ) := by
  induction ss with
  | nil => rfl
  | cons s ss ih => rw [renameStatements, ih, List.map_cons]

/-! ### Two readings -/

variable {ρ}

/-- The second list has the tokens of the first one with other names. -/
inductive Renamed (ρ : String → String) : List Token → List Token → Prop
  | nil : Renamed ρ [] []
  | cons {ts ts' : List Token} (t : Token) (h : Renamed ρ ts ts') : Renamed ρ (t :: ts) (t.rename ρ :: ts')

theorem renamed_map (ts : List Token) : Renamed ρ ts (ts.map (Token.rename ρ)) := by
  induction ts with
  | nil => exact .nil
  | cons t ts ih => exact .cons t ih

theorem Renamed.isEmpty {ts ts' : List Token} (h : Renamed ρ ts ts') : ts'.isEmpty = ts.isEmpty := by
  cases h <;> rfl

theorem Renamed.startsWith {ts ts' : List Token} (h : Renamed ρ ts ts') (p : Kind → Bool) :
    startsWith p ts' = startsWith p ts := by
  cases h <;> rfl

/-- What was read from two lists is related by `R`, and the rests differ in names only. -/
structure Parsed.Renames {α α' : Type} (ρ : String → String) (R : α → α' → Prop) {s s' : List Token}
    (p : Parsed α s) (p' : Parsed α' s') : Prop where
  value : R p.value p'.value
  rest : Renamed ρ p.rest p'.rest

/-- The second value is the first one with other names, as `k` replaces them. -/
def Along {α : Type} (k : α → α) (a a' : α) : Prop :=
  a' = k a

theorem Along.intro {α : Type} (k : α → α) (a : α) : Along k a (k a) := rfl

/-- The second function does to what has other names what the first one does to what has not. -/
def Commutes {α : Type} (k : α → α) (f f' : α → α) : Prop :=
  ∀ a, f' (k a) = k (f a)

namespace Parsed.Renames

variable {α β α' β' : Type} {s s' r r' ts ts' : List Token} {R : α → α' → Prop} {S : β → β' → Prop}
  {p : Parsed α s} {p' : Parsed α' s'}

theorem nothing {a : α} {a' : α'} (ha : R a a') (h : Renamed ρ ts ts') :
    (Parsed.nothing a ts).Renames ρ R (Parsed.nothing a' ts') :=
  ⟨ha, h⟩

theorem one {a : α} {a' : α'} (ha : R a a') (t t' : Token) (h : Renamed ρ ts ts') :
    (Parsed.one a t ts).Renames ρ R (Parsed.one a' t' ts') :=
  ⟨ha, h⟩

theorem andThen {f : α → (us : List Token) → Parsed β us} {f' : α' → (us : List Token) → Parsed β' us}
    (hp : p.Renames ρ R p')
    (hf : ∀ a a' us us', R a a' → Renamed ρ us us' → (f a us).Renames ρ S (f' a' us')) :
    (p.andThen f).Renames ρ S (p'.andThen f') :=
  ⟨(hf _ _ _ _ hp.value hp.rest).value, (hf _ _ _ _ hp.value hp.rest).rest⟩

theorem map {f : α → β} {f' : α' → β'} (hp : p.Renames ρ R p') (hf : ∀ a a', R a a' → S (f a) (f' a')) :
    (p.map f).Renames ρ S (p'.map f') :=
  ⟨hf _ _ hp.value, hp.rest⟩

/-- What decides is the same in both readings. -/
theorem ite {c c' : Prop} [Decidable c] [Decidable c'] {q₁ q₂ : Parsed β r} {q₁' q₂' : Parsed β' r'}
    (hc : c' ↔ c) (h₁ : q₁.Renames ρ S q₁') (h₂ : q₂.Renames ρ S q₂') :
    (if c then q₁ else q₂).Renames ρ S (if c' then q₁' else q₂') := by
  by_cases h : c
  · rwa [if_pos h, if_pos (hc.2 h)]
  · rwa [if_neg h, if_neg (mt hc.1 h)]

end Parsed.Renames

section Front

variable {ts ts' : List Token}

theorem renames_accept (kind : Kind) (h : Renamed ρ ts ts') :
    (accept kind ts).Renames ρ Eq (accept kind ts') := by
  cases h with
  | nil => exact .nothing rfl .nil
  | cons t h => exact .ite Iff.rfl (.one rfl t _ h) (.nothing rfl (.cons t h))

theorem renames_readName (h : Renamed ρ ts ts') :
    (readName ts).Renames ρ (Along (Option.map ρ)) (readName ts') := by
  cases h with
  | nil => exact .nothing rfl .nil
  | cons t h =>
      exact .ite Iff.rfl (.one (.intro _ (some t.name)) t _ h) (.nothing (.intro _ none) (.cons t h))

theorem renames_readNumber (h : Renamed ρ ts ts') :
    (readNumber ts).Renames ρ Eq (readNumber ts') := by
  cases h with
  | nil => exact .nothing rfl .nil
  | cons t h => exact .ite Iff.rfl (.one rfl t _ h) (.nothing rfl (.cons t h))

theorem renames_skipTo (resumes : Kind → Bool) (h : Renamed ρ ts ts') :
    (skipTo resumes ts).Renames ρ Eq (skipTo resumes ts') := by
  induction h with
  | nil => exact ⟨rfl, .nil⟩
  | cons t h ih =>
      cases hresumes : resumes t.kind with
      | true => exact ⟨by simp [skipTo, hresumes], by simpa [skipTo, hresumes] using .cons t h⟩
      | false =>
          refine ⟨?_, by simpa [skipTo, hresumes] using ih.rest⟩
          simpa [skipTo, hresumes] using ih.value

end Front

/-! ### Readers that repeat -/

/-- What a reader that repeats does at two tokens: it ends at both, or it extends what was read before in
the same way. Only lists shorter than `n` are read to extend it. -/
abbrev Extends {α : Type} (ρ : String → String) (k : α → α) (n : Nat) :
    Option ((ts : List Token) → Parsed (α → α) ts) → Option ((ts : List Token) → Parsed (α → α) ts) →
    Prop :=
  Option.Rel fun extend extend' => ∀ us us', us.length < n → Renamed ρ us us' →
    (extend us).Renames ρ (Commutes k) (extend' us')

namespace Repeats

variable {α β : Type} {f : α → (start ts : List Token) → ts <:+ start → Parsed β start}
  {step : Token → Option ((ts : List Token) → Parsed (α → α) ts)} {result : α → β} {k : α → α} {l : β → β}

/-- Reading is repeated in the same way, if each repetition is the same. -/
theorem renames (hf : Repeats f step result) (hresult : ∀ x, result (k x) = l (result x))
    {start start' ts ts' : List Token} (hstep : ∀ t, Extends ρ k ts.length (step t) (step (t.rename ρ)))
    (x : α) (hts : ts <:+ start) (hts' : ts' <:+ start') (h : Renamed ρ ts ts') :
    (f x start ts hts).Renames ρ (Along l) (f (k x) start' ts' hts') := by
  -- Reading goes on in what one item leaves, which is shorter but no tail of the list.
  induction hn : ts.length using Nat.strongRecOn generalizing x ts ts' hts hts' with
  | ind n ih =>
      subst hn
      cases h with
      | nil =>
          rw [hf.nil, hf.nil]
          exact ⟨hresult x, .nil⟩
      | @cons ts₁ ts₁' t h =>
          rw [hf.cons, hf.cons]
          have hrel := hstep t
          generalize step t = o, step (t.rename ρ) = o' at hrel ⊢
          cases hrel with
          | none => exact ⟨hresult x, .cons t h⟩
          | @some extend extend' hextend =>
              have hnext := hextend ts₁ ts₁' (Nat.lt_succ_self _) h
              have hlt := Nat.lt_succ_of_le (extend ts₁).length_rest_le
              dsimp only
              rw [hnext.value x]
              refine ih _ hlt (fun t => ?_) _ _ _ hnext.rest rfl
              have hrel := hstep t
              generalize step t = o, step (t.rename ρ) = o' at hrel ⊢
              cases hrel with
              | none => exact .none
              | some hextend =>
                  exact .some fun us us' hus h => hextend us us' (Nat.lt_trans hus hlt) h

theorem renames_onKind {kind : Kind} {extend : Token → (ts : List Token) → Parsed (α → α) ts}
    (hf : Repeats f (onKind kind extend) result) (hresult : ∀ x, result (k x) = l (result x))
    {start start' ts ts' : List Token}
    (hextend : ∀ t us us', Renamed ρ us us' →
      (extend t us).Renames ρ (Commutes k) (extend (t.rename ρ) us'))
    (x : α) (hts : ts <:+ start) (hts' : ts' <:+ start') (h : Renamed ρ ts ts') :
    (f x start ts hts).Renames ρ (Along l) (f (k x) start' ts' hts') := by
  refine hf.renames hresult (fun t => ?_) x hts hts' h
  by_cases hkind : t.kind = kind
  · rw [onKind, onKind, if_pos hkind, if_pos (show (t.rename ρ).kind = kind from hkind)]
    exact .some fun us us' _ h => hextend t us us' h
  · rw [onKind, onKind, if_neg hkind, if_neg (show (t.rename ρ).kind ≠ kind from hkind)]
    exact .none

end Repeats

/-! ### Expressions -/

mutual

theorem renames_readExpr {ts ts' : List Token} (h : Renamed ρ ts ts') :
    (readExpr ts).Renames ρ (Along (Expr.rename ρ)) (readExpr ts') := by
  rw [readExpr, readExpr]
  dsimp only
  have hle := (accept .minus ts).length_rest_le
  have hle' := (readTerm (accept .minus ts).rest).length_rest_le
  have hminus := renames_accept .minus h
  have hfirst := renames_readTerm hminus.rest
  have hstart : (if (accept .minus ts').value then Expr.neg (readTerm (accept .minus ts').rest).value
      else .term (readTerm (accept .minus ts').rest).value) =
      Expr.rename ρ (if (accept .minus ts).value then .neg (readTerm (accept .minus ts).rest).value
        else .term (readTerm (accept .minus ts).rest).value) := by
    rw [← hminus.value, hfirst.value]
    split <;> rfl
  rw [hstart]
  exact renames_readSum _ _ _ hfirst.rest
termination_by 8 * ts.length + 4

theorem renames_readSum (e : Expr) {start start' ts ts' : List Token}
    (hts : ts <:+ start) (hts' : ts' <:+ start') (h : Renamed ρ ts ts') :
    (readSum e start ts hts).Renames ρ (Along (Expr.rename ρ)) (readSum (e.rename ρ) start' ts' hts') := by
  refine repeats_readSum.renames (l := Expr.rename ρ) (fun _ => rfl) (fun t => ?_) e hts hts' h
  rw [Token.kind_rename]
  cases addOp? t.kind with
  | none => exact .none
  | some op =>
      refine .some fun us us' _ h => (renames_readTerm h).map fun _ _ hright e => ?_
      cases hright
      rfl
termination_by 8 * ts.length

theorem renames_readTerm {ts ts' : List Token} (h : Renamed ρ ts ts') :
    (readTerm ts).Renames ρ (Along (Term.rename ρ)) (readTerm ts') := by
  rw [readTerm, readTerm]
  dsimp only
  have := (readFactor ts).length_rest_le
  have hfirst := renames_readFactor h
  rw [hfirst.value]
  exact renames_readProduct (.factor (readFactor ts).value) _ _ hfirst.rest
termination_by 8 * ts.length + 3

theorem renames_readProduct (x : Term) {start start' ts ts' : List Token}
    (hts : ts <:+ start) (hts' : ts' <:+ start') (h : Renamed ρ ts ts') :
    (readProduct x start ts hts).Renames ρ (Along (Term.rename ρ))
      (readProduct (x.rename ρ) start' ts' hts') := by
  refine repeats_readProduct.renames (l := Term.rename ρ) (fun _ => rfl) (fun t => ?_) x hts hts' h
  rw [Token.kind_rename]
  cases mulOp? t.kind with
  | some op =>
      refine .some fun us us' _ h => (renames_readFactor h).map fun _ _ hright x => ?_
      cases hright
      rfl
  | none =>
      dsimp only
      split
      · refine .some fun us us' _ h => (renames_readNumber h).map fun _ _ hexponent x => ?_
        cases hexponent
        rfl
      · exact .none
termination_by 8 * ts.length

theorem renames_readFactor {ts ts' : List Token} (h : Renamed ρ ts ts') :
    (readFactor ts).Renames ρ (Along (Factor.rename ρ)) (readFactor ts') := by
  match ts, ts', h with
  | _, _, .nil =>
      rw [readFactor]
      exact .nothing (.intro _ _) .nil
  | _, _, @Renamed.cons _ ts₁ ts₁' t h =>
      rw [readFactor, readFactor]
      dsimp only
      rw [Token.kind_rename]
      split
      · have := (readSelectors (.name (some t.name)) ts₁ ts₁ List.suffix_rfl).length_rest_le
        have hd : (readSelectors (.name (some t.name)) ts₁ ts₁ List.suffix_rfl).Renames ρ
            (Along (Designator.rename ρ))
            (readSelectors (.name (some (t.rename ρ).name)) ts₁' ts₁' List.suffix_rfl) :=
          renames_readSelectors _ List.suffix_rfl List.suffix_rfl h
        have hcalled := renames_accept .leftParen hd.rest
        have := (accept .leftParen
          (readSelectors (.name (some t.name)) ts₁ ts₁ List.suffix_rfl).rest).length_rest_le
        have harguments := renames_readArguments hcalled.rest
        have hclosed := renames_accept .rightParen harguments.rest
        refine .ite (by rw [hcalled.value]) ⟨?_, hclosed.rest⟩ ⟨?_, hd.rest⟩
        · rw [hd.value, harguments.value, hclosed.value]
          exact .intro (Factor.rename ρ) _
        · rw [hd.value]
          exact .intro (Factor.rename ρ) _
      · exact ⟨.intro (Factor.rename ρ) (.number t.value), h⟩
      · exact ⟨.intro (Factor.rename ρ) (.char t.value), h⟩
      · have hname := renames_readName h
        have := (readName ts₁).length_rest_le
        have hsized := renames_accept .leftBracket hname.rest
        have := (accept .leftBracket (readName ts₁).rest).length_rest_le
        have hsize := renames_readExpr hsized.rest
        have hclosed := renames_accept .rightBracket hsize.rest
        refine .ite (by rw [hsized.value]) ⟨?_, hclosed.rest⟩ ⟨?_, hname.rest⟩
        · rw [hname.value, hsize.value, hclosed.value]
          exact .intro (Factor.rename ρ) _
        · rw [hname.value]
          exact .intro (Factor.rename ρ) _
      · have he := renames_readExpr h
        have hclosed := renames_accept .rightParen he.rest
        refine ⟨?_, hclosed.rest⟩
        rw [he.value, hclosed.value]
        exact .intro (Factor.rename ρ) _
      · exact .nothing (.intro (Factor.rename ρ) .missing) (.cons t h)
termination_by 8 * ts.length + 2

theorem renames_readSelectors (d : Designator) {start start' ts ts' : List Token}
    (hts : ts <:+ start) (hts' : ts' <:+ start') (h : Renamed ρ ts ts') :
    (readSelectors d start ts hts).Renames ρ (Along (Designator.rename ρ))
      (readSelectors (d.rename ρ) start' ts' hts') := by
  refine repeats_readSelectors.renames (l := Designator.rename ρ) (fun _ => rfl) (fun t => ?_) d hts hts' h
  rw [Token.kind_rename]
  split
  · refine .some fun us us' _ h => (renames_readName h).map fun _ _ hname d => ?_
    cases hname
    rfl
  · split
    · refine .some fun us us' _ h => (renames_readExpr h).andThen fun _ _ _ _ hindex h =>
        (renames_accept .rightBracket h).map fun _ _ hclosed d => ?_
      cases hindex
      cases hclosed
      rfl
    · exact .none
termination_by 8 * ts.length

theorem renames_readArguments {ts ts' : List Token} (h : Renamed ρ ts ts') :
    (readArguments ts).Renames ρ (Along (renameExprs ρ)) (readArguments ts') := by
  rw [readArguments, readArguments]
  dsimp only
  have hle := (readExpr ts).length_rest_le
  refine .ite (by rw [h.startsWith]) ?_ (.nothing (.intro (renameExprs ρ) []) h)
  have hfirst := renames_readExpr h
  have hothers := renames_readMoreArguments hfirst.rest
  exact ⟨by rw [hfirst.value, hothers.value]; rfl, hothers.rest⟩
termination_by 8 * ts.length + 6

theorem renames_readMoreArguments {ts ts' : List Token} (h : Renamed ρ ts ts') :
    (readMoreArguments ts).Renames ρ (Along (renameExprs ρ)) (readMoreArguments ts') := by
  match ts, ts', h with
  | _, _, .nil =>
      rw [readMoreArguments]
      exact .nothing (.intro (renameExprs ρ) []) .nil
  | _, _, @Renamed.cons _ ts₁ ts₁' t h =>
      rw [readMoreArguments, readMoreArguments]
      dsimp only
      refine .ite Iff.rfl ?_ (.nothing (.intro (renameExprs ρ) []) (.cons t h))
      have := (readExpr ts₁).length_rest_le
      have hnext := renames_readExpr h
      have hothers := renames_readMoreArguments hnext.rest
      exact ⟨by rw [hnext.value, hothers.value]; rfl, hothers.rest⟩
termination_by 8 * ts.length + 5

end

/-! ### Conditions -/

section Conditions

variable {ts ts' : List Token}

theorem renames_readDesignator (h : Renamed ρ ts ts') :
    (readDesignator ts).Renames ρ (Along (Designator.rename ρ)) (readDesignator ts') :=
  (renames_readName h).andThen fun name _ _ _ hname h => by
    cases hname
    exact renames_readSelectors (.name name) _ _ h

theorem renames_readRelation (h : Renamed ρ ts ts') :
    (readRelation ts).Renames ρ Eq (readRelation ts') := by
  cases h with
  | nil => exact .nothing rfl .nil
  | cons t h =>
      simp only [readRelation, Token.kind_rename]
      cases relation? t.kind with
      | some r => exact .one rfl t _ h
      | none => exact .nothing rfl (.cons t h)

theorem renames_readComparison (h : Renamed ρ ts ts') :
    (readComparison ts).Renames ρ (Along (Comparison.rename ρ)) (readComparison ts') :=
  (renames_readExpr h).andThen fun _ _ _ _ hleft h => (renames_readRelation h).andThen
    fun _ _ _ _ hrelation h => (renames_readExpr h).map fun _ _ hright => by
      cases hleft
      cases hrelation
      cases hright
      rfl

end Conditions

theorem renames_readMoreComparisons (cs : Conjunction) {start start' ts ts' : List Token}
    (hts : ts <:+ start) (hts' : ts' <:+ start') (h : Renamed ρ ts ts') :
    (readMoreComparisons cs start ts hts).Renames ρ (Along (Conjunction.rename ρ))
      (readMoreComparisons (cs.rename ρ) start' ts' hts') := by
  refine repeats_readMoreComparisons.renames_onKind (l := Conjunction.rename ρ) (fun _ => rfl)
    (fun _ _ _ h => (renames_readComparison h).map fun _ _ hnext cs => ?_) cs hts hts' h
  cases hnext
  rfl

theorem renames_readConjunction {ts ts' : List Token} (h : Renamed ρ ts ts') :
    (readConjunction ts).Renames ρ (Along (Conjunction.rename ρ)) (readConjunction ts') :=
  (renames_readComparison h).andThen fun first _ _ _ hfirst h => by
    cases hfirst
    exact renames_readMoreComparisons (.comparison first) _ _ h

theorem renames_readMoreConjunctions (cs : Condition) {start start' ts ts' : List Token}
    (hts : ts <:+ start) (hts' : ts' <:+ start') (h : Renamed ρ ts ts') :
    (readMoreConjunctions cs start ts hts).Renames ρ (Along (Condition.rename ρ))
      (readMoreConjunctions (cs.rename ρ) start' ts' hts') := by
  refine repeats_readMoreConjunctions.renames_onKind (l := Condition.rename ρ) (fun _ => rfl)
    (fun _ _ _ h => (renames_readConjunction h).map fun _ _ hnext cs => ?_) cs hts hts' h
  cases hnext
  rfl

theorem renames_readCondition {ts ts' : List Token} (h : Renamed ρ ts ts') :
    (readCondition ts).Renames ρ (Along (Condition.rename ρ)) (readCondition ts') :=
  (renames_readConjunction h).andThen fun first _ _ _ hfirst h => by
    cases hfirst
    exact renames_readMoreConjunctions (.conjunction first) _ _ h

/-! ### Statements -/

/-- The beginning of a statement with another name. -/
def StatementHead.rename (ρ : String → String) : StatementHead → StatementHead
  | .name n => .name (ρ n)
  | head => head

theorem statementHead?_rename (t : Token) :
    statementHead? (t.rename ρ) = (statementHead? t).map (StatementHead.rename ρ) := by
  unfold statementHead?
  rw [Token.kind_rename]
  cases t.kind <;> rfl

section Parts

variable {ts ts' : List Token}

theorem renames_readAction (h : Renamed ρ ts ts') :
    (readAction ts).Renames ρ (Along (Action.rename ρ)) (readAction ts') := by
  cases h with
  | nil => exact .nothing (.intro (Action.rename ρ) .missing) .nil
  | cons t h =>
      simp only [readAction, Token.kind_rename]
      split
      · refine (Parsed.Renames.one (R := Eq) rfl t _ h).andThen fun _ _ _ _ hop h =>
          (renames_readExpr h).map fun _ _ hvalue => ?_
        cases hop
        cases hvalue
        rfl
      · refine (Parsed.Renames.one (R := Eq) rfl t _ h).andThen fun _ _ _ _ _ h =>
          (renames_readArguments h).andThen fun _ _ _ _ harguments h =>
            (renames_accept .rightParen h).map fun _ _ hclosed => ?_
        cases harguments
        cases hclosed
        rfl
      · exact .one (.intro (Action.rename ρ) .increment) t _ h
      · exact .one (.intro (Action.rename ρ) .decrement) t _ h
      · exact .nothing (.intro (Action.rename ρ) .missing) (.cons t h)

/-- The condition of a statement with other names. -/
def renameGuard (ρ : String → String) (g : Bool × Condition × Bool) : Bool × Condition × Bool :=
  (g.1, g.2.1.rename ρ, g.2.2)

theorem renames_readGuard (h : Renamed ρ ts ts') :
    (readGuard ts).Renames ρ (Along (renameGuard ρ)) (readGuard ts') :=
  (renames_accept .leftParen h).andThen fun _ _ _ _ hopened h =>
    (renames_readCondition h).andThen fun _ _ _ _ hcondition h =>
      (renames_accept .rightParen h).map fun _ _ hclosed => by
        cases hopened
        cases hcondition
        cases hclosed
        rfl

theorem renames_readWidth (h : Renamed ρ ts ts') :
    (readWidth ts).Renames ρ Eq (readWidth ts') :=
  (renames_accept .comma h).andThen fun announced _ _ _ hannounced h => by
    cases hannounced
    exact .ite Iff.rfl ((renames_readNumber h).map fun _ _ => congrArg some) (.nothing rfl h)

end Parts

mutual

theorem renames_readStatement {ts ts' : List Token} (h : Renamed ρ ts ts') :
    (readStatement ts).Renames ρ (Along (Statement.rename ρ)) (readStatement ts') := by
  match ts, ts', h with
  | _, _, .nil =>
      rw [readStatement]
      exact .nothing (.intro (Statement.rename ρ) .missing) .nil
  | _, _, @Renamed.cons _ ts₁ ts₁' t h =>
      rw [readStatement, readStatement, statementHead?_rename]
      cases statementHead? t with
      | none => exact .nothing (.intro (Statement.rename ρ) .missing) (.cons t h)
      | some head =>
          have hs := renames_readAfter head h
          exact ⟨hs.value, hs.rest⟩
termination_by 2 * ts.length

theorem renames_readAfter (head : StatementHead) {ts ts' : List Token} (h : Renamed ρ ts ts') :
    (readAfter head ts).Renames ρ (Along (Statement.rename ρ)) (readAfter (head.rename ρ) ts') := by
  cases head with
  | name n =>
      rw [StatementHead.rename, readAfter, readAfter]
      dsimp only
      have hd : (readSelectors (.name (some n)) ts ts List.suffix_rfl).Renames ρ
          (Along (Designator.rename ρ)) (readSelectors (.name (some (ρ n))) ts' ts' List.suffix_rfl) :=
        renames_readSelectors _ List.suffix_rfl List.suffix_rfl h
      have ha := renames_readAction hd.rest
      have hended := renames_accept .semicolon ha.rest
      refine ⟨?_, hended.rest⟩
      rw [hd.value, ha.value, hended.value]
      exact .intro (Statement.rename ρ) _
  | ifWord =>
      dsimp only [StatementHead.rename]
      rw [readAfter, readAfter]
      dsimp only
      have hguard := renames_readGuard h
      have hguardValue : (readGuard ts').value = renameGuard ρ (readGuard ts).value := hguard.value
      have := (readGuard ts).length_rest_le
      have hbody := renames_readStatement hguard.rest
      have := (readStatement (readGuard ts).rest).length_rest_le
      have helse := renames_accept .kwElse hbody.rest
      have := (accept .kwElse (readStatement (readGuard ts).rest).rest).length_rest_le
      have hother := renames_readStatement helse.rest
      refine .ite (by rw [helse.value]) ⟨?_, hother.rest⟩ ⟨?_, hbody.rest⟩
      · simp only [hguardValue]
        rw [hbody.value, hother.value]
        exact .intro (Statement.rename ρ) _
      · simp only [hguardValue]
        rw [hbody.value]
        exact .intro (Statement.rename ρ) _
  | whileWord =>
      dsimp only [StatementHead.rename]
      rw [readAfter, readAfter]
      dsimp only
      have hguard := renames_readGuard h
      have hguardValue : (readGuard ts').value = renameGuard ρ (readGuard ts).value := hguard.value
      have := (readGuard ts).length_rest_le
      have hbody := renames_readStatement hguard.rest
      refine ⟨?_, hbody.rest⟩
      simp only [hguardValue]
      rw [hbody.value]
      exact .intro (Statement.rename ρ) _
  | breakWord =>
      dsimp only [StatementHead.rename]
      rw [readAfter, readAfter]
      exact (renames_accept .semicolon h).map fun _ _ hended => by
        cases hended
        rfl
  | returnWord =>
      dsimp only [StatementHead.rename]
      rw [readAfter, readAfter]
      dsimp only
      have hvalue := renames_readExpr h
      have hended := renames_accept .semicolon hvalue.rest
      refine .ite (by rw [h.startsWith]) ⟨?_, hended.rest⟩
        ((renames_accept .semicolon h).map fun _ _ hended => ?_)
      · rw [hvalue.value, hended.value]
        exact .intro (Statement.rename ρ) _
      · cases hended
        rfl
  | readWord =>
      dsimp only [StatementHead.rename]
      rw [readAfter, readAfter]
      dsimp only
      have hopened := renames_accept .leftParen h
      have hd := renames_readDesignator hopened.rest
      have hclosed := renames_accept .rightParen hd.rest
      have hended := renames_accept .semicolon hclosed.rest
      refine ⟨?_, hended.rest⟩
      rw [hopened.value, hd.value, hclosed.value, hended.value]
      exact .intro (Statement.rename ρ) _
  | printWord =>
      dsimp only [StatementHead.rename]
      rw [readAfter, readAfter]
      dsimp only
      have hopened := renames_accept .leftParen h
      have hvalue := renames_readExpr hopened.rest
      have hwidth := renames_readWidth hvalue.rest
      have hclosed := renames_accept .rightParen hwidth.rest
      have hended := renames_accept .semicolon hclosed.rest
      refine ⟨?_, hended.rest⟩
      rw [hopened.value, hvalue.value, hwidth.value, hclosed.value, hended.value]
      exact .intro (Statement.rename ρ) _
  | brace =>
      dsimp only [StatementHead.rename]
      rw [readAfter, readAfter]
      have hstatements : (readStatements [] ts ts List.suffix_rfl).Renames ρ
          (Along (List.map (Statement.rename ρ))) (readStatements [] ts' ts' List.suffix_rfl) :=
        renames_readStatements [] List.suffix_rfl List.suffix_rfl h
      have hclosed := renames_accept .rightBrace hstatements.rest
      refine ⟨?_, hclosed.rest⟩
      dsimp only
      rw [hstatements.value, hclosed.value, ← renameStatements_eq_map]
      exact .intro (Statement.rename ρ) _
  | semicolon =>
      dsimp only [StatementHead.rename]
      rw [readAfter, readAfter]
      exact .nothing (.intro (Statement.rename ρ) .empty) h
termination_by 2 * ts.length + 1

theorem renames_readStatements (before : List Statement) {start start' ts ts' : List Token}
    (hts : ts <:+ start) (hts' : ts' <:+ start') (h : Renamed ρ ts ts') :
    (readStatements before start ts hts).Renames ρ (Along (List.map (Statement.rename ρ)))
      (readStatements (before.map (Statement.rename ρ)) start' ts' hts') := by
  refine repeats_readStatements.renames (fun _ => List.map_reverse.symm) (fun t => ?_) before hts hts' h
  rw [statementHead?_rename, Token.kind_rename]
  cases statementHead? t with
  | some head =>
      refine .some fun us us' _ h => (renames_readAfter head h).map fun _ _ hs before => ?_
      cases hs
      rfl
  | none =>
      dsimp only [Option.map_none]
      split
      · exact .none
      · refine .some fun us us' _ h => (renames_skipTo resumesStatement h).map fun _ _ hmore before => ?_
        cases hmore
        rfl
termination_by 2 * ts.length

end

/-! ### Programs -/

section Parts

variable {ts ts' : List Token}

theorem renames_readArrayMark (h : Renamed ρ ts ts') :
    (readArrayMark ts).Renames ρ Eq (readArrayMark ts') :=
  (renames_accept .leftBracket h).andThen fun opened _ _ _ hopened h => by
    cases hopened
    exact .ite Iff.rfl ((renames_accept .rightBracket h).map fun _ _ => congrArg some) (.nothing rfl h)

theorem renames_readTypeName (h : Renamed ρ ts ts') :
    (readTypeName ts).Renames ρ (Along (TypeName.rename ρ)) (readTypeName ts') :=
  (renames_readName h).andThen fun _ _ _ _ hname h => (renames_readArrayMark h).map fun _ _ harray => by
    cases hname
    cases harray
    rfl

theorem renames_readConstantValue (h : Renamed ρ ts ts') :
    (readConstantValue ts).Renames ρ Eq (readConstantValue ts') := by
  cases h with
  | nil => exact .nothing rfl .nil
  | cons t h =>
      simp only [readConstantValue, Token.kind_rename]
      split
      · exact .one rfl t _ h
      · exact .one rfl t _ h
      · exact .nothing rfl (.cons t h)

theorem renames_readConstant (h : Renamed ρ ts ts') :
    (readConstant ts).Renames ρ (Along (ConstantDecl.rename ρ)) (readConstant ts') :=
  (renames_readTypeName h).andThen fun _ _ _ _ htype h => (renames_readName h).andThen
    fun _ _ _ _ hname h => (renames_accept .assign h).andThen fun _ _ _ _ hassigned h =>
      (renames_readConstantValue h).andThen fun _ _ _ _ hvalue h =>
        (renames_accept .semicolon h).map fun _ _ hended => by
          cases htype
          cases hname
          cases hassigned
          cases hvalue
          cases hended
          rfl

theorem renames_readParameter (h : Renamed ρ ts ts') :
    (readParameter ts).Renames ρ (Along (Parameter.rename ρ)) (readParameter ts') :=
  (renames_readTypeName h).andThen fun _ _ _ _ htype h => (renames_readName h).map fun _ _ hname => by
    cases htype
    cases hname
    rfl

end Parts

theorem renames_readMoreNames (before : List (Option String)) {start start' ts ts' : List Token}
    (hts : ts <:+ start) (hts' : ts' <:+ start') (h : Renamed ρ ts ts') :
    (readMoreNames before start ts hts).Renames ρ (Along (List.map (Option.map ρ)))
      (readMoreNames (before.map (Option.map ρ)) start' ts' hts') := by
  refine repeats_readMoreNames.renames_onKind (fun _ => List.map_reverse.symm)
    (fun _ _ _ h => (renames_readName h).map fun _ _ hname before => ?_) before hts hts' h
  cases hname
  rfl

theorem renames_readVariables (type : TypeName) {ts ts' : List Token} (h : Renamed ρ ts ts') :
    (readVariables type ts).Renames ρ (Along (VariableDecl.rename ρ))
      (readVariables (type.rename ρ) ts') :=
  (renames_readName h).andThen fun _ _ _ _ hfirst h => (renames_readMoreNames [] _ _ h).andThen
    fun _ _ _ _ hothers h => (renames_accept .semicolon h).map fun _ _ hended => by
      cases hfirst
      cases hothers
      cases hended
      rfl

theorem renames_readVariablesAfter (name : String) {ts ts' : List Token} (h : Renamed ρ ts ts') :
    (readVariablesAfter name ts).Renames ρ (Along (VariableDecl.rename ρ))
      (readVariablesAfter (ρ name) ts') :=
  (renames_readArrayMark h).andThen fun array _ _ _ harray h => by
    cases harray
    exact renames_readVariables { name := some name, array } h

theorem renames_readVariableDecls (before : List VariableDecl) {start start' ts ts' : List Token}
    (hts : ts <:+ start) (hts' : ts' <:+ start') (h : Renamed ρ ts ts') :
    (readVariableDecls before start ts hts).Renames ρ (Along (List.map (VariableDecl.rename ρ)))
      (readVariableDecls (before.map (VariableDecl.rename ρ)) start' ts' hts') := by
  refine repeats_readVariableDecls.renames_onKind (fun _ => List.map_reverse.symm)
    (fun t _ _ h => (renames_readVariablesAfter t.name h).map fun _ _ hd before => ?_) before hts hts' h
  cases hd
  rfl

theorem renames_readClass {ts ts' : List Token} (h : Renamed ρ ts ts') :
    (readClass ts).Renames ρ (Along (ClassDecl.rename ρ)) (readClass ts') :=
  (renames_readName h).andThen fun _ _ _ _ hname h => (renames_accept .leftBrace h).andThen
    fun _ _ _ _ hopened h => (renames_readVariableDecls [] _ _ h).andThen fun _ _ _ _ hfields h =>
      (renames_accept .rightBrace h).map fun _ _ hclosed => by
        cases hname
        cases hopened
        cases hfields
        cases hclosed
        rfl

theorem renames_readDeclarations (before : List Declaration) {start start' ts ts' : List Token}
    (hts : ts <:+ start) (hts' : ts' <:+ start') (h : Renamed ρ ts ts') :
    (readDeclarations before start ts hts).Renames ρ (Along (List.map (Declaration.rename ρ)))
      (readDeclarations (before.map (Declaration.rename ρ)) start' ts' hts') := by
  refine repeats_readDeclarations.renames (fun _ => List.map_reverse.symm) (fun t => ?_) before hts hts' h
  rw [Token.kind_rename]
  split
  · refine .some fun us us' _ h => (renames_readConstant h).map fun _ _ hd before => ?_
    cases hd
    rfl
  · refine .some fun us us' _ h => (renames_readVariablesAfter t.name h).map fun _ _ hd before => ?_
    cases hd
    rfl
  · refine .some fun us us' _ h => (renames_readClass h).map fun _ _ hd before => ?_
    cases hd
    rfl
  · exact .none
  · refine .some fun us us' _ h => (renames_skipTo resumesDeclaration h).map fun _ _ hmore before => ?_
    cases hmore
    rfl

theorem renames_readMoreParameters (before : List Parameter) {start start' ts ts' : List Token}
    (hts : ts <:+ start) (hts' : ts' <:+ start') (h : Renamed ρ ts ts') :
    (readMoreParameters before start ts hts).Renames ρ (Along (List.map (Parameter.rename ρ)))
      (readMoreParameters (before.map (Parameter.rename ρ)) start' ts' hts') := by
  refine repeats_readMoreParameters.renames_onKind (fun _ => List.map_reverse.symm)
    (fun _ _ _ h => (renames_readParameter h).map fun _ _ hp before => ?_) before hts hts' h
  cases hp
  rfl

theorem renames_readParameters {ts ts' : List Token} (h : Renamed ρ ts ts') :
    (readParameters ts).Renames ρ (Along (List.map (Parameter.rename ρ))) (readParameters ts') := by
  refine .ite (by rw [h.startsWith]) ?_ (.nothing (.intro (List.map (Parameter.rename ρ)) []) h)
  exact (renames_readParameter h).andThen fun first _ _ _ hfirst h => by
    cases hfirst
    exact renames_readMoreParameters [first] _ _ h

theorem renames_readMethod (type : Option TypeName) {ts ts' : List Token} (h : Renamed ρ ts ts') :
    (readMethod type ts).Renames ρ (Along (MethodDecl.rename ρ))
      (readMethod (type.map (TypeName.rename ρ)) ts') :=
  (renames_readName h).andThen fun _ _ _ _ hname h => (renames_accept .leftParen h).andThen
    fun _ _ _ _ hopened h => (renames_readParameters h).andThen fun _ _ _ _ hparameters h =>
      (renames_accept .rightParen h).andThen fun _ _ _ _ hclosed h =>
        (renames_readVariableDecls [] _ _ h).andThen fun _ _ _ _ hlocals h =>
          (renames_accept .leftBrace h).andThen fun _ _ _ _ hbodyOpened h =>
            (renames_readStatements [] _ _ h).andThen fun _ _ _ _ hbody h =>
              (renames_accept .rightBrace h).map fun _ _ hbodyClosed => by
                cases hname
                cases hopened
                cases hparameters
                cases hclosed
                cases hlocals
                cases hbodyOpened
                cases hbody
                cases hbodyClosed
                simp only [Along, MethodDecl.rename, renameStatements_eq_map]

theorem renames_readMembers (before : List Member) {start start' ts ts' : List Token}
    (hts : ts <:+ start) (hts' : ts' <:+ start') (h : Renamed ρ ts ts') :
    (readMembers before start ts hts).Renames ρ (Along (List.map (Member.rename ρ)))
      (readMembers (before.map (Member.rename ρ)) start' ts' hts') := by
  refine repeats_readMembers.renames (fun _ => List.map_reverse.symm) (fun t => ?_) before hts hts' h
  rw [Token.kind_rename]
  split
  · refine .some fun us us' _ h => (renames_readMethod none h).map fun _ _ hd before => ?_
    cases hd
    rfl
  · refine .some fun us us' _ h => (renames_readArrayMark h).andThen fun array _ _ _ harray h => ?_
    cases harray
    refine (renames_readMethod (some { name := some t.name, array }) h).map fun _ _ hd before => ?_
    cases hd
    rfl
  · exact .none
  · refine .some fun us us' _ h => (renames_skipTo resumesMember h).map fun _ _ hmore before => ?_
    cases hmore
    rfl

theorem renames_readProgram {ts ts' : List Token} (h : Renamed ρ ts ts') :
    (readProgram ts).Renames ρ (Along (Program.rename ρ)) (readProgram ts') :=
  (renames_accept .kwProgram h).andThen fun _ _ _ _ hannounced h => (renames_readName h).andThen
    fun _ _ _ _ hname h => (renames_readDeclarations [] _ _ h).andThen fun _ _ _ _ hdeclarations h =>
      (renames_accept .leftBrace h).andThen fun _ _ _ _ hopened h =>
        (renames_readMembers [] _ _ h).andThen fun _ _ _ _ hmembers h =>
          (renames_accept .rightBrace h).andThen fun _ _ us us' hclosed h => by
            cases hannounced
            cases hname
            cases hdeclarations
            cases hopened
            cases hmembers
            cases hclosed
            exact ⟨by rw [Parsed.nothing, Parsed.nothing, h.isEmpty]; rfl, h⟩

/-- The tree of renamed tokens is the renamed tree. -/
theorem Program.read_rename (ρ : String → String) (ts : List Token) :
    Program.read (ts.map (Token.rename ρ)) = (Program.read ts).rename ρ :=
  (renames_readProgram (renamed_map ts)).value

end Tree

end MicroJava
