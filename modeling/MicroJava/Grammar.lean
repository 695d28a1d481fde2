import MicroJava.Token

/-!
# The grammar

The language is given by a grammar in extended Backus–Naur form: `production` says what each of its
nonterminals stands for, and `Derives` which sequences of tokens an expression of the form stands
for. Only the kinds of the tokens matter.
-/

namespace MicroJava.Grammar

/-- The nonterminals of the grammar. -/
inductive Nonterminal where
  | program
  | constDecl
  | varDecl
  | classDecl
  | methodDecl
  | formPars
  | type
  | block
  | statement
  | assignop
  | actPars
  | condition
  | condTerm
  | condFact
  | relop
  | expr
  | addop
  | term
  | mulop
  | factor
  | designator
  deriving DecidableEq, Inhabited

/-- The right side of a production: tokens and nonterminals, one after the other, as alternatives,
and any number of times. -/
inductive Ebnf where
  | token (k : Kind)
  | rule (n : Nonterminal)
  | empty
  | seq (a b : Ebnf)
  | alt (a b : Ebnf)
  | many (a : Ebnf)
  deriving DecidableEq, Inhabited

namespace Ebnf

instance : Coe Kind Ebnf := ⟨token⟩
instance : Coe Nonterminal Ebnf := ⟨rule⟩
instance : Append Ebnf := ⟨seq⟩
instance : OrOp Ebnf := ⟨alt⟩

/-- Something that may be left out. -/
def opt (a : Ebnf) : Ebnf := a ||| empty

end Ebnf

open Ebnf Kind Nonterminal

/-- What a nonterminal stands for. -/
def production : Nonterminal → Ebnf
  | program => kwProgram ++ ident ++ many (constDecl ||| varDecl ||| classDecl) ++ leftBrace ++
      many methodDecl ++ rightBrace
  | constDecl => kwFinal ++ type ++ ident ++ assign ++ (number ||| charConst) ++ semicolon
  | varDecl => type ++ ident ++ many (comma ++ ident) ++ semicolon
  | classDecl => kwClass ++ ident ++ leftBrace ++ many varDecl ++ rightBrace
  | methodDecl => (type ||| kwVoid) ++ ident ++ leftParen ++ opt formPars ++ rightParen ++
      many varDecl ++ block
  | formPars => type ++ ident ++ many (comma ++ type ++ ident)
  | type => ident ++ opt (leftBracket ++ rightBracket)
  | block => leftBrace ++ many statement ++ rightBrace
  | statement =>
      designator ++ (assignop ++ expr ||| actPars ||| increment ||| decrement) ++ semicolon |||
      kwIf ++ leftParen ++ condition ++ rightParen ++ statement ++ opt (kwElse ++ statement) |||
      kwWhile ++ leftParen ++ condition ++ rightParen ++ statement |||
      kwBreak ++ semicolon |||
      kwReturn ++ opt expr ++ semicolon |||
      kwRead ++ leftParen ++ designator ++ rightParen ++ semicolon |||
      kwPrint ++ leftParen ++ expr ++ opt (comma ++ number) ++ rightParen ++ semicolon |||
      block |||
      semicolon
  | assignop => assign ||| plusAssign ||| minusAssign ||| timesAssign ||| slashAssign |||
      percentAssign
  | actPars => leftParen ++ opt (expr ++ many (comma ++ expr)) ++ rightParen
  | condition => condTerm ++ many (Kind.or ++ condTerm)
  | condTerm => condFact ++ many (Kind.and ++ condFact)
  | condFact => expr ++ relop ++ expr
  | relop => equal ||| notEqual ||| greater ||| greaterEqual ||| less ||| lessEqual
  | expr => opt minus ++ term ++ many (addop ++ term)
  | addop => plus ||| minus
  | term => factor ++ many (mulop ++ factor ||| power ++ number)
  | mulop => times ||| slash ||| percent
  | factor => designator ++ opt actPars ||| number ||| charConst |||
      kwNew ++ ident ++ opt (leftBracket ++ expr ++ rightBracket) ||| leftParen ++ expr ++ rightParen
  | designator => ident ++ many (period ++ ident ||| leftBracket ++ expr ++ rightBracket)

/-- The sequences of tokens that an expression stands for. -/
inductive Derives : Ebnf → List Token → Prop where
  | token {k : Kind} {t : Token} (h : t.kind = k) : Derives k [t]
  | rule {n : Nonterminal} {w : List Token} (h : Derives (production n) w) : Derives n w
  | empty : Derives .empty []
  | seq {a b : Ebnf} {u v : List Token} (hu : Derives a u) (hv : Derives b v) :
    Derives (a ++ b) (u ++ v)
  | left {a b : Ebnf} {w : List Token} (h : Derives a w) : Derives (a ||| b) w
  | right {a b : Ebnf} {w : List Token} (h : Derives b w) : Derives (a ||| b) w
  | nil {a : Ebnf} : Derives (many a) []
  | cons {a : Ebnf} {u v : List Token} (hu : Derives a u) (hv : Derives (many a) v) :
    Derives (many a) (u ++ v)

/-! ### Taking a sequence off the front -/

/-- What is left of the tokens `ts` is `us` when a sequence that `a` stands for is taken off the
front. -/
def Takes (a : Ebnf) (ts us : List Token) : Prop :=
  ∃ w, Derives a w ∧ ts = w ++ us

section Takes

variable {a b : Ebnf} {k : Kind} {n : Nonterminal} {ts us vs : List Token}

theorem takes_nil : Takes a ts [] ↔ Derives a ts := by
  constructor
  · rintro ⟨w, hw, rfl⟩
    rwa [List.append_nil]
  · exact fun h => ⟨ts, h, (List.append_nil ts).symm⟩

theorem Takes.suffix (h : Takes a ts us) : us <:+ ts := by
  rcases h with ⟨w, -, rfl⟩
  exact List.suffix_append w us

theorem takes_token : Takes k ts us ↔ ∃ t, ts = t :: us ∧ t.kind = k := by
  constructor
  · rintro ⟨w, h, rfl⟩
    cases h with
    | token ht => exact ⟨_, rfl, ht⟩
  · rintro ⟨t, rfl, ht⟩
    exact ⟨[t], .token ht, rfl⟩

theorem takes_rule : Takes n ts us ↔ Takes (production n) ts us := by
  constructor
  · rintro ⟨w, h, rfl⟩
    cases h with
    | rule hw => exact ⟨w, hw, rfl⟩
  · rintro ⟨w, hw, rfl⟩
    exact ⟨w, .rule hw, rfl⟩

theorem takes_empty : Takes .empty ts us ↔ us = ts := by
  constructor
  · rintro ⟨w, ⟨⟩, rfl⟩
    rfl
  · rintro rfl
    exact ⟨[], .empty, rfl⟩

theorem takes_seq : Takes (a ++ b) ts vs ↔ ∃ us, Takes a ts us ∧ Takes b us vs := by
  constructor
  · rintro ⟨_, h, rfl⟩
    cases h with
    | seq hu hv => exact ⟨_, ⟨_, hu, List.append_assoc _ _ _⟩, _, hv, rfl⟩
  · rintro ⟨us, ⟨u, hu, rfl⟩, v, hv, rfl⟩
    exact ⟨u ++ v, .seq hu hv, (List.append_assoc u v vs).symm⟩

theorem takes_alt : Takes (a ||| b) ts us ↔ Takes a ts us ∨ Takes b ts us := by
  constructor
  · rintro ⟨w, h, rfl⟩
    cases h with
    | left hw => exact .inl ⟨w, hw, rfl⟩
    | right hw => exact .inr ⟨w, hw, rfl⟩
  · rintro (⟨w, hw, rfl⟩ | ⟨w, hw, rfl⟩)
    · exact ⟨w, .left hw, rfl⟩
    · exact ⟨w, .right hw, rfl⟩

theorem takes_opt : Takes (opt a) ts us ↔ Takes a ts us ∨ us = ts := by
  rw [opt, takes_alt, takes_empty]

theorem takes_many : Takes (many a) ts vs ↔
    vs = ts ∨ ∃ us, Takes a ts us ∧ Takes (many a) us vs := by
  constructor
  · rintro ⟨_, h, rfl⟩
    cases h with
    | nil => exact .inl rfl
    | cons hu hv => exact .inr ⟨_, ⟨_, hu, List.append_assoc _ _ _⟩, _, hv, rfl⟩
  · rintro (rfl | ⟨us, ⟨u, hu, rfl⟩, v, hv, rfl⟩)
    · exact ⟨[], .nil, rfl⟩
    · exact ⟨u ++ v, .cons hu hv, (List.append_assoc u v vs).symm⟩

namespace Takes

theorem rule (h : Takes (production n) ts us) : Takes n ts us := takes_rule.2 h

theorem seq (h : Takes a ts us) (h' : Takes b us vs) : Takes (a ++ b) ts vs :=
  takes_seq.2 ⟨us, h, h'⟩

theorem left (h : Takes a ts us) : Takes (a ||| b) ts us := takes_alt.2 (.inl h)

theorem right (h : Takes b ts us) : Takes (a ||| b) ts us := takes_alt.2 (.inr h)

theorem some (h : Takes a ts us) : Takes (opt a) ts us := takes_opt.2 (.inl h)

theorem none : Takes (opt a) ts ts := takes_opt.2 (.inr rfl)

theorem nil : Takes (many a) ts ts := takes_many.2 (.inl rfl)

theorem cons (h : Takes a ts us) (h' : Takes (many a) us vs) : Takes (many a) ts vs :=
  takes_many.2 (.inr ⟨us, h, h'⟩)

end Takes

end Takes

end MicroJava.Grammar
