import MicroJava.Tree.Expr
import MicroJava.Tree.Parsed

/-!
# Reading expressions

Each function reads the longest part of a list of tokens that it can take for the kind of tree in
its name. A function named for a tail (`readSum`, `readProduct`, `readSelectors`) carries along the
tree of what was read so far and extends it as long as an operator or selector follows, so the trees
grow to the left as the grammar wants it. What decides is the kind of the next token only.

The functions call each other in a circle; the measure counts the tokens to read and, for equally
many, orders the functions from sums down to factors.
-/

namespace MicroJava.Tree

/-- Whether an expression can begin with a token of this kind. -/
def startsExpr : Kind → Bool
  | .minus | .ident | .number | .charConst | .kwNew | .leftParen => true
  | _ => false

/-- The operator of sums that a token stands for. -/
def addOp? : Kind → Option AddOp
  | .plus => some .plus
  | .minus => some .minus
  | _ => none

/-- The operator of products that a token stands for. -/
def mulOp? : Kind → Option MulOp
  | .times => some .times
  | .slash => some .slash
  | .percent => some .percent
  | _ => none

/-- The relation that a token stands for. -/
def relation? : Kind → Option Relation
  | .equal => some .eq
  | .notEqual => some .ne
  | .less => some .lt
  | .lessEqual => some .le
  | .greater => some .gt
  | .greaterEqual => some .ge
  | _ => none

mutual

/-- Reads a sum. -/
def readExpr (ts : List Token) : Parsed Expr ts :=
  let ⟨negative, ts₁, h₁⟩ := accept .minus ts
  have := h₁.length_le
  let ⟨first, ts₂, h₂⟩ := readTerm ts₁
  have := h₂.length_le
  readSum (if negative then .neg first else .term first) ts ts₂ (h₂.trans h₁)
termination_by 8 * ts.length + 4

/-- Extends the sum `e` by the operators and products that follow. -/
def readSum (e : Expr) (start ts : List Token) (h : ts <:+ start) : Parsed Expr start :=
  match ts with
  | [] => ⟨e, [], h⟩
  | t :: ts₁ =>
    match addOp? t.kind with
    | none => ⟨e, t :: ts₁, h⟩
    | some op =>
      let ⟨right, ts₂, h₂⟩ := readTerm ts₁
      have := h₂.length_le
      readSum (.add e op right) start ts₂ (h₂.trans ((List.suffix_cons t ts₁).trans h))
termination_by 8 * ts.length

/-- Reads a product. -/
def readTerm (ts : List Token) : Parsed Term ts :=
  let ⟨first, ts₁, h₁⟩ := readFactor ts
  have := h₁.length_le
  readProduct (.factor first) ts ts₁ h₁
termination_by 8 * ts.length + 3

/-- Extends the product `x` by the operators and factors that follow. -/
def readProduct (x : Term) (start ts : List Token) (h : ts <:+ start) : Parsed Term start :=
  match ts with
  | [] => ⟨x, [], h⟩
  | t :: ts₁ =>
    match mulOp? t.kind with
    | some op =>
      let ⟨right, ts₂, h₂⟩ := readFactor ts₁
      have := h₂.length_le
      readProduct (.mul x op right) start ts₂ (h₂.trans ((List.suffix_cons t ts₁).trans h))
    | none =>
      if t.kind = .power then
        let ⟨exponent, ts₂, h₂⟩ := readNumber ts₁
        have := h₂.length_le
        readProduct (.power x exponent) start ts₂ (h₂.trans ((List.suffix_cons t ts₁).trans h))
      else ⟨x, t :: ts₁, h⟩
termination_by 8 * ts.length

/-- Reads a factor. -/
def readFactor (ts : List Token) : Parsed Factor ts :=
  match ts with
  | [] => .nothing .missing []
  | t :: ts₁ =>
    have h₁ := List.suffix_cons t ts₁
    match t.kind with
    | .ident =>
      let ⟨d, ts₂, h₂⟩ := readSelectors (.name (some t.name)) ts₁ ts₁ List.suffix_rfl
      have := h₂.length_le
      let ⟨called, ts₃, h₃⟩ := accept .leftParen ts₂
      have := h₃.length_le
      if called then
        let ⟨arguments, ts₄, h₄⟩ := readArguments ts₃
        let ⟨closed, ts₅, h₅⟩ := accept .rightParen ts₄
        ⟨.call d arguments closed, ts₅,
          h₅.trans (h₄.trans (h₃.trans (h₂.trans h₁)))⟩
      else ⟨.designator d, ts₂, h₂.trans h₁⟩
    | .number => ⟨.number t.value, ts₁, h₁⟩
    | .charConst => ⟨.char t.value, ts₁, h₁⟩
    | .kwNew =>
      let ⟨name, ts₂, h₂⟩ := readName ts₁
      have := h₂.length_le
      let ⟨sized, ts₃, h₃⟩ := accept .leftBracket ts₂
      have := h₃.length_le
      if sized then
        let ⟨size, ts₄, h₄⟩ := readExpr ts₃
        let ⟨closed, ts₅, h₅⟩ := accept .rightBracket ts₄
        ⟨.newArray name size closed, ts₅, h₅.trans (h₄.trans (h₃.trans (h₂.trans h₁)))⟩
      else ⟨.newObject name, ts₂, h₂.trans h₁⟩
    | .leftParen =>
      let ⟨e, ts₂, h₂⟩ := readExpr ts₁
      let ⟨closed, ts₃, h₃⟩ := accept .rightParen ts₂
      ⟨.group e closed, ts₃, h₃.trans (h₂.trans h₁)⟩
    | _ => .nothing .missing (t :: ts₁)
termination_by 8 * ts.length + 2

/-- Extends the designator `d` by the fields and elements selected from it. -/
def readSelectors (d : Designator) (start ts : List Token) (h : ts <:+ start) :
    Parsed Designator start :=
  match ts with
  | [] => ⟨d, [], h⟩
  | t :: ts₁ =>
    have h₁ := (List.suffix_cons t ts₁).trans h
    if t.kind = .period then
      let ⟨name, ts₂, h₂⟩ := readName ts₁
      have := h₂.length_le
      readSelectors (.field d name) start ts₂ (h₂.trans h₁)
    else if t.kind = .leftBracket then
      let ⟨index, ts₂, h₂⟩ := readExpr ts₁
      have := h₂.length_le
      let ⟨closed, ts₃, h₃⟩ := accept .rightBracket ts₂
      have := h₃.length_le
      readSelectors (.element d index closed) start ts₃ (h₃.trans (h₂.trans h₁))
    else ⟨d, t :: ts₁, h⟩
termination_by 8 * ts.length

/-- Reads the arguments of a call, if there are any. -/
def readArguments (ts : List Token) : Parsed (List Expr) ts :=
  if startsWith startsExpr ts then
    let ⟨first, ts₁, h₁⟩ := readExpr ts
    have := h₁.length_le
    let ⟨others, ts₂, h₂⟩ := readMoreArguments ts₁
    ⟨first :: others, ts₂, h₂.trans h₁⟩
  else .nothing [] ts
termination_by 8 * ts.length + 6

/-- Reads the arguments that follow the first one, each after a comma. -/
def readMoreArguments (ts : List Token) : Parsed (List Expr) ts :=
  match ts with
  | [] => .nothing [] []
  | t :: ts₁ =>
    if t.kind = .comma then
      let ⟨next, ts₂, h₂⟩ := readExpr ts₁
      have := h₂.length_le
      let ⟨others, ts₃, h₃⟩ := readMoreArguments ts₂
      ⟨next :: others, ts₃, h₃.trans (h₂.trans (List.suffix_cons t ts₁))⟩
    else .nothing [] (t :: ts₁)
termination_by 8 * ts.length + 5

end

/-- Reads a designator. -/
def readDesignator (ts : List Token) : Parsed Designator ts :=
  (readName ts).andThen fun name ts => readSelectors (.name name) ts ts List.suffix_rfl

/-- Takes a relation off the front, if there is one. -/
def readRelation : (ts : List Token) → Parsed (Option Relation) ts
  | [] => .nothing none []
  | t :: ts =>
    match relation? t.kind with
    | some r => .one (some r) t ts
    | none => .nothing none (t :: ts)

/-- Reads a comparison. -/
def readComparison (ts : List Token) : Parsed Comparison ts :=
  (readExpr ts).andThen fun left ts =>
    (readRelation ts).andThen fun relation ts =>
      (readExpr ts).map fun right => { left, relation, right }

/-- Extends the conjunction `cs` by the comparisons that follow. -/
def readMoreComparisons (cs : Conjunction) (start ts : List Token) (h : ts <:+ start) :
    Parsed Conjunction start :=
  match ts with
  | [] => ⟨cs, [], h⟩
  | t :: ts₁ =>
    if t.kind = .and then
      let ⟨next, ts₂, h₂⟩ := readComparison ts₁
      have := h₂.length_le
      readMoreComparisons (.and cs next) start ts₂ (h₂.trans ((List.suffix_cons t ts₁).trans h))
    else ⟨cs, t :: ts₁, h⟩
termination_by ts.length

/-- Reads a conjunction. -/
def readConjunction (ts : List Token) : Parsed Conjunction ts :=
  (readComparison ts).andThen fun first ts =>
    readMoreComparisons (.comparison first) ts ts List.suffix_rfl

/-- Extends the condition `cs` by the conjunctions that follow. -/
def readMoreConjunctions (cs : Condition) (start ts : List Token) (h : ts <:+ start) :
    Parsed Condition start :=
  match ts with
  | [] => ⟨cs, [], h⟩
  | t :: ts₁ =>
    if t.kind = .or then
      let ⟨next, ts₂, h₂⟩ := readConjunction ts₁
      have := h₂.length_le
      readMoreConjunctions (.or cs next) start ts₂ (h₂.trans ((List.suffix_cons t ts₁).trans h))
    else ⟨cs, t :: ts₁, h⟩
termination_by ts.length

/-- Reads a condition. -/
def readCondition (ts : List Token) : Parsed Condition ts :=
  (readConjunction ts).andThen fun first ts =>
    readMoreConjunctions (.conjunction first) ts ts List.suffix_rfl

end MicroJava.Tree
