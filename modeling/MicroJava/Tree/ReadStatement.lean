import MicroJava.Tree.ReadExpr
import MicroJava.Tree.Statement

/-!
# Reading statements

Which statement begins is decided by its first token (`statementHead?`). Inside a block, tokens that
begin no statement are passed over up to the next one whose kind resumes reading; outside a block
nothing is passed over, and the statement is missing.
-/

namespace MicroJava.Tree

/-- The beginnings of statements. -/
inductive StatementHead where
  | name (n : String)
  | ifWord
  | whileWord
  | breakWord
  | returnWord
  | readWord
  | printWord
  | brace
  | semicolon
  deriving DecidableEq

/-- The beginning of a statement that a token is. -/
def statementHead? (t : Token) : Option StatementHead :=
  match t.kind with
  | .ident => some (.name t.name)
  | .kwIf => some .ifWord
  | .kwWhile => some .whileWord
  | .kwBreak => some .breakWord
  | .kwReturn => some .returnWord
  | .kwRead => some .readWord
  | .kwPrint => some .printWord
  | .leftBrace => some .brace
  | .semicolon => some .semicolon
  | _ => none

/-- Whether reading a block resumes at a token of this kind. -/
def resumesStatement : Kind → Bool
  | .kwIf | .kwWhile | .kwBreak | .kwReturn | .kwRead | .kwPrint | .semicolon => true
  | _ => false

/-- The operator of assignments that a token stands for. -/
def assignOp? : Kind → Option AssignOp
  | .assign => some .plain
  | .plusAssign => some .plus
  | .minusAssign => some .minus
  | .timesAssign => some .times
  | .slashAssign => some .slash
  | .percentAssign => some .percent
  | _ => none

/-- Reads what happens to a designator. -/
def readAction : (ts : List Token) → Parsed Action ts
  | [] => .nothing .missing []
  | t :: ts =>
    match assignOp? t.kind, t.kind with
    | some op, _ => (Parsed.one op t ts).andThen fun op ts => (readExpr ts).map (.assign op)
    | none, .leftParen =>
      (Parsed.one () t ts).andThen fun _ ts =>
        (readArguments ts).andThen fun arguments ts =>
          (accept .rightParen ts).map (.call arguments)
    | none, .increment => .one .increment t ts
    | none, .decrement => .one .decrement t ts
    | none, _ => .nothing .missing (t :: ts)

/-- Reads the condition of a statement in its parentheses. -/
def readGuard (ts : List Token) : Parsed (Bool × Condition × Bool) ts :=
  (accept .leftParen ts).andThen fun opened ts =>
    (readCondition ts).andThen fun condition ts =>
      (accept .rightParen ts).map fun closed => (opened, condition, closed)

/-- Reads the width of a printed value, if a comma announces one. -/
def readWidth (ts : List Token) : Parsed (Option (Option Int)) ts :=
  (accept .comma ts).andThen fun announced ts =>
    if announced then (readNumber ts).map some else .nothing none ts

mutual

/-- Reads a statement, if one begins. -/
def readStatement (ts : List Token) : Parsed Statement ts :=
  match ts with
  | [] => .nothing .missing []
  | t :: ts₁ =>
    match statementHead? t with
    | none => .nothing .missing (t :: ts₁)
    | some head => (readAfter head ts₁).widen (List.suffix_cons t ts₁)
termination_by 2 * ts.length

/-- Reads a statement after its beginning. -/
def readAfter (head : StatementHead) (ts : List Token) : Parsed Statement ts :=
  match head with
  | .name n =>
    let ⟨d, ts₁, h₁⟩ := readSelectors (.name (some n)) ts ts List.suffix_rfl
    let ⟨action, ts₂, h₂⟩ := readAction ts₁
    let ⟨ended, ts₃, h₃⟩ := accept .semicolon ts₂
    ⟨.action d action ended, ts₃, h₃.trans (h₂.trans h₁)⟩
  | .ifWord =>
    let ⟨(opened, condition, closed), ts₁, h₁⟩ := readGuard ts
    have := h₁.length_le
    let ⟨body, ts₂, h₂⟩ := readStatement ts₁
    have := h₂.length_le
    let ⟨hasOther, ts₃, h₃⟩ := accept .kwElse ts₂
    have := h₃.length_le
    if hasOther then
      let ⟨other, ts₄, h₄⟩ := readStatement ts₃
      ⟨.ifThenElse opened condition closed body other, ts₄,
        h₄.trans (h₃.trans (h₂.trans h₁))⟩
    else ⟨.ifThen opened condition closed body, ts₂, h₂.trans h₁⟩
  | .whileWord =>
    let ⟨(opened, condition, closed), ts₁, h₁⟩ := readGuard ts
    have := h₁.length_le
    let ⟨body, ts₂, h₂⟩ := readStatement ts₁
    ⟨.whileDo opened condition closed body, ts₂, h₂.trans h₁⟩
  | .breakWord => (accept .semicolon ts).map .leave
  | .returnWord =>
    if startsWith startsExpr ts then
      let ⟨value, ts₁, h₁⟩ := readExpr ts
      let ⟨ended, ts₂, h₂⟩ := accept .semicolon ts₁
      ⟨.give (some value) ended, ts₂, h₂.trans h₁⟩
    else (accept .semicolon ts).map (.give none)
  | .readWord =>
    let ⟨opened, ts₁, h₁⟩ := accept .leftParen ts
    let ⟨d, ts₂, h₂⟩ := readDesignator ts₁
    let ⟨closed, ts₃, h₃⟩ := accept .rightParen ts₂
    let ⟨ended, ts₄, h₄⟩ := accept .semicolon ts₃
    ⟨.read opened d closed ended, ts₄, h₄.trans (h₃.trans (h₂.trans h₁))⟩
  | .printWord =>
    let ⟨opened, ts₁, h₁⟩ := accept .leftParen ts
    let ⟨value, ts₂, h₂⟩ := readExpr ts₁
    let ⟨width, ts₃, h₃⟩ := readWidth ts₂
    let ⟨closed, ts₄, h₄⟩ := accept .rightParen ts₃
    let ⟨ended, ts₅, h₅⟩ := accept .semicolon ts₄
    ⟨.print opened value width closed ended, ts₅,
      h₅.trans (h₄.trans (h₃.trans (h₂.trans h₁)))⟩
  | .brace =>
    let ⟨statements, ts₁, h₁⟩ := readStatements [] ts ts List.suffix_rfl
    let ⟨closed, ts₂, h₂⟩ := accept .rightBrace ts₁
    ⟨.block statements closed, ts₂, h₂.trans h₁⟩
  | .semicolon => .nothing .empty ts
termination_by 2 * ts.length + 1

/-- Reads the statements of a block, after those in `before`, the latest of which comes first. -/
def readStatements (before : List Statement) (start ts : List Token) (h : ts <:+ start) :
    Parsed (List Statement) start :=
  match ts with
  | [] => ⟨before.reverse, [], h⟩
  | t :: ts₁ =>
    have h₁ := (List.suffix_cons t ts₁).trans h
    match statementHead? t with
    | some head =>
      let ⟨s, ts₂, h₂⟩ := readAfter head ts₁
      have := h₂.length_le
      readStatements (s :: before) start ts₂ (h₂.trans h₁)
    | none =>
      if t.kind = .rightBrace then ⟨before.reverse, t :: ts₁, h⟩
      else
        let ⟨more, ts₂, h₂⟩ := skipTo resumesStatement ts₁
        have := h₂.length_le
        readStatements (.skipped more :: before) start ts₂ (h₂.trans h₁)
termination_by 2 * ts.length

end

end MicroJava.Tree
