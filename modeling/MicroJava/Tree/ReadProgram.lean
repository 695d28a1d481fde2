import MicroJava.Tree.Program
import MicroJava.Tree.ReadStatement

/-!
# Reading programs

`Program.read` makes the tree of a list of tokens, whatever the tokens are. Where neither a
declaration nor a method begins, tokens are passed over up to the next one whose kind resumes
reading.
-/

namespace MicroJava.Tree

/-- Whether reading declarations resumes at a token of this kind. -/
def resumesDeclaration : Kind → Bool
  | .kwFinal | .ident | .kwClass | .rightBrace => true
  | _ => false

/-- Whether reading methods resumes at a token of this kind. -/
def resumesMember : Kind → Bool
  | .ident | .kwVoid => true
  | _ => false

/-- Reads the brackets of an array type, if there are any. -/
def readArrayMark (ts : List Token) : Parsed (Option Bool) ts :=
  (accept .leftBracket ts).andThen fun opened ts =>
    if opened then (accept .rightBracket ts).map some else .nothing none ts

/-- Reads a mention of a type. -/
def readTypeName (ts : List Token) : Parsed TypeName ts :=
  (readName ts).andThen fun name ts =>
    (readArrayMark ts).map fun array => { name, array }

/-- Reads the names that follow the first one, each after a comma, after those in `before`, the
latest of which comes first. -/
def readMoreNames (before : List (Option String)) (start ts : List Token) (h : ts <:+ start) :
    Parsed (List (Option String)) start :=
  match ts with
  | [] => ⟨before.reverse, [], h⟩
  | t :: ts₁ =>
    if t.kind = .comma then
      let ⟨name, ts₂, h₂⟩ := readName ts₁
      have := h₂.length_le
      readMoreNames (name :: before) start ts₂ (h₂.trans ((List.suffix_cons t ts₁).trans h))
    else ⟨before.reverse, t :: ts₁, h⟩
termination_by ts.length

/-- Reads variables of the type `type`. -/
def readVariables (type : TypeName) (ts : List Token) : Parsed VariableDecl ts :=
  (readName ts).andThen fun first ts =>
    (readMoreNames [] ts ts List.suffix_rfl).andThen fun others ts =>
      (accept .semicolon ts).map fun ended => { type, first, others, ended }

/-- Reads variables whose type begins with the name `name`. -/
def readVariablesAfter (name : String) (ts : List Token) : Parsed VariableDecl ts :=
  (readArrayMark ts).andThen fun array ts => readVariables { name := some name, array } ts

/-- Reads declarations of variables as long as one begins, after those in `before`, the latest of
which comes first. -/
def readVariableDecls (before : List VariableDecl) (start ts : List Token) (h : ts <:+ start) :
    Parsed (List VariableDecl) start :=
  match ts with
  | [] => ⟨before.reverse, [], h⟩
  | t :: ts₁ =>
    if t.kind = .ident then
      let ⟨d, ts₂, h₂⟩ := readVariablesAfter t.name ts₁
      have := h₂.length_le
      readVariableDecls (d :: before) start ts₂ (h₂.trans ((List.suffix_cons t ts₁).trans h))
    else ⟨before.reverse, t :: ts₁, h⟩
termination_by ts.length

/-- Reads the value of a constant. -/
def readConstantValue : (ts : List Token) → Parsed ConstantValue ts
  | [] => .nothing .missing []
  | t :: ts =>
    match t.kind with
    | .number => .one (.number t.value) t ts
    | .charConst => .one (.char t.value) t ts
    | _ => .nothing .missing (t :: ts)

/-- Reads a constant after the word that begins its declaration. -/
def readConstant (ts : List Token) : Parsed ConstantDecl ts :=
  (readTypeName ts).andThen fun type ts =>
    (readName ts).andThen fun name ts =>
      (accept .assign ts).andThen fun assigned ts =>
        (readConstantValue ts).andThen fun value ts =>
          (accept .semicolon ts).map fun ended => { type, name, assigned, value, ended }

/-- Reads a class after the word that begins its declaration. -/
def readClass (ts : List Token) : Parsed ClassDecl ts :=
  (readName ts).andThen fun name ts =>
    (accept .leftBrace ts).andThen fun opened ts =>
      (readVariableDecls [] ts ts List.suffix_rfl).andThen fun fields ts =>
        (accept .rightBrace ts).map fun closed => { name, opened, fields, closed }

/-- Reads the declarations before the methods, after those in `before`, the latest of which comes
first. -/
def readDeclarations (before : List Declaration) (start ts : List Token) (h : ts <:+ start) :
    Parsed (List Declaration) start :=
  match ts with
  | [] => ⟨before.reverse, [], h⟩
  | t :: ts₁ =>
    have h₁ := (List.suffix_cons t ts₁).trans h
    match t.kind with
    | .kwFinal =>
      let ⟨d, ts₂, h₂⟩ := readConstant ts₁
      have := h₂.length_le
      readDeclarations (.constant d :: before) start ts₂ (h₂.trans h₁)
    | .ident =>
      let ⟨d, ts₂, h₂⟩ := readVariablesAfter t.name ts₁
      have := h₂.length_le
      readDeclarations (.globals d :: before) start ts₂ (h₂.trans h₁)
    | .kwClass =>
      let ⟨d, ts₂, h₂⟩ := readClass ts₁
      have := h₂.length_le
      readDeclarations (.object d :: before) start ts₂ (h₂.trans h₁)
    | .leftBrace => ⟨before.reverse, t :: ts₁, h⟩
    | _ =>
      let ⟨more, ts₂, h₂⟩ := skipTo resumesDeclaration ts₁
      have := h₂.length_le
      readDeclarations (.skipped more :: before) start ts₂ (h₂.trans h₁)
termination_by ts.length

/-- Reads a formal parameter. -/
def readParameter (ts : List Token) : Parsed Parameter ts :=
  (readTypeName ts).andThen fun type ts =>
    (readName ts).map fun name => { type, name }

/-- Reads the parameters that follow the first one, each after a comma, after those in `before`, the
latest of which comes first. -/
def readMoreParameters (before : List Parameter) (start ts : List Token) (h : ts <:+ start) :
    Parsed (List Parameter) start :=
  match ts with
  | [] => ⟨before.reverse, [], h⟩
  | t :: ts₁ =>
    if t.kind = .comma then
      let ⟨p, ts₂, h₂⟩ := readParameter ts₁
      have := h₂.length_le
      readMoreParameters (p :: before) start ts₂ (h₂.trans ((List.suffix_cons t ts₁).trans h))
    else ⟨before.reverse, t :: ts₁, h⟩
termination_by ts.length

/-- Reads the formal parameters of a method, if there are any. -/
def readParameters (ts : List Token) : Parsed (List Parameter) ts :=
  if startsWith (· = .ident) ts then
    (readParameter ts).andThen fun first ts => readMoreParameters [first] ts ts List.suffix_rfl
  else .nothing [] ts

/-- Reads a method after its type. -/
def readMethod (type : Option TypeName) (ts : List Token) : Parsed MethodDecl ts :=
  (readName ts).andThen fun name ts =>
    (accept .leftParen ts).andThen fun opened ts =>
      (readParameters ts).andThen fun parameters ts =>
        (accept .rightParen ts).andThen fun closed ts =>
          (readVariableDecls [] ts ts List.suffix_rfl).andThen fun locals ts =>
            (accept .leftBrace ts).andThen fun bodyOpened ts =>
              (readStatements [] ts ts List.suffix_rfl).andThen fun body ts =>
                (accept .rightBrace ts).map fun bodyClosed =>
                  { type, name, opened, parameters, closed, locals, bodyOpened, body, bodyClosed }

/-- Reads the methods of a program, after those in `before`, the latest of which comes first. -/
def readMembers (before : List Member) (start ts : List Token) (h : ts <:+ start) :
    Parsed (List Member) start :=
  match ts with
  | [] => ⟨before.reverse, [], h⟩
  | t :: ts₁ =>
    have h₁ := (List.suffix_cons t ts₁).trans h
    match t.kind with
    | .kwVoid =>
      let ⟨d, ts₂, h₂⟩ := readMethod none ts₁
      have := h₂.length_le
      readMembers (.method d :: before) start ts₂ (h₂.trans h₁)
    | .ident =>
      let ⟨array, ts₂, h₂⟩ := readArrayMark ts₁
      have := h₂.length_le
      let ⟨d, ts₃, h₃⟩ := readMethod (some { name := some t.name, array }) ts₂
      have := h₃.length_le
      readMembers (.method d :: before) start ts₃ (h₃.trans (h₂.trans h₁))
    | .rightBrace => ⟨before.reverse, t :: ts₁, h⟩
    | _ =>
      let ⟨more, ts₂, h₂⟩ := skipTo resumesMember ts₁
      have := h₂.length_le
      readMembers (.skipped more :: before) start ts₂ (h₂.trans h₁)
termination_by ts.length

/-- Reads a program, and whether anything follows it. -/
def readProgram (ts : List Token) : Parsed Program ts :=
  (accept .kwProgram ts).andThen fun announced ts =>
    (readName ts).andThen fun name ts =>
      (readDeclarations [] ts ts List.suffix_rfl).andThen fun declarations ts =>
        (accept .leftBrace ts).andThen fun opened ts =>
          (readMembers [] ts ts List.suffix_rfl).andThen fun members ts =>
            (accept .rightBrace ts).andThen fun closed ts =>
              .nothing { announced, name, declarations, opened, members, closed,
                         complete := ts.isEmpty } ts

/-- The tree of a list of tokens. -/
def Program.read (ts : List Token) : Program :=
  (readProgram ts).value

end MicroJava.Tree
