/-!
# Terminal symbols

The kinds of token that the grammar of MicroJava is written in, with their spelling and with the
way a message names them. `Kind.keyword?` reads a reserved word back from its spelling:
`keyword?_label` says that it does so for each of them, and `label_of_keyword?` that it accepts
nothing else.
-/

namespace MicroJava

/-- The terminal symbols. `invalid` stands for characters that begin no token. -/
inductive Kind where
  | invalid
  | ident
  | number
  | charConst
  | plus
  | minus
  | times
  | slash
  | percent
  | power
  | equal
  | notEqual
  | less
  | lessEqual
  | greater
  | greaterEqual
  | and
  | or
  | assign
  | plusAssign
  | minusAssign
  | timesAssign
  | slashAssign
  | percentAssign
  | increment
  | decrement
  | semicolon
  | comma
  | period
  | leftParen
  | rightParen
  | leftBracket
  | rightBracket
  | leftBrace
  | rightBrace
  | kwBreak
  | kwClass
  | kwElse
  | kwFinal
  | kwIf
  | kwNew
  | kwPrint
  | kwProgram
  | kwRead
  | kwReturn
  | kwVoid
  | kwWhile
  | eof
  deriving DecidableEq, Inhabited

namespace Kind

/-- The spelling of a symbol, or the name of a class of symbols. -/
def label : Kind → String
  | invalid => "none"
  | ident => "identifier"
  | number => "number"
  | charConst => "character constant"
  | plus => "+"
  | minus => "-"
  | times => "*"
  | slash => "/"
  | percent => "%"
  | power => "**"
  | equal => "=="
  | notEqual => "!="
  | less => "<"
  | lessEqual => "<="
  | greater => ">"
  | greaterEqual => ">="
  | and => "&&"
  | or => "||"
  | assign => "="
  | plusAssign => "+="
  | minusAssign => "-="
  | timesAssign => "*="
  | slashAssign => "/="
  | percentAssign => "%="
  | increment => "++"
  | decrement => "--"
  | semicolon => ";"
  | comma => ","
  | period => "."
  | leftParen => "("
  | rightParen => ")"
  | leftBracket => "["
  | rightBracket => "]"
  | leftBrace => "\x7b"
  | rightBrace => "\x7d"
  | kwBreak => "break"
  | kwClass => "class"
  | kwElse => "else"
  | kwFinal => "final"
  | kwIf => "if"
  | kwNew => "new"
  | kwPrint => "print"
  | kwProgram => "program"
  | kwRead => "read"
  | kwReturn => "return"
  | kwVoid => "void"
  | kwWhile => "while"
  | eof => "end of file"

/-- The reserved words. -/
def keywords : List Kind :=
  [kwBreak, kwClass, kwElse, kwFinal, kwIf, kwNew, kwPrint, kwProgram, kwRead, kwReturn, kwVoid,
    kwWhile]

/-- Whether a symbol is a reserved word. -/
def isKeyword (k : Kind) : Bool :=
  keywords.contains k

/-- The reserved word that is spelled `name`, if there is one. -/
def keyword? (name : String) : Option Kind :=
  keywords.find? (·.label == name)

/-- Whether a symbol is named by what it stands for instead of by its spelling. -/
def isNamedClass : Kind → Bool
  | ident | number | charConst | eof | invalid => true
  | _ => false

/-- How a message names a symbol: spellings stand in double quotes. -/
def describe (k : Kind) : String :=
  if k.isNamedClass then k.label else "\"" ++ k.label ++ "\""

theorem keyword?_label {k : Kind} (h : k ∈ keywords) : keyword? k.label = some k := by
  simp only [keywords, List.mem_cons, List.not_mem_nil, or_false] at h
  rcases h with rfl | rfl | rfl | rfl | rfl | rfl | rfl | rfl | rfl | rfl | rfl | rfl <;> rfl

theorem label_of_keyword? {name : String} {k : Kind} (h : keyword? name = some k) :
    k ∈ keywords ∧ k.label = name :=
  ⟨List.mem_of_find?_eq_some h, by simpa using List.find?_some h⟩

end Kind

end MicroJava
