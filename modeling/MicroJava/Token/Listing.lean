import MicroJava.Token
import MicroJava.Text.Blank
import MicroJava.Text.Padding
import MicroJava.Text.Style

/-!
# Listings of tokens

One line for each token: its place, the category it belongs to, and what it stands for. A terse
listing leaves the last part out; a coloured one gives each category its own style.
-/

namespace MicroJava

namespace Kind

/-- The category under which a listing shows a token. -/
def category : Kind → String
  | invalid => "INVALID"
  | eof => "EOF"
  | ident => "IDENT"
  | number => "NUMBER"
  | charConst => "CHAR"
  | equal | notEqual | less | lessEqual | greater | greaterEqual | and | or => "CMP"
  | assign | plusAssign | minusAssign | timesAssign | slashAssign | percentAssign => "ASSIGN"
  | plus | minus | times | slash | percent | power | increment | decrement => "OP"
  | semicolon | comma | period | leftParen | rightParen | leftBracket | rightBracket | leftBrace
  | rightBrace => "PUNCT"
  | _ => "KEYWORD"

/-- The style in which a listing shows a token. -/
def style (k : Kind) : Text.Style :=
  match k with
  | invalid => Text.Style.red.and Text.Style.bold
  | eof => Text.Style.dim
  | ident => Text.Style.yellow
  | number | charConst => Text.Style.cyan
  | semicolon | comma | period | leftParen | rightParen | leftBracket | rightBracket | leftBrace
  | rightBrace => Text.Style.plain
  | _ => if k.isKeyword then Text.Style.green else Text.Style.magenta

end Kind

namespace Token

/-- What a token stands for: its name, its value or its spelling. -/
def meaning (t : Token) : String :=
  match t.kind with
  | .ident => t.name
  | .number => toString t.value
  | .charConst => Text.quoted (Char.ofNat t.value.toNat)
  | .invalid => "?"
  | kind => kind.label

/-- The category of a token and, unless the listing is terse, what it stands for. -/
def describe (terse : Bool) (t : Token) : String :=
  Text.trimEnd (Text.spacePadded 8 t.kind.category ++ " " ++ if terse then "" else t.meaning)

/-- The line that shows a token. -/
def listingLine (coloured terse : Bool) (t : Token) : String :=
  let style := if coloured then t.kind.style else Text.Style.plain
  "[" ++ Text.zeroPadded 2 t.position.line ++ ":" ++ Text.zeroPadded 2 t.position.col ++ "] " ++
    style.wrap (t.describe terse)

/-- The lines that show the tokens `ts`. -/
def listing (coloured terse : Bool) (ts : List Token) : String :=
  String.join (ts.map fun t => t.listingLine coloured terse ++ "\n")

end Token

end MicroJava
