import MicroJava.Diagnostic

/-!
# Tokens

A token is a terminal symbol with its place in the source text. An identifier has a spelling,
numbers and character constants have a value; for all other kinds these are empty and zero.

`Reading` is what a token source delivers at one step: a token, and the faults met while forming
it. A `TokenSource` is the list of all readings. It is read beyond its end as an endless run of
`eof` tokens at one place.
-/

namespace MicroJava

/-- A terminal symbol at its place, with the spelling of an identifier and the value of a number or
character constant. -/
structure Token where
  kind : Kind
  position : Position
  name : String := ""
  value : Int := 0
  deriving DecidableEq, Inhabited

/-- A token and the faults met while forming it. -/
structure Reading where
  token : Token
  faults : List Diagnostic := []
  deriving Inhabited

/-- The readings of a text or of a given list of tokens, and the place of the `eof` tokens that
follow them. -/
structure TokenSource where
  readings : List Reading
  last : Position
  deriving Inhabited

namespace TokenSource

/-- The source that delivers the given tokens. The `eof` tokens that follow stand where the last of
them stands. -/
def ofTokens (ts : List Token) : TokenSource :=
  { readings := ts.map fun t => { token := t }
    last := (ts.getLast?.map Token.position).getD Position.start }

/-- The tokens before the first `eof`. -/
def tokens (s : TokenSource) : List Token :=
  (s.readings.map Reading.token).takeWhile (·.kind ≠ .eof)

/-- All faults met while forming the tokens. -/
def faults (s : TokenSource) : List Diagnostic :=
  s.readings.flatMap Reading.faults

end TokenSource

end MicroJava
