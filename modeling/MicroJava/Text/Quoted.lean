import MicroJava.Text.Unprintable
import MicroJava.Text.Combining

/-!
# A character between quotes

The form in which a message or a listing shows a single character. The six characters with an
escape of their own are written by it, a character that cannot be shown on its own is written by
its code point in hexadecimal, and any other stands for itself.
-/

namespace MicroJava.Text

/-- The hexadecimal digits of `n`, without padding. -/
def hex (n : Nat) : String :=
  String.ofList (Nat.toDigits 16 n)

/-- A character written by its code point. -/
def codePointEscape (c : Char) : String :=
  "\\u\x7b" ++ hex c.toNat ++ "\x7d"

/-- What stands between the quotes for the character `c`. -/
def escaped (c : Char) : String :=
  if c = '\x00' then "\\0"
  else if c = '\t' then "\\t"
  else if c = '\r' then "\\r"
  else if c = '\n' then "\\n"
  else if c = '\'' then "\\'"
  else if c = '\\' then "\\\\"
  else if isCombining c || isUnprintable c then codePointEscape c
  else c.toString

/-- The character `c` in single quotes. -/
def quoted (c : Char) : String :=
  "'" ++ escaped c ++ "'"

end MicroJava.Text
