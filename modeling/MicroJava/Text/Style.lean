/-!
# Styled text for terminals

A style is a list of display attributes, each a number of the select-graphic-rendition control
sequence. `Style.wrap` puts the sequence that selects the attributes before a text and the one that
resets all of them after it; the empty style leaves the text alone.
-/

namespace MicroJava.Text

/-- The control sequence that selects the display attributes listed in `codes`. -/
def select (codes : String) : String :=
  "\x1b[" ++ codes ++ "m"

/-- The display attributes of a text, in the order in which they are selected. -/
structure Style where
  codes : List Nat
  deriving DecidableEq, Inhabited

namespace Style

def plain : Style := ⟨[]⟩
def bold : Style := ⟨[1]⟩
def dim : Style := ⟨[2]⟩
def red : Style := ⟨[31]⟩
def green : Style := ⟨[32]⟩
def yellow : Style := ⟨[33]⟩
def magenta : Style := ⟨[35]⟩
def cyan : Style := ⟨[36]⟩

/-- The attributes of both styles, those of the first one first. -/
def and (s t : Style) : Style := ⟨s.codes ++ t.codes⟩

/-- The text in the given style, with every attribute reset after it. -/
def wrap (s : Style) (text : String) : String :=
  if s.codes.isEmpty then text
  else select (";".intercalate (s.codes.map toString)) ++ text ++ select "0"

@[simp] theorem wrap_plain (text : String) : plain.wrap text = text := rfl

end Style

/-- The text in the foreground colour `code`, with the default colour restored after it. -/
def coloured (code : Nat) (text : String) : String :=
  select (toString code) ++ text ++ select "39"

/-- The text in bold, with every attribute reset after it. -/
def bolded (text : String) : String :=
  select "1" ++ text ++ select "0"

end MicroJava.Text
