/-!
# Places in a source text

A place is a line and a column, both counted from one. A column counts characters, whatever their
width on a screen, and only a line feed starts a new line. `Position.advance` walks over a run of
characters, and walking over two runs one after the other is walking over their concatenation, so
the place of a token depends only on the text before it.
-/

namespace MicroJava

/-- A line and a column, both counted from one. -/
structure Position where
  line : Nat
  col : Nat
  deriving DecidableEq, Inhabited

namespace Position

/-- The place of the first character of a text. -/
def start : Position := ⟨1, 1⟩

/-- The place just after the character `c`. -/
def next (p : Position) (c : Char) : Position :=
  if c = '\n' then ⟨p.line + 1, 1⟩ else ⟨p.line, p.col + 1⟩

/-- The place just after the characters `cs`. -/
def advance (p : Position) (cs : List Char) : Position :=
  cs.foldl next p

@[simp] theorem advance_nil (p : Position) : p.advance [] = p := rfl

@[simp] theorem advance_cons (p : Position) (c : Char) (cs : List Char) :
    p.advance (c :: cs) = (p.next c).advance cs := rfl

theorem advance_append (p : Position) (cs ds : List Char) :
    p.advance (cs ++ ds) = (p.advance cs).advance ds := by
  simp [advance, List.foldl_append]

end Position

end MicroJava
