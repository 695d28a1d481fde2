import MicroJava.Position

/-!
# What stands between tokens

Spaces, tabs, line ends and comments separate tokens. A comment begins with `/*`, ends with `*/`,
and may hold comments. `skipGap` walks over a text with the number of comments open; it stops at the
first character outside all comments that is no blank, or at the end of the text. If comments are
open there, the gap tells where the outermost one began.
-/

namespace MicroJava

/-- The text that follows a gap, its place, and where the comment begins that is not closed. -/
structure Gap where
  rest : List Char
  position : Position
  unclosed : Option Position := none
  deriving DecidableEq, Inhabited

/-- Whether a character may stand between tokens outside a comment. -/
def isSeparator (c : Char) : Bool :=
  c = ' ' || c = '\t' || c = '\r' || c = '\n'

/-- Walks over the gap at the beginning of a text that stands at `p`. Of the `depth` comments open
there the outermost began at `opened`. -/
def skipGap (opened p : Position) (depth : Nat) : List Char → Gap
  | [] => { rest := [], position := p, unclosed := if depth = 0 then none else some opened }
  | '/' :: '*' :: cs =>
    skipGap (if depth = 0 then p else opened) ((p.next '/').next '*') (depth + 1) cs
  | '*' :: '/' :: cs =>
    if depth = 0 then { rest := '*' :: '/' :: cs, position := p }
    else skipGap opened ((p.next '*').next '/') (depth - 1) cs
  | c :: cs =>
    if depth = 0 ∧ isSeparator c = false then { rest := c :: cs, position := p }
    else skipGap opened (p.next c) depth cs

/-- What follows a gap is the end of the text, and the gap's end is the place it stands at. -/
theorem exists_append_of_skipGap (opened p : Position) (depth : Nat) (cs : List Char) :
    ∃ skipped, cs = skipped ++ (skipGap opened p depth cs).rest ∧
      (skipGap opened p depth cs).position = p.advance skipped := by
  fun_induction skipGap opened p depth cs with
  | case1 => exact ⟨[], rfl, rfl⟩
  | case2 opened p depth cs ih =>
    obtain ⟨skipped, hrest, hpos⟩ := ih
    exact ⟨'/' :: '*' :: skipped, by simp [← hrest], by simpa using hpos⟩
  | case3 => exact ⟨[], rfl, rfl⟩
  | case4 opened p depth cs _ ih =>
    obtain ⟨skipped, hrest, hpos⟩ := ih
    exact ⟨'*' :: '/' :: skipped, by simp [← hrest], by simpa using hpos⟩
  | case5 => exact ⟨[], rfl, rfl⟩
  | case6 opened p depth c cs _ _ _ ih =>
    obtain ⟨skipped, hrest, hpos⟩ := ih
    exact ⟨c :: skipped, by simp [← hrest], by simpa using hpos⟩

theorem length_rest_skipGap_le (opened p : Position) (depth : Nat) (cs : List Char) :
    (skipGap opened p depth cs).rest.length ≤ cs.length := by
  obtain ⟨skipped, h, -⟩ := exists_append_of_skipGap opened p depth cs
  exact (congrArg List.length h).symm ▸ by simp

end MicroJava
