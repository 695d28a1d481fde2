import MicroJava.Token
import MicroJava.Token.Gap
import MicroJava.Token.Lexeme

/-!
# From text to tokens

`Scan.step` passes the gap at the beginning of a text and reads the token after it. Repeating it
until the text is exhausted gives the source of a text, `TokenSource.scan`, whose last reading is
the only `eof`. The repetition ends because every other token takes at least one character
(`Scan.length_rest_step_lt`).
-/

namespace MicroJava

namespace Scan

/-- One reading, with the text after it and the place of that text. -/
structure Step where
  reading : Reading
  rest : List Char
  position : Position
  deriving Inhabited

/-- Reads the first token of the text `cs`, which stands at `p`. All faults of a token are placed at
its first character; a comment without an end is placed where it begins. -/
def step (p : Position) (cs : List Char) : Step :=
  let gap := skipGap p p 0 cs
  let lexeme := Lexeme.read gap.rest
  { reading :=
      { token :=
          { kind := lexeme.kind, position := gap.position, name := lexeme.name,
            value := lexeme.value }
        faults := (gap.unclosed.map (Diagnostic.mk · .endInComment)).toList ++
          lexeme.faults.map (Diagnostic.mk gap.position) }
    rest := gap.rest.drop lexeme.length
    position := gap.position.advance (gap.rest.take lexeme.length) }

theorem length_rest_step_lt {p : Position} {cs : List Char}
    (h : (step p cs).reading.token.kind ≠ .eof) : (step p cs).rest.length < cs.length := by
  have hle := length_rest_skipGap_le p p 0 cs
  simp only [step] at h ⊢
  cases hrest : (skipGap p p 0 cs).rest with
  | nil => exact absurd (Lexeme.read_kind_eq_eof.2 hrest) h
  | cons d ds =>
    have hpos := Lexeme.length_pos_of_read d ds
    rw [hrest, List.length_cons] at hle
    simp only [List.length_drop, List.length_cons]
    omega

/-- The readings of the text `cs`, which stands at `p`, after those in `acc`. -/
def readings (p : Position) (cs : List Char) (acc : Array Reading) : Array Reading :=
  let s := step p cs
  if _h : s.reading.token.kind = .eof then acc.push s.reading
  else readings s.position s.rest (acc.push s.reading)
termination_by cs.length
decreasing_by exact length_rest_step_lt ‹_›

theorem readings_eq_append (p : Position) (cs : List Char) (acc : Array Reading) :
    readings p cs acc = acc ++ readings p cs #[] := by
  induction hn : cs.length using Nat.strongRecOn generalizing p cs acc with
  | ind n ih =>
    subst hn
    rw [readings.eq_def p cs acc, readings.eq_def p cs #[]]
    by_cases h : (step p cs).reading.token.kind = .eof
    · simp [h]
    · have hlt := length_rest_step_lt h
      simp only [h, dite_false]
      rw [ih _ hlt _ _ (acc.push _) rfl, ih _ hlt _ _ (#[].push _) rfl]
      simp

end Scan

/-- The tokens of a text, the last of them `eof`. -/
def TokenSource.scan (text : String) : TokenSource :=
  let readings := (Scan.readings Position.start text.toList #[]).toList
  { readings, last := (readings.getLast?.map (·.token.position)).getD Position.start }

end MicroJava
