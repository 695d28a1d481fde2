import MicroJava.Message
import MicroJava.Position

/-!
# Diagnostics

A diagnostic is a message at a place of the source text. Faults of the grammar and of names and
types are thinned out before they become diagnostics: after one fault the next is shown only when
at least `minDistance` tokens were passed in between, because faults that close together usually
have one cause. A `Reporter` counts that distance, in 32 bits. A fault that is not shown still starts
the count anew, and so does the point where reading resumes after a stretch of skipped tokens.
-/

namespace MicroJava

/-- A message at a place of the source text. -/
structure Diagnostic where
  position : Position
  message : Message
  deriving DecidableEq, Inhabited

namespace Diagnostic

/-- The line in which a diagnostic is shown. -/
def text (d : Diagnostic) : String :=
  "-- line " ++ toString d.position.line ++ " col " ++ toString d.position.col ++ ": " ++
    d.message.text

end Diagnostic

/-- The diagnostics so far, the place of the token to be read next, and the number of tokens passed
since the last fault. -/
structure Reporter where
  diagnostics : Array Diagnostic
  minDistance : Nat
  distance : Nat
  position : Position
  deriving Inhabited

namespace Reporter

/-- The greatest distance that is counted, and that can be asked for. -/
def maxDistance : Nat := 4294967295

/-- Nothing is reported yet, and the first fault will be, wherever it is. -/
def start (minDistance : Nat) : Reporter :=
  { diagnostics := #[], minDistance, distance := minDistance, position := Position.start }

/-- A token was passed, and the next one stands at `p`. The count ends at the greatest distance. -/
def advance (r : Reporter) (p : Position) : Reporter :=
  { r with
    position := p
    distance := if r.distance < maxDistance then r.distance + 1 else r.distance }

/-- Shows `d` whatever the distance. -/
def report (r : Reporter) (d : Diagnostic) : Reporter :=
  { r with diagnostics := r.diagnostics.push d }

/-- The count of passed tokens starts anew. -/
def resync (r : Reporter) : Reporter :=
  { r with distance := 0 }

/-- A fault at the token to be read next, shown if the last one is far enough behind. -/
def fault (r : Reporter) (m : Message) : Reporter :=
  if r.minDistance ≤ r.distance then (r.report ⟨r.position, m⟩).resync else r.resync

theorem distance_le_advance (r : Reporter) (p : Position) : r.distance ≤ (r.advance p).distance := by
  simp only [advance]
  split
  · exact Nat.le_succ r.distance
  · exact Nat.le_refl r.distance

theorem fault_of_le {r : Reporter} (h : r.minDistance ≤ r.distance) (m : Message) :
    r.fault m = (r.report ⟨r.position, m⟩).resync := if_pos h

theorem fault_of_lt {r : Reporter} (h : r.distance < r.minDistance) (m : Message) :
    r.fault m = r.resync := if_neg (Nat.not_le.2 h)

/-- With distance zero asked for, every fault is shown. -/
theorem fault_of_minDistance_eq_zero {r : Reporter} (h : r.minDistance = 0) (m : Message) :
    r.fault m = (r.report ⟨r.position, m⟩).resync :=
  fault_of_le (h ▸ Nat.zero_le _) m

end Reporter

end MicroJava
