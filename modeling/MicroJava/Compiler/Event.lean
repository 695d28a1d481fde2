import MicroJava.Token

/-!
# What happens while a tree is compiled

Compiling a tree neither knows where its tokens stand nor whether a fault will be shown. It keeps a
log: a token was passed, there is a fault, reading resumes. `Reporter.replay` matches the log with
the readings of a token source and makes the diagnostics. So neither the layout of the text nor the
distance asked for between diagnostics can have an influence on the code.
-/

namespace MicroJava

/-- An entry of the log. `shift` passes one token and fetches the next one. -/
inductive Event where
  | shift
  | fault (m : Message)
  | resync
  deriving DecidableEq, Inhabited

namespace Reporter

/-- The next reading arrives: its own faults are shown, and its token is the next one to be read. -/
def fetch (r : Reporter) (reading : Reading) : Reporter :=
  (reading.faults.foldl report r).advance reading.token.position

/-- Goes through a log while the given readings arrive. After the last one, `eof` tokens at `last`
arrive. -/
def replay (last : Position) (r : Reporter) : List Reading → List Event → Reporter
  | _, [] => r
  | readings, .fault m :: log => replay last (r.fault m) readings log
  | readings, .resync :: log => replay last r.resync readings log
  | [], .shift :: log => replay last (r.advance last) [] log
  | reading :: readings, .shift :: log => replay last (r.fetch reading) readings log

@[simp] theorem replay_nil (last : Position) (r : Reporter) (readings : List Reading) :
    r.replay last readings [] = r := by
  cases readings <;> rfl

end Reporter

end MicroJava
