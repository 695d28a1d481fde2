import MicroJava.Tree.Statement

/-!
# In which order statements are executed

The flow of a statement is what is left of it when only the order of execution matters: pieces that
are visited, two branches and loops, and the ways out of them. A piece is a statement that does
something by itself, or a whole condition. `Flow.run` executes a flow when the answers to its
conditions are known in advance. If there are not enough of them, it ends at the condition that
would be asked next, so what is known of all lists of answers is known of executions that never end.
-/

namespace MicroJava

/-- How pieces are put together: `visit` goes on behind the piece, `give` leaves the method with it,
`leave` goes on behind the innermost loop. A branch and a loop ask their piece for a truth value. -/
inductive Flow (α : Type) where
  | visit (a : α)
  | give (a : α)
  | leave
  | skip
  | seq (f g : Flow α)
  | branch (a : α) (f g : Flow α)
  | loop (a : α) (f : Flow α)
  deriving DecidableEq, Inhabited

/-- Why the execution of a flow ends: its end is reached, the innermost loop is left, a piece leaves
the method, or there is no answer for a piece that asks for one. -/
inductive Ending (α : Type) where
  | done
  | left
  | gave (a : α)
  | asks (a : α)
  deriving DecidableEq, Inhabited

/-- The same ending with other pieces. -/
def Ending.map {α β : Type} (h : α → β) : Ending α → Ending β
  | done => done
  | left => left
  | gave a => gave (h a)
  | asks a => asks (h a)

@[simp]
theorem Ending.map_eq_done {α β : Type} {h : α → β} {e : Ending α} : e.map h = done ↔ e = done := by
  cases e <;> simp [map]

@[simp]
theorem Ending.map_eq_left {α β : Type} {h : α → β} {e : Ending α} : e.map h = left ↔ e = left := by
  cases e <;> simp [map]

/-- The execution of a flow with some answers: the pieces in the order in which they are visited, how
it ends, and the answers that are left. -/
structure Course (α : Type) (answers : List Bool) where
  visited : List α
  ending : Ending α
  rest : List Bool
  suffix : rest <:+ answers

namespace Course

variable {α β : Type} {answers : List Bool}

/-- The next thing that happens needs no answer. -/
def quiet (visited : List α) (ending : Ending α) (answers : List Bool) : Course α answers :=
  ⟨visited, ending, answers, List.suffix_rfl⟩

/-- A piece is visited and takes an answer. -/
def answered (a : α) (answer : Bool) (answers : List Bool) : Course α (answer :: answers) :=
  ⟨[a], .done, answers, List.suffix_cons answer answers⟩

/-- One execution is followed by another one. -/
def andThen (c : Course α answers) (d : Course α c.rest) : Course α answers :=
  ⟨c.visited ++ d.visited, d.ending, d.rest, d.suffix.trans c.suffix⟩

/-- The second execution is the first one with other pieces. -/
structure Maps {answers' : List Bool} (h : α → β) (c : Course α answers)
    (d : Course β answers') : Prop where
  visited : d.visited = c.visited.map h
  ending : d.ending = c.ending.map h
  rest : d.rest = c.rest

theorem Maps.andThen {h : α → β} {c : Course α answers} {d : Course β answers}
    {c' : Course α c.rest} {d' : Course β d.rest} (hc : c.Maps h d) (hc' : c'.Maps h d') :
    (c.andThen c').Maps h (d.andThen d') :=
  ⟨by simp [Course.andThen, hc.visited, hc'.visited], hc'.ending, hc'.rest⟩

theorem length_rest_le (c : Course α answers) : c.rest.length ≤ answers.length :=
  c.suffix.length_le

end Course

namespace Flow

variable {α β : Type}

/-- The same flow with other pieces. -/
def map (h : α → β) : Flow α → Flow β
  | visit a => visit (h a)
  | give a => give (h a)
  | leave => leave
  | skip => skip
  | seq f g => seq (f.map h) (g.map h)
  | branch a f g => branch (h a) (f.map h) (g.map h)
  | loop a f => loop (h a) (f.map h)

/-- The pieces in the order in which they are written. -/
def pieces : Flow α → List α
  | visit a => [a]
  | give a => [a]
  | leave => []
  | skip => []
  | seq f g => f.pieces ++ g.pieces
  | branch a f g => a :: (f.pieces ++ g.pieces)
  | loop a f => a :: f.pieces

/-- Executes a flow. A loop asks its piece again whenever the end of its body is reached. -/
def run (f : Flow α) (answers : List Bool) : Course α answers :=
  match f, answers with
  | visit a, answers => .quiet [a] .done answers
  | give a, answers => .quiet [a] (.gave a) answers
  | leave, answers => .quiet [] .left answers
  | skip, answers => .quiet [] .done answers
  | seq f g, answers =>
    have := (f.run answers).length_rest_le
    match (f.run answers).ending with
    | .done => (f.run answers).andThen (g.run (f.run answers).rest)
    | _ => f.run answers
  | branch a _ _, [] => .quiet [] (.asks a) []
  | branch a f g, answer :: answers =>
    (Course.answered a answer answers).andThen (if answer then f.run answers else g.run answers)
  | loop a _, [] => .quiet [] (.asks a) []
  | loop a _, false :: answers => .answered a false answers
  | loop a f, true :: answers =>
    have := (f.run answers).length_rest_le
    (Course.answered a true answers).andThen <|
      match (f.run answers).ending with
      | .done => (f.run answers).andThen ((loop a f).run (f.run answers).rest)
      | .left => { f.run answers with ending := .done }
      | _ => f.run answers
termination_by (answers.length, sizeOf f)
decreasing_by all_goals
  simp only [Prod.lex_def, seq.sizeOf_spec, branch.sizeOf_spec, loop.sizeOf_spec,
    List.length_cons, true_and] at *
  omega

section Run

variable {f g : Flow α} {a : α} {answers : List Bool}

theorem run_seq_of_done (h : (f.run answers).ending = .done) :
    (seq f g).run answers = (f.run answers).andThen (g.run (f.run answers).rest) := by
  rw [run, h]

theorem run_seq_of_ne (h : (f.run answers).ending ≠ .done) : (seq f g).run answers = f.run answers := by
  rw [run]
  cases hending : (f.run answers).ending with
  | done => exact absurd hending h
  | _ => rfl

theorem run_branch (answer : Bool) : (branch a f g).run (answer :: answers) =
    (Course.answered a answer answers).andThen (if answer then f.run answers else g.run answers) := by
  rw [run]

/-- The body of a loop was executed, and the loop begins anew. -/
theorem run_loop_of_done (h : (f.run answers).ending = .done) :
    (loop a f).run (true :: answers) = (Course.answered a true answers).andThen
      ((f.run answers).andThen ((loop a f).run (f.run answers).rest)) := by
  rw [run, h]

/-- The body of a loop left the loop. -/
theorem run_loop_of_left (h : (f.run answers).ending = .left) :
    (loop a f).run (true :: answers) =
      (Course.answered a true answers).andThen { f.run answers with ending := .done } := by
  rw [run, h]

theorem run_loop_of_ne (h : (f.run answers).ending ≠ .done) (h' : (f.run answers).ending ≠ .left) :
    (loop a f).run (true :: answers) = (Course.answered a true answers).andThen (f.run answers) := by
  rw [run]
  cases hending : (f.run answers).ending with
  | done => exact absurd hending h
  | left => exact absurd hending h'
  | _ => rfl

/-- What the pieces of a flow are has no influence on how it is executed. -/
theorem maps_run (h : α → β) (f : Flow α) (answers : List Bool) :
    (f.run answers).Maps h ((f.map h).run answers) := by
  induction f generalizing answers with
  | visit a => rw [map, run, run]; exact ⟨rfl, rfl, rfl⟩
  | give a => rw [map, run, run]; exact ⟨rfl, rfl, rfl⟩
  | leave => rw [map, run, run]; exact ⟨rfl, rfl, rfl⟩
  | skip => rw [map, run, run]; exact ⟨rfl, rfl, rfl⟩
  | seq f g ihf ihg =>
      have hf := ihf answers
      rw [map]
      have hiff : ((f.map h).run answers).ending = .done ↔ (f.run answers).ending = .done := by
        rw [hf.ending, Ending.map_eq_done]
      by_cases hdone : (f.run answers).ending = .done
      · rw [run_seq_of_done hdone, run_seq_of_done (hiff.2 hdone)]
        refine hf.andThen ?_
        rw [hf.rest]
        exact ihg _
      · rw [run_seq_of_ne hdone, run_seq_of_ne (mt hiff.1 hdone)]
        exact hf
  | branch a f g ihf ihg =>
      cases answers with
      | nil => rw [map, run, run]; exact ⟨rfl, rfl, rfl⟩
      | cons answer answers =>
          rw [map, run_branch, run_branch]
          refine Course.Maps.andThen ⟨rfl, rfl, rfl⟩ ?_
          cases answer
          · exact ihg answers
          · exact ihf answers
  | loop a f ih =>
      induction hn : answers.length using Nat.strongRecOn generalizing answers with
      | ind n ihn =>
          subst hn
          rcases answers with _ | ⟨_ | _, answers⟩
          · rw [map, run, run]; exact ⟨rfl, rfl, rfl⟩
          · rw [map, run, run]; exact ⟨rfl, rfl, rfl⟩
          · have hf := ih answers
            have hiff : ((f.map h).run answers).ending = .done ↔ (f.run answers).ending = .done := by
              rw [hf.ending, Ending.map_eq_done]
            have hiff' : ((f.map h).run answers).ending = .left ↔ (f.run answers).ending = .left := by
              rw [hf.ending, Ending.map_eq_left]
            have hfirst : (Course.answered a true answers).Maps h (.answered (h a) true answers) :=
              ⟨rfl, rfl, rfl⟩
            rw [map] at ihn ⊢
            by_cases hdone : (f.run answers).ending = .done
            · rw [run_loop_of_done hdone, run_loop_of_done (hiff.2 hdone)]
              refine hfirst.andThen (hf.andThen ?_)
              rw [hf.rest]
              have hle := (f.run answers).length_rest_le
              exact ihn _ (Nat.lt_succ_of_le hle) _ rfl
            · by_cases hleft : (f.run answers).ending = .left
              · rw [run_loop_of_left hleft, run_loop_of_left (hiff'.2 hleft)]
                exact hfirst.andThen ⟨hf.visited, rfl, hf.rest⟩
              · rw [run_loop_of_ne hdone hleft, run_loop_of_ne (mt hiff.1 hdone) (mt hiff'.1 hleft)]
                exact hfirst.andThen hf

end Run

end Flow

namespace Tree

/-- A statement that does something by itself, or a condition. -/
inductive Piece where
  | statement (s : Statement)
  | condition (c : Condition)
  deriving Inhabited

mutual

/-- The flow of a statement. -/
def Statement.flow : Statement → Flow Piece
  | s@(.action ..) | s@(.read ..) | s@(.print ..) => .visit (.statement s)
  | s@(.give ..) => .give (.statement s)
  | .ifThen _ condition _ body => .branch (.condition condition) body.flow .skip
  | .ifThenElse _ condition _ body other => .branch (.condition condition) body.flow other.flow
  | .whileDo _ condition _ body => .loop (.condition condition) body.flow
  | .leave _ => .leave
  | .block statements _ => flowOfStatements statements
  | .empty | .missing | .skipped _ => .skip

/-- The flow of statements one after the other. -/
def flowOfStatements : List Statement → Flow Piece
  | [] => .skip
  | s :: ss => .seq s.flow (flowOfStatements ss)

end

end Tree

end MicroJava
