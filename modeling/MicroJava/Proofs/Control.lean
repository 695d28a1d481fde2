import MicroJava.Proofs.Runs
import MicroJava.Tree.Flow

/-!
# Control in the code of a method

`Control.step` follows the code instruction by instruction and notes which pieces of the source it
comes by. The address at which the code of a piece begins tells the piece. A whole condition is one
step: it takes an answer, and control goes on at one of two addresses. Everything else goes on behind
an instruction or where a jump leads to, whatever is on the stack.

`Tracks code sites f a b behind` says that the code from `a` on does what the flow `f` does: whatever
the answers are, control comes by the same pieces in the same order. If the end of the flow is
reached, control is at `b`, and if the innermost loop is left, at `behind`. There is one lemma for
each way to put flows together, and the one for loops is by induction on the answers that are left.
-/

namespace MicroJava

/-- Where the code of a piece stands. The code of a statement ends at `stop`; behind a condition
control goes on at `whenTrue` or `whenFalse`. -/
inductive Site where
  | statement (s : Tree.Statement) (start stop : Nat)
  | condition (c : Tree.Condition) (start whenTrue whenFalse : Nat)

namespace Site

/-- The piece whose code stands there. -/
def piece : Site → Tree.Piece
  | statement s _ _ => .statement s
  | condition c _ _ _ => .condition c

/-- The address of the first instruction. -/
def start : Site → Nat
  | statement _ start _ => start
  | condition _ start _ _ => start

/-- The address behind the last instruction. The code of a condition ends where control goes on if it
holds. -/
def stop : Site → Nat
  | statement _ _ stop => stop
  | condition _ _ whenTrue _ => whenTrue

/-- The piece whose code begins at an address. -/
def at? (sites : List Site) (pc : Nat) : Option Site :=
  sites.find? fun x => x.start = pc

end Site

/-- Where control goes on after an instruction that does not look at the stack. A call comes back. -/
def Instruction.onward? (i : Instruction) : Option Nat :=
  if i.op = .jmp then i.target?.bind Int.toNat?
  else if i.op.fallsThrough && !i.op.isJump then some (i.pc + i.op.size)
  else none

theorem Instruction.onward?_of_fallsThrough {i : Instruction} (h : i.op.fallsThrough = true)
    (hjump : i.op.isJump = false) : i.onward? = some (i.pc + i.op.size) := by
  have hjmp : i.op ≠ .jmp := by
    intro heq
    rw [heq] at h
    cases h
  rw [onward?, if_neg hjmp, if_pos (by simp [h, hjump])]

/-- A jump leads to its target. -/
theorem Instruction.onward?_of_jmp {i : Instruction} {b : Nat} (hop : i.op = .jmp)
    (htarget : i.target? = some (b : Int)) : i.onward? = some b := by
  rw [onward?, if_pos hop, htarget]
  rfl

/-- An address that is reached, the answers that are left, and the pieces that control came by. -/
structure Control where
  pc : Nat
  answers : List Bool
  visited : List Site

namespace Control

variable (code : List Instruction) (sites : List Site)

/-- The address behind the instruction at an address, if control goes on there. -/
def next? (pc : Nat) : Option Nat :=
  (code.find? fun i => i.pc = pc).bind Instruction.onward?

/-- A step of control through code in which the given pieces stand. There is none from a condition
without an answer and none where a method is left. -/
def step (c : Control) : Option Control :=
  match Site.at? sites c.pc, c.answers with
  | some x@(.condition _ _ whenTrue whenFalse), answer :: answers =>
    some ⟨if answer then whenTrue else whenFalse, answers, c.visited ++ [x]⟩
  | some (.condition ..), [] => none
  | some x, _ => (next? code c.pc).map fun pc => ⟨pc, c.answers, c.visited ++ [x]⟩
  | none, _ => (next? code c.pc).map fun pc => ⟨pc, c.answers, c.visited⟩

/-- Control leads from one place to another one. -/
abbrev Reaches : Control → Control → Prop :=
  Relation.ReflTransGen fun c c' => c.step code sites = some c'

end Control

/-- The method is left: a return stands at `pc` and `exit` before it, and no piece begins there. -/
structure Leaves (code : List Instruction) (sites : List Site) (pc : Nat) : Prop where
  exit : ∃ a, code.find? (fun i => i.pc = a) = some ⟨a, .exit, []⟩ ∧ pc = a + Opcode.exit.size
  ret : code.find? (fun i => i.pc = pc) = some ⟨pc, .ret, []⟩
  unmarked : Site.at? sites pc = none

/-- Where control is when a flow ends whose end is at `b`. -/
def Ending.At (code : List Instruction) (sites : List Site) (b : Nat) (behind : Option Nat) :
    Ending Site → Control → Prop
  | done, c => c.pc = b
  | left, c => behind = some c.pc
  | gave x, c => (∃ s start, x = .statement s start (c.pc + Opcode.ret.size)) ∧ Leaves code sites c.pc
  | asks x, c => c.pc = x.start ∧ c.step code sites = none

/-- Control has done what an execution of a flow does, after it had come by the pieces `visited`. -/
structure Arrives (code : List Instruction) (sites : List Site) (b : Nat) (behind : Option Nat)
    (visited : List Site) {answers : List Bool} (d : Course Site answers) (c : Control) : Prop where
  answers : c.answers = d.rest
  visited : c.visited = visited ++ d.visited
  ending : d.ending.At code sites b behind c

/-- The code from `a` on does what the flow `f` does. -/
def Tracks (code : List Instruction) (sites : List Site) (f : Flow Site) (a b : Nat)
    (behind : Option Nat) : Prop :=
  ∀ answers visited, ∃ c : Control, Control.Reaches code sites ⟨a, answers, visited⟩ c ∧
    Arrives code sites b behind visited (f.run answers) c

section

variable {code : List Instruction} {sites : List Site} {a b : Nat} {behind behind' : Option Nat}
  {visited visited' : List Site} {answers : List Bool} {c c' : Control} {x : Site}

/-- If the end is not reached, it may be anywhere. -/
theorem Ending.At.of_ne_done {e : Ending Site} (h : e.At code sites a behind c) (he : e ≠ .done) :
    e.At code sites b behind c := by
  cases e with
  | done => exact absurd rfl he
  | _ => exact h

/-- If the innermost loop is not left either, it may end anywhere. -/
theorem Ending.At.of_ne_left {e : Ending Site} (h : e.At code sites a behind c) (he : e ≠ .done)
    (he' : e ≠ .left) : e.At code sites b behind' c := by
  cases e with
  | done => exact absurd rfl he
  | left => exact absurd rfl he'
  | _ => exact h

/-- What is done behind an execution is done behind what it has visited. -/
theorem Arrives.andThen {d : Course Site answers} {d' : Course Site d.rest}
    (h : Arrives code sites b behind (visited ++ d.visited) d' c) :
    Arrives code sites b behind visited (d.andThen d') c :=
  ⟨h.answers, by rw [h.visited, List.append_assoc]; rfl, h.ending⟩

/-! ### Single steps -/

namespace Control

/-- A condition takes an answer. -/
theorem step_condition {cond : Tree.Condition} {start whenTrue whenFalse : Nat}
    (h : Site.at? sites a = some (.condition cond start whenTrue whenFalse))
    (answer : Bool) : step code sites ⟨a, answer :: answers, visited⟩ =
      some ⟨if answer then whenTrue else whenFalse, answers,
        visited ++ [.condition cond start whenTrue whenFalse]⟩ := by
  simp only [step, h]

/-- Without an answer there is no step from a condition. -/
theorem step_condition_nil {cond : Tree.Condition} {start whenTrue whenFalse : Nat}
    (h : Site.at? sites a = some (.condition cond start whenTrue whenFalse)) :
    step code sites ⟨a, [], visited⟩ = none := by
  simp only [step, h]

/-- At the first instruction of a statement control comes by the statement. -/
theorem step_statement {st : Tree.Statement} {start stop : Nat}
    (h : Site.at? sites a = some (.statement st start stop))
    (hnext : next? code a = some b) : step code sites ⟨a, answers, visited⟩ =
      some ⟨b, answers, visited ++ [.statement st start stop]⟩ := by
  simp only [step, h, hnext, Option.map_some]

theorem step_unmarked (h : Site.at? sites a = none)
    (hnext : next? code a = some b) :
    step code sites ⟨a, answers, visited⟩ = some ⟨b, answers, visited⟩ := by
  simp only [step, h, hnext, Option.map_some]

end Control

/-- There is no step from where a method is left. -/
theorem Leaves.step_eq_none (h : Leaves code sites c.pc) : c.step code sites = none := by
  have hnext : Control.next? code c.pc = none := by
    rw [Control.next?, h.ret]
    rfl
  simp only [Control.step, h.unmarked, hnext, Option.map_none]

end

/-! ### Flows -/

namespace Tracks

variable {code : List Instruction} {sites : List Site} {f g : Flow Site} {a b c : Nat}
  {behind : Option Nat}

theorem skip : Tracks code sites .skip a a behind := by
  intro answers visited
  rw [Flow.run]
  exact ⟨_, .refl, rfl, (List.append_nil visited).symm, rfl⟩

theorem seq (hf : Tracks code sites f a b behind) (hg : Tracks code sites g b c behind) :
    Tracks code sites (.seq f g) a c behind := by
  intro answers visited
  obtain ⟨⟨pc, _, _⟩, hreaches, ⟨rfl, rfl, hat⟩⟩ := hf answers visited
  by_cases hdone : (f.run answers).ending = .done
  · rw [hdone] at hat
    obtain rfl : pc = b := hat
    obtain ⟨c', hreaches', harrives⟩ := hg (f.run answers).rest (visited ++ (f.run answers).visited)
    rw [Flow.run_seq_of_done hdone]
    exact ⟨c', hreaches.trans hreaches', harrives.andThen⟩
  · rw [Flow.run_seq_of_ne hdone]
    exact ⟨_, hreaches, rfl, rfl, hat.of_ne_done hdone⟩

/-- Behind the end of a flow control may jump. -/
theorem jump (hf : Tracks code sites f a b behind)
    (hunmarked : Site.at? sites b = none)
    (hnext : Control.next? code b = some c) : Tracks code sites f a c behind := by
  intro answers visited
  obtain ⟨⟨pc, _, _⟩, hreaches, ⟨rfl, rfl, hat⟩⟩ := hf answers visited
  by_cases hdone : (f.run answers).ending = .done
  · rw [hdone] at hat
    obtain rfl : pc = b := hat
    exact ⟨_, hreaches.tail (Control.step_unmarked hunmarked hnext), rfl, rfl, hdone ▸ rfl⟩
  · exact ⟨_, hreaches, rfl, rfl, hat.of_ne_done hdone⟩

theorem leave (hunmarked : Site.at? sites a = none)
    (hnext : Control.next? code a = some c) : Tracks code sites .leave a b (some c) := by
  intro answers visited
  rw [Flow.run]
  exact ⟨_, .single (Control.step_unmarked hunmarked hnext), rfl, (List.append_nil visited).symm, rfl⟩

theorem branch {cond : Tree.Condition} {start whenTrue whenFalse : Nat}
    (hsite : Site.at? sites a = some (.condition cond start whenTrue whenFalse))
    (hstart : start = a) (hf : Tracks code sites f whenTrue b behind)
    (hg : Tracks code sites g whenFalse b behind) :
    Tracks code sites (.branch (.condition cond start whenTrue whenFalse) f g) a b behind := by
  intro answers visited
  cases answers with
  | nil =>
      rw [Flow.run]
      exact ⟨_, .refl, rfl, (List.append_nil visited).symm, hstart.symm,
        Control.step_condition_nil hsite⟩
  | cons answer answers =>
      rw [Flow.run_branch]
      have hstep : Control.step code sites ⟨a, answer :: answers, visited⟩ = _ :=
        Control.step_condition hsite answer
      cases answer with
      | false =>
          obtain ⟨c, hreaches, harrives⟩ := hg answers (visited ++ [_])
          exact ⟨c, .head hstep hreaches, harrives.andThen⟩
      | true =>
          obtain ⟨c, hreaches, harrives⟩ := hf answers (visited ++ [_])
          exact ⟨c, .head hstep hreaches, harrives.andThen⟩

/-- The body of a loop goes back to the condition, and behind the loop if it leaves it. -/
theorem loop {cond : Tree.Condition} {start whenTrue : Nat}
    (hsite : Site.at? sites a = some (.condition cond start whenTrue b))
    (hstart : start = a) (hf : Tracks code sites f whenTrue a (some b)) :
    Tracks code sites (.loop (.condition cond start whenTrue b) f) a b behind := by
  intro answers
  induction hn : answers.length using Nat.strongRecOn generalizing answers with
  | ind n ih =>
      subst hn
      intro visited
      rcases answers with _ | ⟨answer, answers⟩
      · rw [Flow.run]
        exact ⟨_, .refl, rfl, (List.append_nil visited).symm, hstart.symm,
          Control.step_condition_nil hsite⟩
      · have hstep : Control.step code sites ⟨a, answer :: answers, visited⟩ = _ :=
          Control.step_condition hsite answer
        cases answer with
        | false =>
            rw [Flow.run]
            exact ⟨_, .single hstep, rfl, rfl, rfl⟩
        | true =>
            obtain ⟨⟨pc, _, _⟩, hreaches, ⟨rfl, rfl, hat⟩⟩ := hf answers (visited ++ [_])
            have hbody : Control.Reaches code sites _ _ := .head hstep hreaches
            have hle := (f.run answers).length_rest_le
            by_cases hdone : (f.run answers).ending = .done
            · -- the condition is asked again, and fewer answers are left
              rw [hdone] at hat
              obtain rfl : pc = a := hat
              obtain ⟨c, hreaches', harrives⟩ := ih _ (Nat.lt_succ_of_le hle) _ rfl
                (visited ++ [_] ++ (f.run answers).visited)
              rw [Flow.run_loop_of_done hdone]
              exact ⟨c, hbody.trans hreaches', harrives.andThen.andThen⟩
            · by_cases hleft : (f.run answers).ending = .left
              · rw [hleft] at hat
                rw [Flow.run_loop_of_left hleft]
                exact ⟨_, hbody, rfl, List.append_assoc _ _ _, (Option.some.inj hat).symm⟩
              · rw [Flow.run_loop_of_ne hdone hleft]
                exact ⟨_, hbody, rfl, List.append_assoc _ _ _, hat.of_ne_left hdone hleft⟩

end Tracks

end MicroJava
