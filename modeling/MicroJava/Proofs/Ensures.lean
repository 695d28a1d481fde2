import MicroJava.Compiler.Program

/-!
# What a step of a compilation ensures

`Ensures x s Q` says that the step `x`, taken in the state `s`, ends with a value and a state that
`Q` holds of. Steps always end, so this is total correctness. A sequence of steps is taken apart by
`Ensures.bind`, which names the value and the state after the first step and forgets all of them but
what the first step ensures.

The lemmas about single steps at the end are equations: each replaces a step by its effect on the
state. They are used where the effect itself is wanted and not a property of it.
-/

namespace MicroJava.Compiler

variable {α β : Type} {s : Compiler}

/-- The step `x` in the state `s` ends with a value and a state that `Q` holds of. -/
def Ensures (x : CompilerM α) (s : Compiler) (Q : α → Compiler → Prop) : Prop :=
  Q (x s).1 (x s).2

namespace Ensures

variable {x : CompilerM α} {f : α → CompilerM β} {P : α → Compiler → Prop}
  {Q : β → Compiler → Prop}

theorem pure {a : α} (h : P a s) : Ensures (Pure.pure a) s P := h

/-- After the first step nothing is known but what it ensures. -/
theorem bind (hx : Ensures x s P) (hf : ∀ a s', P a s' → Ensures (f a) s' Q) :
    Ensures (x >>= f) s Q :=
  hf _ _ hx

/-- Nothing has to be known of the first step. -/
theorem step (hf : ∀ a s', Ensures (f a) s' Q) : Ensures (x >>= f) s Q :=
  hf _ _

theorem mono {P' : α → Compiler → Prop} (hx : Ensures x s P) (h : ∀ a s', P a s' → P' a s') :
    Ensures x s P' :=
  h _ _ hx

theorem and {P' : α → Compiler → Prop} (hx : Ensures x s P) (hx' : Ensures x s P') :
    Ensures x s fun a s' => P a s' ∧ P' a s' :=
  ⟨hx, hx'⟩

/-- What holds of every run of a step may be used for what comes after it. -/
theorem of_forall (h : ∀ a s', x s = (a, s') → P a s') : Ensures x s P :=
  h _ _ rfl

/-- Reading the state gives the state and leaves it as it is. -/
theorem get_bind {f : Compiler → CompilerM β} (h : Ensures (f s) s Q) :
    Ensures (MonadState.get >>= f) s Q :=
  h

theorem modify {f : Compiler → Compiler} {P : PUnit → Compiler → Prop} (h : P ⟨⟩ (f s)) :
    Ensures (modify f) s P :=
  h

/-- A property of states that every element of a list keeps is kept by all of them, one after the
other. -/
theorem forM {γ : Type} {R : Compiler → Prop} {g : γ → CompilerM PUnit} {l : List γ}
    (hg : ∀ c ∈ l, ∀ s, R s → Ensures (g c) s fun _ s' => R s') (h : R s) :
    Ensures (l.forM g) s fun _ s' => R s' := by
  induction l generalizing s with
  | nil => exact h
  | cons c l ih =>
      change Ensures (g c >>= fun _ => l.forM g) s _
      refine bind (hg c List.mem_cons_self s h) fun _ s' h' => ?_
      exact ih (fun d hd => hg d (List.mem_cons_of_mem c hd)) h'

end Ensures

end MicroJava.Compiler
