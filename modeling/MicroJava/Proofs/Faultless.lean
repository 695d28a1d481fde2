import MicroJava.Proofs.Gaps
import MicroJava.Proofs.Members

/-!
# Methods without faults of their own

No step of a compilation looks at the log. So a method is compiled to the same body whatever faults
were logged before it, and what is known of a method in a compilation without faults is known of
every method that is compiled without a fault of its own (`MethodDecl.adds_unlogged`).
-/

namespace MicroJava

open Compiler

/-- The message of a fault. -/
def Event.fault? : Event → Option Message
  | fault m => some m
  | _ => none

variable {s s' : Compiler}

instance Compiler.decidableFaulty (s : Compiler) : Decidable s.Faulty :=
  decidable_of_iff (∃ e ∈ s.log.toList, e.fault?.isSome = true) <| by
    constructor
    · rintro ⟨e, he, hfault⟩
      cases e with
      | fault m => exact ⟨m, he⟩
      | _ => cases hfault
    · rintro ⟨m, hm⟩
      exact ⟨_, hm, rfl⟩

/-- The state without its log is as good as the state. -/
theorem Compiler.Sound.relog (h : s.Sound) (log : Array Event) : Sound { s with log } :=
  ⟨h.table, h.stray, h.assembles⟩

namespace Tree

/-- No fault is logged while the method is compiled in the state `s`. It counts as a fault also if it
is not reported because it is too close to the one before it. -/
def MethodDecl.Faultless (d : MethodDecl) (s : Compiler) : Prop :=
  ∀ m, .fault m ∉ (d.compile s).2.log.toList.drop s.log.size

/-- The state of a compilation after the first `n` methods of a program. -/
def Program.after (p : Program) (n : Nat) : Compiler :=
  ((p.compileHead >>= fun _ => (p.members.take n).forM Member.compile).run .initial).2

instance MethodDecl.decidableFaultless (d : MethodDecl) (s : Compiler) : Decidable (d.Faultless s) :=
  decidable_of_iff (∀ e ∈ (d.compile s).2.log.toList.drop s.log.size, e.fault? = none) <| by
    constructor
    · intro h m hm
      exact Option.some_ne_none m (h _ hm)
    · intro h e he
      cases e with
      | fault m => exact absurd he (h m)
      | _ => rfl

variable {d : MethodDecl} {b : Body} {log log' : Array Event}

/-- The body that a method adds does not depend on what was logged before. -/
theorem Adds.of_unlogged (h : Adds d { s with log } b { s' with log := log' }) (hlogs : s.Logs s')
    (hfaulty : Faulty { s' with log := log' } → s'.Faulty) : Adds d s b s' :=
  have hclean : ¬ s'.Faulty → ¬ Faulty { s' with log := log' } := mt hfaulty
  { h with
    sound := h.sound.relog s'.log
    log := hlogs
    near := fun hs => h.near (hclean hs)
    fresh := fun hs => h.fresh (hclean hs)
    void := fun hs => h.void (hclean hs)
    main := fun hs => h.main (hclean hs)
    small := fun hs => h.small (hclean hs)
    run := h.run.imp fun _ ⟨ht, hin, hsize, hsymbol, hw, hrun⟩ =>
      ⟨ht, hin, hsize, hsymbol, hw, fun hs => hfaulty (hrun hs)⟩ }

/-- A method adds the body that it adds to the state without its log. Its own faults are all that is
logged there. -/
theorem MethodDecl.adds_unlogged (hs : s.Sound) (d : MethodDecl) :
    Ensures d.compile s fun _ s' => ∃ b log, Adds d s b s' ∧
      Adds d { s with log := #[] } b { s' with log } ∧
      (d.Faultless s → ¬ Faulty { s' with log }) := by
  obtain ⟨new, hnew, -⟩ := d.notes_compile s
  have hlog : (d.compile s).2.log = s.log ++ new := congrArg (fun r => r.2.log) (hnew s.log)
  obtain ⟨b, h⟩ := d.adds_compile (hs.relog #[])
  obtain ⟨_, hlogged⟩ := d.adds_compile hs
  rw [hnew] at h
  refine ⟨b, #[] ++ new, h.of_unlogged hlogged.log ?_, h, ?_⟩
  · rintro ⟨m, hm⟩
    exact ⟨m, by simpa [hlog] using .inr (by simpa using hm)⟩
  · rintro hclean ⟨m, hm⟩
    exact hclean m (by simpa [hlog] using hm)

/-- The state in which a member of a program is compiled. -/
theorem Program.after_eq (p : Program) {before after : List Member} (h : p.members = before ++ after) :
    p.after before.length = (before.forM Member.compile (p.compileHead .initial).2).2 := by
  rw [Program.after, h, List.take_left]
  rfl

/-- If a program was compiled without a fault, there was none up to the end of any of its methods. -/
theorem MethodDecl.not_faulty_compile {p : Program} {before after : List Member}
    (h : p.members = before ++ .method d :: after) (hclean : ¬ (p.compile .initial).2.Faulty) :
    ¬ (d.compile (p.after before.length)).2.Faulty := by
  let id := (p.compileHead .initial).1
  have hcompile : (p.compile .initial).2 =
      ((after.forM Member.compile >>= fun _ => p.compileTail id)
        (d.compile (p.after before.length)).2).2 := by
    rw [p.after_eq h, Program.compile, h, List.forM_eq_forM, List.forM_append]
    rfl
  have hnotes := (Notes.forM fun m (_ : m ∈ after) => m.notes_compile).bind fun _ => p.notes_compileTail id
  obtain ⟨new, hnew, -⟩ := hnotes.exists_log (d.compile (p.after before.length)).2
  rintro ⟨m, hm⟩
  refine hclean ⟨m, ?_⟩
  rw [hcompile, hnew]
  exact List.mem_append_left _ hm

/-- If a program was compiled without a fault, so was each of its methods. -/
theorem MethodDecl.faultless {p : Program} {before after : List Member}
    (h : p.members = before ++ .method d :: after) (hclean : ¬ (p.compile .initial).2.Faulty) :
    d.Faultless (p.after before.length) :=
  fun m hm => not_faulty_compile h hclean ⟨m, List.mem_of_mem_drop hm⟩

end Tree

end MicroJava
