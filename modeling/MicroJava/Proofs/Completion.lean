import MicroJava.Proofs.Programs

/-!
# Every source yields an image

Whatever the tokens of a source are, compiling it refers to nothing that is not there, places no
label twice, and has no jump waiting for its label when a method ends. So the code can always be
made an image (`TokenSource.compile_completes`).
-/

namespace MicroJava

open MicroJava.Tree

namespace Emitter

/-- No jump waits for a label if all labels have a place. -/
theorem pendingJumps_eq_zero {e : Emitter} (h : ∀ l, l < e.labels.size → e.address? l ≠ none) :
    e.pendingJumps = 0 := by
  have hwaiting : ∀ s ∈ e.labels.toList, s.waiting = 0 := by
    intro s hs
    rcases List.getElem_of_mem hs with ⟨l, hl, rfl⟩
    have hlabel : e.label l = e.labels.toList[l] := by
      rw [label, Array.getElem?_eq_getElem hl, Option.getD_some]
      rfl
    rcases Option.ne_none_iff_exists'.1 (h l hl) with ⟨a, ha⟩
    rw [← hlabel, address?_eq_some.1 ha]
    rfl
  rw [pendingJumps, ← Array.foldl_toList]
  generalize e.labels.toList = ls at hwaiting
  induction ls with
  | nil => rfl
  | cons s ls ih =>
      rw [List.foldl_cons, hwaiting s List.mem_cons_self]
      exact ih fun s' hs' => hwaiting s' (List.mem_cons_of_mem s hs')

/-- Code whose labels all have one place can be made an image. -/
theorem toImage_eq_ok {e : Emitter} {is : List Item} (h : e.Assembles is)
    (hsettled : ∀ l, l < e.labels.size → e.address? l ≠ none) :
    e.toImage = .ok { dataSize := Int32.ofNat e.dataSize
                      entry := (e.entry.map Int32.ofNat).getD (-1)
                      code := e.code } := by
  rw [toImage, h.clash, pendingJumps_eq_zero hsettled]
  rfl

end Emitter

namespace TokenSource

/-- What compiling a source yields, in terms of the state at its end. -/
theorem compile_eq_ok (source : TokenSource) (minDistance : Nat) : source.compile minDistance = .ok
    { image := { dataSize := Int32.ofNat source.compiler.code.dataSize
                 entry := (source.compiler.code.entry.map Int32.ofNat).getD (-1)
                 code := source.compiler.code.code }
      diagnostics := source.diagnostics minDistance source.compiler.log
      debug := source.compiler.debug
      table := source.compiler.table } := by
  rcases source.compiled_compiler with ⟨bs, h, -⟩
  rw [compile, Emitter.toImage_eq_ok h.sound.assembles h.settled]
  rfl

/-- Whatever the tokens are and however far apart diagnostics must be, compiling ends with an image.
Nothing is referred to that is not there, no label is placed twice, and after each method no jump
waits for its label. -/
theorem compile_completes (source : TokenSource) (minDistance : Nat) :
    source.compiler.stray = none ∧ source.compiler.code.clash = none ∧
      (∀ n, ((Program.read source.tokens).after n).code.pendingJumps = 0) ∧
      ∃ c, source.compile minDistance = .ok c := by
  rcases source.compiled_compiler with ⟨bs, h, -⟩
  refine ⟨h.sound.stray, h.sound.assembles.clash, fun n => ?_, ?_⟩
  · have hafter : Compiler.Ensures ((Program.read source.tokens).compileHead >>= fun _ =>
        ((Program.read source.tokens).members.take n).forM Member.compile) .initial
        fun _ s => s.code.pendingJumps = 0 := by
      refine (Program.between_compileHead _).bind fun id s ⟨hs, _⟩ => ?_
      exact (between_compileMembers hs _).mono fun _ s' ⟨_, bs', hs'⟩ =>
        Emitter.pendingJumps_eq_zero hs'.settled
    exact hafter
  · exact ⟨_, source.compile_eq_ok minDistance⟩

end TokenSource

end MicroJava
