import MicroJava.Proofs.Completeness
import MicroJava.Proofs.Completion
import MicroJava.Proofs.Gaps

/-!
# Faults of the grammar are found exactly

With distance zero asked for, every fault of the log becomes a diagnostic. So a list of tokens has a
diagnostic of the grammar if and only if it is no program of the grammar, and faults on names and
types have no influence on that (`TokenSource.compile_accepts`).
-/

namespace MicroJava

open MicroJava.Tree Grammar

namespace Reporter

variable {last : Position} {readings : List Reading} {log : List Event} {r : Reporter}

/-- With distance zero asked for, the messages shown are those of the log in their order, if forming
the tokens adds none. -/
theorem messages_replay (hr : r.minDistance = 0)
    (hreadings : ∀ reading ∈ readings, reading.faults = []) :
    (r.replay last readings log).diagnostics.toList.map Diagnostic.message =
      r.diagnostics.toList.map Diagnostic.message ++ log.filterMap Event.fault? := by
  induction log generalizing r readings with
  | nil => simp
  | cons e log ih =>
      cases e with
      | fault m =>
          rw [replay, ih (by rw [fault_of_minDistance_eq_zero hr]; exact hr) hreadings,
            fault_of_minDistance_eq_zero hr]
          simp [report, resync, Event.fault?]
      | resync => exact ih (r := r.resync) hr hreadings
      | shift =>
          cases readings with
          | nil => exact ih (r := r.advance last) hr hreadings
          | cons reading readings =>
              have hquiet : r.fetch reading = r.advance reading.token.position := by
                rw [fetch, hreadings reading List.mem_cons_self, List.foldl_nil]
              rw [replay, hquiet]
              exact ih (r := r.advance reading.token.position) hr
                fun reading' h => hreadings reading' (List.mem_cons_of_mem reading h)

theorem exists_message_replay (hr : r.minDistance = 0)
    (hreadings : ∀ reading ∈ readings, reading.faults = []) {m : Message} :
    (∃ d ∈ (r.replay last readings log).diagnostics, d.message = m) ↔
      (∃ d ∈ r.diagnostics, d.message = m) ∨ .fault m ∈ log := by
  have hfault : (∃ e ∈ log, e.fault? = some m) ↔ .fault m ∈ log := by
    refine ⟨fun ⟨e, he, hm⟩ => ?_, fun h => ⟨_, h, rfl⟩⟩
    cases e <;> cases hm
    exact he
  have hmessages : (r.replay last readings log).diagnostics.toList.map Diagnostic.message = _ :=
    messages_replay hr hreadings
  simpa [hfault] using congrArg (m ∈ ·) hmessages

end Reporter

namespace TokenSource

theorem tokens_ofTokens (ts : List Token) :
    (ofTokens ts).tokens = ts.takeWhile (·.kind ≠ .eof) := by
  rw [tokens, ofTokens, List.map_map]
  exact congrArg _ (List.map_id ts)

/-- A fault of the grammar is logged if and only if the tokens are no program of the grammar. -/
theorem exists_grammatical_iff (source : TokenSource) :
    (∃ m, m.isGrammatical ∧ .fault m ∈ source.compiler.log) ↔
      ¬ Derives (.rule .program) source.tokens := by
  obtain ⟨new, hlog, hintact, -⟩ := (Program.read source.tokens).notes_compile.exists_log .initial
  have hnew : source.compiler.log.toList = new := hlog
  have hderives : Derives (.rule .program) source.tokens ↔
      ∀ m, .fault m ∈ new → m.isGrammatical = false :=
    ⟨fun h => hintact.1 (intact_of_derives h), fun h => derives_of_intact (hintact.2 h)⟩
  rw [hderives, ← hnew]
  simp [and_comm]

/-- A list of tokens is compiled with a diagnostic of the grammar, all of them being asked for, if
and only if the tokens before the first `eof` are no program of the grammar. -/
theorem compile_accepts (ts : List Token) : ∃ c, (ofTokens ts).compile 0 = .ok c ∧
    ((∃ d ∈ c.diagnostics, d.message.isGrammatical) ↔
      ¬ Derives (.rule .program) (ts.takeWhile (·.kind ≠ .eof))) := by
  refine ⟨_, compile_eq_ok _ _, ?_⟩
  rw [← tokens_ofTokens, ← exists_grammatical_iff]
  have hshown : ∀ m, (∃ d ∈ (ofTokens ts).diagnostics 0 (ofTokens ts).compiler.log,
      d.message = m) ↔ .fault m ∈ (ofTokens ts).compiler.log := by
    intro m
    rw [diagnostics, Reporter.exists_message_replay rfl (by simp [ofTokens])]
    simp [Reporter.start]
  constructor
  · rintro ⟨d, hd, hm⟩
    exact ⟨d.message, hm, (hshown d.message).1 ⟨d, hd, rfl⟩⟩
  · rintro ⟨m, hm, hlog⟩
    obtain ⟨d, hd, rfl⟩ := (hshown m).2 hlog
    exact ⟨d, hd, hm⟩

end TokenSource

end MicroJava
