import MicroJava.Proofs.Emission
import MicroJava.Compile

/-!
# The first fault is always shown

Faults that close together are not all shown, but the first one is: before it only tokens are
passed, and reading does not resume. So there was no fault at all if there are no diagnostics
(`TokenSource.not_faulty`), and without a fault there are none if the tokens themselves were formed
without one (`TokenSource.diagnostics_eq_empty_iff`).
-/

namespace MicroJava

theorem Event.Orderly.of_shift {log : List Event} (h : Event.Orderly (.shift :: log)) :
    Event.Orderly log := by
  intro before after heq
  rcases h (.shift :: before) after (by rw [heq]; rfl) with ⟨m, hm⟩
  exact ⟨m, (List.mem_cons.1 hm).resolve_left Event.noConfusion⟩

namespace Reporter

variable {r : Reporter}

theorem report_foldl (ds : List Diagnostic) : (ds.foldl report r).minDistance = r.minDistance ∧
    (ds.foldl report r).distance = r.distance ∧
    r.diagnostics.toList <+: (ds.foldl report r).diagnostics.toList := by
  induction ds generalizing r with
  | nil => exact ⟨rfl, rfl, List.prefix_rfl⟩
  | cons d ds ih =>
      rcases ih (r := r.report d) with ⟨hmin, hdistance, hprefix⟩
      refine ⟨hmin, hdistance, List.IsPrefix.trans ?_ hprefix⟩
      simp [report]

theorem diagnostics_fault (m : Message) : r.diagnostics.toList <+: (r.fault m).diagnostics.toList := by
  unfold fault
  split
  · simp [resync, report]
  · exact List.prefix_rfl

/-- What is shown stays shown. -/
theorem diagnostics_replay (last : Position) (readings : List Reading) (log : List Event) :
    r.diagnostics.toList <+: (r.replay last readings log).diagnostics.toList := by
  induction log generalizing r readings with
  | nil => simp [replay_nil]
  | cons e log ih =>
      cases e with
      | fault m =>
          rw [replay]
          exact (diagnostics_fault m).trans (ih readings)
      | resync =>
          rw [replay]
          exact ih (r := r.resync) readings
      | shift =>
          cases readings with
          | nil => exact ih (r := r.advance last) []
          | cons reading readings =>
              exact (report_foldl reading.faults).2.2.trans (ih (r := r.fetch reading) readings)

/-- A fault in an orderly log is shown if tokens enough were passed before the log begins. -/
theorem diagnostics_ne_nil {m : Message} {log : List Event} (ho : Event.Orderly log)
    (hm : .fault m ∈ log) (hr : r.minDistance ≤ r.distance) (last : Position)
    (readings : List Reading) : (r.replay last readings log).diagnostics.toList ≠ [] := by
  induction log generalizing r readings with
  | nil => cases hm
  | cons e log ih =>
      cases e with
      | fault m' =>
          rw [replay, fault_of_le hr]
          intro hnil
          have hprefix := diagnostics_replay (r := (r.report ⟨r.position, m'⟩).resync) last readings log
          rw [hnil, List.prefix_nil] at hprefix
          simp [resync, report] at hprefix
      | resync =>
          rcases ho [] log rfl with ⟨_, hmem⟩
          cases hmem
      | shift =>
          have hm' : .fault m ∈ log := (List.mem_cons.1 hm).resolve_left Event.noConfusion
          cases readings with
          | nil => exact ih ho.of_shift hm' (r := r.advance last) (Nat.le_trans hr (distance_le_advance r last)) []
          | cons reading readings =>
              rcases report_foldl (r := r) reading.faults with ⟨hmin, hdistance, -⟩
              refine ih ho.of_shift hm' (r := r.fetch reading) ?_ readings
              calc (r.fetch reading).minDistance
                  = r.minDistance := hmin
                _ ≤ (reading.faults.foldl report r).distance := hdistance ▸ hr
                _ ≤ (r.fetch reading).distance := distance_le_advance _ _

/-- Nothing is shown if there is no fault in the log, and none in the tokens that arrive. -/
theorem diagnostics_replay_eq {log : List Event} (hlog : ∀ m, .fault m ∉ log) (last : Position)
    {readings : List Reading} (hreadings : ∀ reading ∈ readings, reading.faults = []) :
    (r.replay last readings log).diagnostics = r.diagnostics := by
  induction log generalizing r readings with
  | nil => rw [replay_nil]
  | cons e log ih =>
      have hlog' : ∀ m, .fault m ∉ log := fun m hm => hlog m (List.mem_cons_of_mem e hm)
      cases e with
      | fault m => exact absurd List.mem_cons_self (hlog m)
      | resync => exact ih hlog' hreadings (r := r.resync)
      | shift =>
          cases readings with
          | nil => exact ih hlog' hreadings (r := r.advance last)
          | cons reading readings =>
              have hnone : (r.fetch reading).diagnostics = r.diagnostics := by
                rw [fetch, hreadings reading List.mem_cons_self]
                rfl
              rw [replay, ih hlog' fun reading' h => hreadings reading' (List.mem_cons_of_mem reading h), hnone]

end Reporter

/-- There was no fault if there are no diagnostics. -/
theorem TokenSource.not_faulty {source : TokenSource} {minDistance : Nat} {s : Compiler}
    (ho : Event.Orderly s.log.toList) (h : source.diagnostics minDistance s.log = #[]) :
    ¬ s.Faulty := by
  rintro ⟨m, hm⟩
  refine Reporter.diagnostics_ne_nil ho hm (r := Reporter.start minDistance) (Nat.le_refl _) source.last
    source.readings ?_
  rw [TokenSource.diagnostics] at h
  rw [h]

/-- If nothing is wrong with the tokens themselves, there are diagnostics just when there was a fault. -/
theorem TokenSource.diagnostics_eq_empty_iff {source : TokenSource} {minDistance : Nat} {s : Compiler}
    (hsource : source.faults = []) (ho : Event.Orderly s.log.toList) :
    source.diagnostics minDistance s.log = #[] ↔ ¬ s.Faulty := by
  refine ⟨not_faulty ho, fun hclean => ?_⟩
  rw [TokenSource.diagnostics, Reporter.diagnostics_replay_eq (fun m hm => hclean ⟨m, hm⟩) source.last
    (List.flatMap_eq_nil_iff.1 hsource)]
  rfl

end MicroJava
