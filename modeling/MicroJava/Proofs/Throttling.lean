import MicroJava.Proofs.Completion
import MicroJava.Proofs.Gaps
import MicroJava.Proofs.Reports

/-!
# The distance between diagnostics only thins them out

Two reporters go through the same log, and the second one asks for a distance at least as large. Up
to the first fault they show the same, and both are going to show that fault (`Reporter.Agree`). From
then on they count the same distance, so whatever the second one shows the first one shows as well
(`Reporter.Abreast`).

Hence the distance has no influence on whether there are diagnostics, nor on the first one that does
not come from forming tokens (`TokenSource.compile_thins`).
-/

namespace MicroJava

open MicroJava.Tree

/-- The first diagnostic that does not concern the forming of tokens. -/
def firstFault? (ds : Array Diagnostic) : Option Diagnostic :=
  ds.find? fun d => !d.message.isLexical

theorem firstFault?_push {ds : Array Diagnostic} (h : (firstFault? ds).isSome) (d : Diagnostic) :
    firstFault? (ds.push d) = firstFault? ds := by
  obtain ⟨d', hd'⟩ := Option.isSome_iff_exists.1 h
  rw [firstFault?] at hd'
  rw [firstFault?, firstFault?, Array.find?_push, hd', Option.some_or]

theorem isSome_firstFault?_push (ds : Array Diagnostic) {d : Diagnostic}
    (hd : d.message.isLexical = false) : (firstFault? (ds.push d)).isSome := by
  simp [firstFault?, Array.find?_push, hd]

namespace Reporter

variable {r r' : Reporter}

/-- No fault was met yet. Both reporters have shown the same, and both will show the first fault. -/
structure Agree (r r' : Reporter) : Prop where
  le : r.minDistance ≤ r'.minDistance
  position : r'.position = r.position
  diagnostics : r'.diagnostics = r.diagnostics
  shows : r.minDistance ≤ r.distance
  shows' : r'.minDistance ≤ r'.distance

/-- A fault was met, which both reporters have shown. They count the same distance since the last
one, and the second reporter, which asks for a larger one, has shown a part of what the first one
has. -/
structure Abreast (r r' : Reporter) : Prop where
  le : r.minDistance ≤ r'.minDistance
  position : r'.position = r.position
  distance : r'.distance = r.distance
  sublist : r'.diagnostics.toList.Sublist r.diagnostics.toList
  first : firstFault? r'.diagnostics = firstFault? r.diagnostics
  isSome : (firstFault? r.diagnostics).isSome

/-- A relation that is kept when a diagnostic is shown is kept when several are. -/
theorem foldl_report {R : Reporter → Reporter → Prop}
    (hR : ∀ r r' d, R r r' → R (r.report d) (r'.report d)) (ds : List Diagnostic) (h : R r r') :
    R (ds.foldl report r) (ds.foldl report r') := by
  induction ds generalizing r r' with
  | nil => exact h
  | cons d ds ih => exact ih (hR r r' d h)

namespace Abreast

theorem report (h : r.Abreast r') (d : Diagnostic) : (r.report d).Abreast (r'.report d) where
  le := h.le
  position := h.position
  distance := h.distance
  sublist := by
    simp only [Reporter.report, Array.toList_push]
    exact h.sublist.append (List.Sublist.refl [d])
  first := by
    simp only [Reporter.report]
    rw [firstFault?_push h.isSome, firstFault?_push (h.first ▸ h.isSome), h.first]
  isSome := by
    simp only [Reporter.report]
    rw [firstFault?_push h.isSome]
    exact h.isSome

theorem advance (h : r.Abreast r') (p : Position) : (r.advance p).Abreast (r'.advance p) where
  le := h.le
  position := rfl
  distance := by simp only [Reporter.advance, h.distance]
  sublist := h.sublist
  first := h.first
  isSome := h.isSome

theorem resync (h : r.Abreast r') : r.resync.Abreast r'.resync where
  le := h.le
  position := h.position
  distance := rfl
  sublist := h.sublist
  first := h.first
  isSome := h.isSome

/-- A fault is shown by both reporters, by the first one only, or by none. -/
theorem fault (h : r.Abreast r') (m : Message) : (r.fault m).Abreast (r'.fault m) := by
  by_cases hshown' : r'.minDistance ≤ r'.distance
  · have hshown : r.minDistance ≤ r.distance := h.distance ▸ h.le.trans hshown'
    rw [fault_of_le hshown, fault_of_le hshown', h.position]
    exact (h.report _).resync
  · rw [fault_of_lt (Nat.not_le.1 hshown')]
    by_cases hshown : r.minDistance ≤ r.distance
    · rw [fault_of_le hshown]
      refine ⟨h.le, h.position, rfl, ?_, ?_, ?_⟩
      · simp only [Reporter.resync, Reporter.report, Array.toList_push]
        exact h.sublist.trans (List.sublist_append_left _ _)
      · simp only [Reporter.resync, Reporter.report]
        rw [firstFault?_push h.isSome, h.first]
      · simp only [Reporter.resync, Reporter.report]
        rw [firstFault?_push h.isSome]
        exact h.isSome
    · rw [fault_of_lt (Nat.not_le.1 hshown)]
      exact h.resync

theorem replay (h : r.Abreast r') (last : Position) (readings : List Reading) (log : List Event) :
    (r.replay last readings log).Abreast (r'.replay last readings log) := by
  induction log generalizing r r' readings with
  | nil =>
      rw [replay_nil, replay_nil]
      exact h
  | cons e log ih =>
      cases e with
      | fault m =>
          rw [Reporter.replay, Reporter.replay]
          exact ih (h.fault m) readings
      | resync =>
          rw [Reporter.replay, Reporter.replay]
          exact ih h.resync readings
      | shift =>
          cases readings with
          | nil => exact ih (h.advance last) []
          | cons reading readings =>
              exact ih ((foldl_report (fun _ _ d h => h.report d) reading.faults h).advance _) readings

end Abreast

namespace Agree

theorem start {d d' : Nat} (h : d ≤ d') : (start d).Agree (start d') :=
  ⟨h, rfl, rfl, Nat.le_refl d, Nat.le_refl d'⟩

theorem report (h : r.Agree r') (d : Diagnostic) : (r.report d).Agree (r'.report d) :=
  ⟨h.le, h.position, by simp only [Reporter.report, h.diagnostics], h.shows, h.shows'⟩

theorem advance (h : r.Agree r') (p : Position) : (r.advance p).Agree (r'.advance p) :=
  ⟨h.le, rfl, h.diagnostics, h.shows.trans (distance_le_advance r p),
    h.shows'.trans (distance_le_advance r' p)⟩

/-- The first fault is shown by both reporters. -/
theorem fault (h : r.Agree r') {m : Message} (hm : m.isLexical = false) :
    (r.fault m).Abreast (r'.fault m) := by
  rw [fault_of_le h.shows, fault_of_le h.shows', h.position]
  refine ⟨h.le, h.position, rfl, ?_, ?_, ?_⟩
  · simp only [Reporter.resync, Reporter.report, h.diagnostics]
    exact List.Sublist.refl _
  · simp only [Reporter.resync, Reporter.report, h.diagnostics]
  · exact isSome_firstFault?_push r.diagnostics hm

theorem replay (h : r.Agree r') (last : Position) (readings : List Reading) {log : List Event}
    (ho : Event.Orderly log) (hlog : ∀ m, .fault m ∈ log → m.isLexical = false) :
    (r.replay last readings log).Agree (r'.replay last readings log) ∨
      (r.replay last readings log).Abreast (r'.replay last readings log) := by
  induction log generalizing r r' readings with
  | nil =>
      rw [replay_nil, replay_nil]
      exact .inl h
  | cons e log ih =>
      have hlog' : ∀ m, .fault m ∈ log → m.isLexical = false :=
        fun m hm => hlog m (List.mem_cons_of_mem e hm)
      cases e with
      | fault m =>
          rw [Reporter.replay, Reporter.replay]
          exact .inr ((h.fault (hlog m List.mem_cons_self)).replay last readings log)
      | resync =>
          rcases ho [] log rfl with ⟨_, hmem⟩
          cases hmem
      | shift =>
          cases readings with
          | nil => exact ih (h.advance last) [] ho.of_shift hlog'
          | cons reading readings =>
              exact ih ((foldl_report (fun _ _ d h => h.report d) reading.faults h).advance _) readings
                ho.of_shift hlog'

end Agree

end Reporter

/-! ### Forming tokens -/

theorem Lexeme.isLexical_closeQuote (n : Nat) (v : Int) {fs : List Message}
    (hfs : ∀ m ∈ fs, m.isLexical) (cs : List Char) :
    ∀ m ∈ (closeQuote n v fs cs).faults, m.isLexical := by
  unfold closeQuote
  split
  · exact hfs
  · exact List.forall_mem_append.2 ⟨hfs, List.forall_mem_singleton.2 rfl⟩

theorem Lexeme.isLexical_charConst (cs : List Char) :
    ∀ m ∈ (charConst cs).faults, m.isLexical := by
  fun_cases charConst cs with
  | case1 => exact List.forall_mem_singleton.2 rfl
  | case2 => exact List.forall_mem_singleton.2 rfl
  | case3 c cs d => exact isLexical_closeQuote 3 d.toNat (List.forall_mem_nil _) cs
  | case4 c cs => exact isLexical_closeQuote 3 0 (List.forall_mem_singleton.2 rfl) cs
  | case5 => exact List.forall_mem_singleton.2 rfl
  | case6 => exact List.forall_mem_singleton.2 rfl
  | case7 c cs => exact isLexical_closeQuote 2 c.toNat (List.forall_mem_nil _) cs

/-- All that can be wrong with the spelling of a token concerns the forming of tokens. -/
theorem Lexeme.isLexical_read (cs : List Char) : ∀ m ∈ (read cs).faults, m.isLexical := by
  fun_cases read cs with
  | case1 => exact List.forall_mem_nil _
  | case2 c cs =>
      unfold word
      dsimp only
      split <;> exact List.forall_mem_nil _
  | case3 c cs =>
      unfold number
      dsimp only
      split
      · exact List.forall_mem_nil _
      · exact List.forall_mem_singleton.2 rfl
  | case4 cs => exact isLexical_charConst cs
  | case5 c cs =>
      unfold symbol
      split
      · exact List.forall_mem_nil _
      · exact List.forall_mem_singleton.2 rfl

theorem Scan.isLexical_readings (p : Position) (cs : List Char) {acc : Array Reading}
    (hacc : ∀ reading ∈ acc, ∀ d ∈ reading.faults, d.message.isLexical) :
    ∀ reading ∈ readings p cs acc, ∀ d ∈ reading.faults, d.message.isLexical := by
  have hstep (p : Position) (cs : List Char) :
      ∀ d ∈ (step p cs).reading.faults, d.message.isLexical := by
    intro d hd
    rcases List.mem_append.1 hd with hgap | hlexeme
    · obtain ⟨_, -, rfl⟩ : ∃ q, _ ∧ Diagnostic.mk q .endInComment = d := by simpa using hgap
      rfl
    · obtain ⟨m, hm, rfl⟩ := List.mem_map.1 hlexeme
      exact Lexeme.isLexical_read _ m hm
  have hpush (p : Position) (cs : List Char) (acc : Array Reading)
      (hacc : ∀ reading ∈ acc, ∀ d ∈ reading.faults, d.message.isLexical) :
      ∀ reading ∈ acc.push (step p cs).reading, ∀ d ∈ reading.faults, d.message.isLexical := by
    intro reading hreading
    rcases Array.mem_push.1 hreading with hmem | rfl
    · exact hacc reading hmem
    · exact hstep p cs
  fun_induction readings p cs acc with
  | case1 p cs acc => exact hpush p cs acc hacc
  | case2 p cs acc _ _ ih => exact ih (hpush p cs acc hacc)

namespace TokenSource

/-- All that is wrong with the tokens of a text concerns the forming of tokens. -/
theorem isLexical_of_mem_faults (text : String) : ∀ d ∈ (scan text).faults, d.message.isLexical := by
  intro d hd
  obtain ⟨reading, hreading, hd⟩ := List.mem_flatMap.1 hd
  have hnone : ∀ reading ∈ (#[] : Array Reading), ∀ d ∈ reading.faults, d.message.isLexical :=
    fun _ h => absurd h (Array.not_mem_empty _)
  exact Scan.isLexical_readings Position.start text.toList hnone reading
    (Array.mem_toList_iff.1 hreading) d hd

/-- Nothing that is logged concerns the forming of tokens. -/
theorem isLexical_of_mem_log (source : TokenSource) :
    ∀ m, .fault m ∈ source.compiler.log.toList → m.isLexical = false := by
  obtain ⟨new, hlog, -, hnew⟩ := (Program.read source.tokens).notes_compile.exists_log .initial
  have hlog' : source.compiler.log.toList = new := hlog
  rw [hlog']
  exact fun m hm => Message.isLexical_of_isForeign (hnew m hm)

/-- A larger distance between diagnostics leaves the image, the names for debugging and the symbol
table as they are. Some diagnostics may be left out, but never the first one that does not concern
the forming of tokens. So whether the image may be used does not depend on the distance, and if there
was a fault it may not. -/
theorem compile_thins (source : TokenSource) {d d' : Nat} (h : d ≤ d') :
    ∃ c c', source.compile d = .ok c ∧ source.compile d' = .ok c' ∧
      c'.image = c.image ∧ c'.debug = c.debug ∧ c'.table = c.table ∧
      c'.diagnostics.toList.Sublist c.diagnostics.toList ∧
      firstFault? c'.diagnostics = firstFault? c.diagnostics ∧
      c'.isValid = c.isValid ∧ (source.compiler.Faulty → c.isValid = false) := by
  obtain ⟨bs, hcompiled, -⟩ := source.compiled_compiler
  refine ⟨_, _, compile_eq_ok source d, compile_eq_ok source d', rfl, rfl, rfl, ?_⟩
  have hfaulty : source.compiler.Faulty →
      (source.diagnostics d source.compiler.log).isEmpty = false := fun hfaulty =>
    Bool.eq_false_iff.2 fun hempty =>
      not_faulty hcompiled.orderly (Array.isEmpty_iff.1 hempty) hfaulty
  rcases (Reporter.Agree.start h).replay source.last source.readings hcompiled.orderly
    source.isLexical_of_mem_log with hagree | habreast
  · have heq : source.diagnostics d' source.compiler.log = source.diagnostics d source.compiler.log :=
      hagree.diagnostics
    dsimp only [Compilation.isValid]
    rw [heq]
    exact ⟨List.Sublist.refl _, rfl, rfl, hfaulty⟩
  · refine ⟨habreast.sublist, habreast.first, ?_, hfaulty⟩
    have hshown {ds : Array Diagnostic} (hds : (firstFault? ds).isSome) : ds.isEmpty = false := by
      obtain ⟨x, hx⟩ := Option.isSome_iff_exists.1 hds
      exact Array.isEmpty_eq_false_iff.2 (Array.ne_empty_of_mem (Array.mem_of_find?_eq_some hx))
    exact (hshown (habreast.first ▸ habreast.isSome)).trans (hshown habreast.isSome).symm

/-- A text in which the faults are close together: the name and the brace are missing. -/
theorem compile_thins_program : 0 ≤ defaultDistance ∧
    ∃ c c', (scan "program \x7d").compile 0 = .ok c ∧
      (scan "program \x7d").compile defaultDistance = .ok c' ∧ c'.image = c.image ∧
      c'.diagnostics.toList.Sublist c.diagnostics.toList ∧
      firstFault? c'.diagnostics = firstFault? c.diagnostics ∧ c'.isValid = c.isValid := by
  have hle : 0 ≤ defaultDistance := Nat.zero_le defaultDistance
  obtain ⟨c, c', hc, hc', himage, -, -, hsublist, hfirst, hvalid, -⟩ :=
    compile_thins (scan "program \x7d") hle
  exact ⟨hle, c, c', hc, hc', himage, hsublist, hfirst, hvalid⟩

end TokenSource

end MicroJava
