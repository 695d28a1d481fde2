import MicroJava.Proofs.Arrivals

/-!
# Diagnostics in the order of the text

The scanner shows a fault when it meets it, and the parser shows one at the token that it looks at. That
token was formed last, so nothing that was shown stands behind it (`Reporter.InOrder`), and nothing that the
next call meets stands in front of it (`Reading.GoesOn`).

Hence diagnostics come in the order of the text. Each of them stands at a token, at the end of the text or
at the beginning of a comment that is not closed (`TokenSource.compile_in_order`).
-/

namespace MicroJava

open MicroJava.Tree Compiler

variable {place : Position → Prop} {p q : Position}

/-- What a call delivers goes on from the place `p`: the faults in their order, and then the token. -/
structure Reading.GoesOn (place : Position → Prop) (p : Position) (reading : Reading) : Prop where
  le : p ≤ reading.token.position
  here : place reading.token.position
  sorted : reading.faults.Pairwise (·.position ≤ ·.position)
  faults : ∀ d ∈ reading.faults, p ≤ d.position ∧ d.position ≤ reading.token.position ∧ place d.position

theorem Reading.GoesOn.mono {reading : Reading} (h : reading.GoesOn place q) (hle : p ≤ q) :
    reading.GoesOn place p where
  le := hle.trans h.le
  here := h.here
  sorted := h.sorted
  faults d hd := ⟨hle.trans (h.faults d hd).1, (h.faults d hd).2⟩

namespace Reporter

/-- What was shown is in order, and nothing of it stands behind the token to be read next. -/
structure InOrder (place : Position → Prop) (r : Reporter) : Prop where
  sorted : r.diagnostics.toList.Pairwise (·.position ≤ ·.position)
  shown : ∀ d ∈ r.diagnostics.toList, d.position ≤ r.position ∧ place d.position

namespace InOrder

variable {source : TokenSource} {r : Reporter} {log : List Event}

theorem fetch (h : r.InOrder place) {reading : Reading} (hreading : reading.GoesOn place r.position) :
    (r.fetch reading).InOrder place := by
  rw [fetch_eq]
  refine ⟨?_, ?_⟩
  · rw [Array.toList_appendList, List.pairwise_append]
    exact ⟨h.sorted, hreading.sorted,
      fun d hd d' hd' => (h.shown d hd).1.trans (hreading.faults d' hd').1⟩
  · rw [Array.toList_appendList]
    intro d hd
    rcases List.mem_append.1 hd with hd | hd
    · exact ⟨(h.shown d hd).1.trans hreading.le, (h.shown d hd).2⟩
    · exact (hreading.faults d hd).2

theorem fault (h : r.InOrder place) (hplace : place r.position) (m : Message) :
    (r.fault m).InOrder place := by
  rw [Reporter.fault]
  split
  · refine ⟨?_, ?_⟩
    · simp only [resync, report, Array.toList_push, List.pairwise_append, List.mem_singleton]
      refine ⟨h.sorted, List.pairwise_singleton _ _, ?_⟩
      rintro d hd _ rfl
      exact (h.shown d hd).1
    · simp only [resync, report, Array.toList_push, List.mem_append, List.mem_singleton]
      rintro d (hd | rfl)
      · exact h.shown d hd
      · exact ⟨le_rfl, hplace⟩
  · exact ⟨h.sorted, h.shown⟩

/-- The place where reading is does not count as long as no token was fetched. -/
theorem replay (h : r.InOrder place) (hplace : log.head? ≠ some .shift → place r.position)
    (hfirst : (source.call 0).GoesOn place r.position)
    (hnext : ∀ n, (source.call (n + 1)).GoesOn place (source.call n).token.position) :
    (r.replay source.last source.readings log).InOrder place := by
  induction log generalizing source r with
  | nil => rwa [replay_nil]
  | cons e log ih =>
      cases e with
      | fault m =>
          -- A fault is shown where reading is, and reading does not move.
          have hsame : (r.fault m).position = r.position := by
            rw [Reporter.fault]
            split <;> rfl
          have hhere : place r.position := hplace (by simp)
          exact ih (h.fault hhere m) (fun _ => hsame ▸ hhere) (hsame ▸ hfirst) hnext
      | resync =>
          have hresync : r.resync.InOrder place := ⟨h.sorted, h.shown⟩
          exact ih hresync (fun _ => hplace (by simp)) hfirst hnext
      | shift =>
          have hposition : (r.fetch (source.call 0)).position = (source.call 0).token.position := by
            rw [fetch_eq]
            rfl
          rw [replay_shift]
          refine ih (h.fetch hfirst) (fun _ => hposition ▸ hfirst.here) ?_ fun n => ?_
          · rw [hposition, ← TokenSource.call_succ]
            exact hnext 0
          · rw [← TokenSource.call_succ, ← TokenSource.call_succ]
            exact hnext (n + 1)

end InOrder

end Reporter

/-! ### Places of a text -/

/-- Where a token stands, where the text ends, and where a comment begins that is not closed. -/
inductive Landmark (text : String) : Position → Prop
  | token {t : Token} (h : t ∈ (TokenSource.scan text).tokens) : Landmark text t.position
  | ending : Landmark text (.behind text.toList)
  | comment {n : Nat} {before gap inner : List Char}
      (htext : text.toList = before ++ (Scanner.after text n).ahead)
      (hahead : (Scanner.after text n).ahead = gap ++ '/' :: '*' :: inner)
      (hgap : IsGap gap) (hinner : Unclosed inner) : Landmark text (.behind (before ++ gap))

/-- The faults that a call meets stand at its token, unless it finds no end of a comment. -/
theorem Scanner.faults_reading (s : Scanner) :
    (∀ d ∈ s.reading.faults, d.position = s.reading.token.position) ∨
    ∃ gap inner, s.ahead = gap ++ '/' :: '*' :: inner ∧ IsGap gap ∧ Unclosed inner ∧
      s.reading.faults = [⟨s.position.advance gap, .endInComment⟩] ∧
      s.reading.token.position = s.position.advance s.ahead := by
  rcases exists_gap s.ahead with ⟨gap, rest, hahead, hgap, hrest⟩ | ⟨gap, inner, hahead, hgap, hinner⟩
  · left
    have hskip := hahead ▸ hgap.skipGap_append hrest s.position s.position
    simp only [reading, Scan.step, hskip]
    simp
  · right
    have hskip := hahead ▸ skipGap_openGap hgap hinner s.position s.position
    refine ⟨gap, inner, hahead, hgap, hinner, ?_, ?_⟩
    · simp only [reading, Scan.step, hskip]
      rfl
    · simp only [reading, Scan.step, hskip]

/-! ### The first call -/

theorem Compiler.exists_log_shift {α : Type} (measured : Bool) {g : Prop} {f : Unit → CompilerM α}
    (hf : Notes measured g (f ())) (s : Compiler) :
    ∃ log, ((shift >>= f) s).2.log.toList = s.log.toList ++ .shift :: log := by
  obtain ⟨log, hlog, -⟩ := hf.exists_log (shift s).2
  refine ⟨log, hlog.trans ?_⟩
  change (s.log.push .shift).toList ++ log = _
  simp

/-- Compiling a program begins with fetching a token. -/
theorem Tree.Program.exists_log_compile (p : Program) (s : Compiler) :
    ∃ log, (p.compile s).2.log.toList = s.log.toList ++ .shift :: log := by
  have hhead : ∃ log, (p.compileHead s).2.log.toList = s.log.toList ++ .shift :: log :=
    exists_log_shift true ((Notes.expect _ _).bind fun _ => (Notes.expectName _).bind fun _ =>
      (Notes.declare _ _ _).quietly fun _ => (Notes.of_log fun _ _ => rfl).quietly fun _ =>
      (Notes.modifyTable _).quietly fun _ => (Notes.forM fun d _ => d.notes_compile).bind fun _ =>
      quiet_noteGlobals.quietly fun _ => (Notes.expect _ _).finish fun _ => .pure) s
  obtain ⟨log, hlog⟩ := hhead
  have hbehind := (Notes.forM (l := p.members) (f := Member.compile) fun m _ => m.notes_compile).bind
    fun _ => p.notes_compileTail (p.compileHead s).1
  obtain ⟨more, hmore, -⟩ := hbehind.exists_log (p.compileHead s).2
  refine ⟨log ++ more, ?_⟩
  rw [hlog] at hmore
  rw [← List.cons_append, ← List.append_assoc, ← hmore]
  rfl

namespace TokenSource

theorem landmark_token (text : String) (n : Nat) :
    Landmark text (Scanner.after text n).reading.token.position := by
  obtain ⟨m, htokens, -, heof⟩ := exists_tokens_scan text
  by_cases hkind : (Scanner.after text n).reading.token.kind = .eof
  · obtain ⟨before, htext, hposition⟩ := Scanner.exists_behind text n
    rw [(Scanner.next_of_eof hkind).2, hposition, Position.advance_behind, ← htext]
    exact .ending
  · refine .token (htokens ▸ List.mem_map.2 ⟨n, List.mem_range.2 ?_, rfl⟩)
    by_contra hle
    rcases Nat.eq_or_lt_of_le (Nat.le_of_not_lt hle) with rfl | hlt
    · exact hkind heof
    · rw [Scanner.after_of_eof heof hlt, (Scanner.reading_of_end _).1] at hkind
      exact hkind rfl

theorem goesOn_reading (text : String) (n : Nat) :
    (Scanner.after text n).reading.GoesOn (Landmark text) (Scanner.after text n).position := by
  have hle := (Scanner.after text n).position_le_token
  have hplace := landmark_token text n
  rcases (Scanner.after text n).faults_reading with
    hall | ⟨gap, inner, hahead, hgap, hinner, hfaults, htoken⟩
  · refine ⟨hle, hplace, ?_, fun d hd => ?_⟩
    · exact List.pairwise_of_forall_mem_list fun d hd d' hd' => by rw [hall d hd, hall d' hd']
    · rw [hall d hd]
      exact ⟨hle, le_rfl, hplace⟩
  · obtain ⟨before, htext, hposition⟩ := Scanner.exists_behind text n
    have hopened : (Scanner.after text n).position.advance gap = .behind (before ++ gap) := by
      rw [hposition, Position.advance_behind]
    refine ⟨hle, hplace, ?_, ?_⟩
    · rw [hfaults]
      exact List.pairwise_singleton _ _
    · rw [hfaults]
      simp only [List.mem_singleton, forall_eq]
      refine ⟨Position.le_advance _ _, ?_, ?_⟩
      · rw [htoken, hahead, Position.advance_append]
        exact Position.le_advance _ _
      · rw [hopened]
        exact .comment htext hahead hgap hinner

theorem goesOn_call (text : String) (n : Nat) :
    ((scan text).call (n + 1)).GoesOn (Landmark text) ((scan text).call n).token.position := by
  rw [call_scan, call_scan]
  refine (goesOn_reading text (n + 1)).mono ?_
  rw [Scanner.after_succ]
  exact Scanner.token_le_next _

/-- Whatever the text is and however far apart diagnostics must be, they come in the order of the text,
those of the scanner and those of the parser together. Each of them stands at a token, at the end of the
text or at the beginning of a comment that is not closed. -/
theorem compile_in_order (text : String) (minDistance : Nat) : ∃ c,
    MicroJava.compile text minDistance = .ok c ∧
    c.diagnostics.toList.Pairwise (·.position ≤ ·.position) ∧
    ∀ d ∈ c.diagnostics.toList, Landmark text d.position := by
  obtain ⟨log, hlog⟩ := (Program.read (scan text).tokens).exists_log_compile .initial
  have hlog : (scan text).compiler.log.toList = .shift :: log := hlog
  have hstart : (Reporter.start minDistance).InOrder (Landmark text) :=
    ⟨List.Pairwise.nil, fun d hd => absurd hd List.not_mem_nil⟩
  have hfirst : ((scan text).call 0).GoesOn (Landmark text) (Reporter.start minDistance).position := by
    rw [call_scan]
    exact goesOn_reading text 0
  have hfetches : (scan text).compiler.log.toList.head? = some .shift := by
    rw [hlog]
    rfl
  have horder : ((Reporter.start minDistance).replay (scan text).last (scan text).readings
      (scan text).compiler.log.toList).InOrder (Landmark text) :=
    hstart.replay (absurd hfetches) hfirst (goesOn_call text)
  exact ⟨_, compile_eq_ok (scan text) minDistance, horder.sorted, fun d hd => (horder.shown d hd).2⟩

end TokenSource

end MicroJava
