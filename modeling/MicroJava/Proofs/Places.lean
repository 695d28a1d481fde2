import Mathlib.Data.Prod.Lex
import Mathlib.Order.Monotone.Basic
import MicroJava.Proofs.Comments

/-!
# Where tokens stand

A place can be read off the text in front of it: its line counts the line feeds there, and its column the
characters since the last of them (`Position.behind`). Places are ordered by line and column, and walking
over characters leads to a later place.

A `Scanner` holds the text ahead and its place, and each call reads one token. Every call passes over a gap
and takes the characters of one lexeme (`Scanner.exists_takes`), which are there, so the scanner never walks
beyond the text. It takes none at the end of the text only, so the calls up to the first `eof` are all readings
of the text, at places that increase, and each call after them reads that `eof` again
(`TokenSource.scan_places`).
-/

namespace MicroJava

/-! ### Places -/

namespace Position

/-- Places are ordered by their line, and in one line by their column. -/
instance : PartialOrder Position :=
  PartialOrder.lift (fun p => toLex (p.line, p.col)) fun p q h => by
    cases p
    cases q
    simpa using h

theorem lt_iff {p q : Position} : p < q ↔ p.line < q.line ∨ p.line = q.line ∧ p.col < q.col :=
  Prod.Lex.lt_iff (x := toLex (p.line, p.col)) (y := toLex (q.line, q.col))

theorem lt_next (p : Position) (c : Char) : p < p.next c := by
  rw [lt_iff, next]
  split
  · exact .inl (Nat.lt_succ_self p.line)
  · exact .inr ⟨rfl, Nat.lt_succ_self p.col⟩

theorem le_advance (p : Position) (cs : List Char) : p ≤ p.advance cs := by
  induction cs generalizing p with
  | nil => exact le_rfl
  | cons c cs ih => exact (lt_next p c).le.trans (ih (p.next c))

theorem lt_advance (p : Position) {cs : List Char} (h : cs ≠ []) : p < p.advance cs := by
  obtain ⟨c, cs, rfl⟩ := List.exists_cons_of_ne_nil h
  exact (lt_next p c).trans_le (le_advance (p.next c) cs)

/-- The place behind a text: each line feed begins a line, and each character since the last one begins a
column. -/
def behind (cs : List Char) : Position where
  line := 1 + cs.count '\n'
  col := 1 + (cs.reverse.takeWhile (· ≠ '\n')).length

theorem advance_start (cs : List Char) : start.advance cs = behind cs := by
  induction cs using List.reverseRecOn with
  | nil => rfl
  | append_singleton cs c ih =>
      rw [advance_append, ih, advance_cons, advance_nil, next]
      by_cases hc : c = '\n'
      · simp [behind, hc, Nat.add_assoc]
      · simp [behind, hc, Nat.add_assoc]

theorem advance_behind (cs ds : List Char) : (behind cs).advance ds = behind (cs ++ ds) := by
  rw [← advance_start, ← advance_start, advance_append]

end Position

/-! ### Lexemes -/

namespace Lexeme

theorem length_closeQuote_le (n : Nat) (v : Int) (fs : List Message) (cs : List Char) :
    (closeQuote n v fs cs).length ≤ n + cs.length := by
  unfold closeQuote
  split
  · simp
  · simp

theorem length_charConst_le (cs : List Char) : (charConst cs).length ≤ cs.length + 1 := by
  fun_cases charConst cs with
  | case1 => simp
  | case2 => simp
  | case3 c cs d =>
      have := length_closeQuote_le 3 d.toNat [] cs
      simp only [List.length_cons]
      omega
  | case4 c cs =>
      have := length_closeQuote_le 3 0 [.unknownEscape c] cs
      simp only [List.length_cons]
      omega
  | case5 => simp
  | case6 => simp
  | case7 c cs =>
      have := length_closeQuote_le 2 c.toNat [] cs
      simp only [List.length_cons]
      omega

theorem length_symbol_le (c : Char) (cs : List Char) : (symbol c cs).length ≤ (c :: cs).length := by
  unfold symbol
  split
  · next spelling kind hfind =>
      have hstarts := List.find?_some hfind
      exact (List.isPrefixOf_iff_prefix.1 hstarts).length_le
  · simp

/-- No more characters are taken than there are. -/
theorem length_read_le (cs : List Char) : (read cs).length ≤ cs.length := by
  cases cs with
  | nil => rfl
  | cons c cs =>
      rw [read]
      split
      · exact (length_word _).trans_le (List.takeWhile_prefix _).length_le
      · split
        · exact (length_number _).trans_le (List.takeWhile_prefix _).length_le
        · split
          · exact length_charConst_le cs
          · exact length_symbol_le c cs

theorem length_read_eq_zero {cs : List Char} : (read cs).length = 0 ↔ cs = [] := by
  cases cs with
  | nil => exact ⟨fun _ => rfl, fun _ => rfl⟩
  | cons c cs => simpa using (length_pos_of_read c cs).ne'

end Lexeme

/-! ### Calls -/

/-- A scanner between two calls: the text that it has not come to, and the place of that text. -/
structure Scanner where
  position : Position
  ahead : List Char
  deriving Inhabited

namespace Scanner

/-- Nothing of the text was read. -/
def start (text : String) : Scanner :=
  ⟨.start, text.toList⟩

/-- What a call reads. -/
def reading (s : Scanner) : Reading :=
  (Scan.step s.position s.ahead).reading

/-- The scanner after a call. -/
def next (s : Scanner) : Scanner :=
  ⟨(Scan.step s.position s.ahead).position, (Scan.step s.position s.ahead).rest⟩

/-- The scanner after `n` calls on a text. -/
def after (text : String) (n : Nat) : Scanner :=
  next^[n] (start text)

theorem after_succ (text : String) (n : Nat) : after text (n + 1) = (after text n).next :=
  Function.iterate_succ_apply' next n (start text)

/-- A call passes over a gap and takes the characters of a lexeme, as many as spell its token. The token is
`eof` if there are none. In front of it the gap may be a comment that is not closed. -/
structure Takes (s : Scanner) (gap lexeme : List Char) : Prop where
  ahead : s.ahead = gap ++ (lexeme ++ s.next.ahead)
  position : s.next.position = s.position.advance (gap ++ lexeme)
  place : s.reading.token.position = s.position.advance gap
  kind : s.reading.token.kind = (Lexeme.read (lexeme ++ s.next.ahead)).kind
  length : lexeme.length = (Lexeme.read (lexeme ++ s.next.ahead)).length
  gap : IsGap gap ∧ Scan.Clear (lexeme ++ s.next.ahead) ∨ IsOpenGap gap ∧ lexeme ++ s.next.ahead = []
  eof : s.reading.token.kind = .eof ↔ lexeme = []

/-- What a call does is said by the gap in front of the token. -/
theorem takes_of_skipGap {s : Scanner} {gap rest : List Char} {unclosed : Option Position}
    (hahead : s.ahead = gap ++ rest)
    (hskip : skipGap s.position s.position 0 s.ahead =
      { rest, position := s.position.advance gap, unclosed })
    (hgap : IsGap gap ∧ Scan.Clear rest ∨ IsOpenGap gap ∧ rest = []) :
    s.Takes gap (rest.take (Lexeme.read rest).length) := by
  have hrest : rest.take (Lexeme.read rest).length ++ s.next.ahead = rest := by
    simp only [next, Scan.step, hskip, List.take_append_drop]
  refine ⟨?_, ?_, ?_, ?_, ?_, ?_, ?_⟩
  · rw [hrest, hahead]
  · simp only [next, Scan.step, hskip, Position.advance_append]
  · simp only [reading, Scan.step, hskip]
  · simp only [hrest, reading, Scan.step, hskip]
  · rw [hrest, List.length_take, Nat.min_eq_left (Lexeme.length_read_le rest)]
  · rwa [hrest]
  · have hkind : s.reading.token.kind = (Lexeme.read rest).kind := by
      simp only [reading, Scan.step, hskip]
    rw [hkind, Lexeme.read_kind_eq_eof, List.take_eq_nil_iff, Lexeme.length_read_eq_zero, or_self]

theorem exists_takes (s : Scanner) : ∃ gap lexeme, s.Takes gap lexeme := by
  rcases exists_gap s.ahead with ⟨gap, rest, hahead, hgap, hrest⟩ | ⟨gap, inner, hahead, hgap, hinner⟩
  · exact ⟨gap, _, takes_of_skipGap hahead (hahead ▸ hgap.skipGap_append hrest _ _) (.inl ⟨hgap, hrest⟩)⟩
  · exact ⟨s.ahead, _, takes_of_skipGap (List.append_nil _).symm
      (hahead ▸ skipGap_openGap hgap hinner _ _) (.inr ⟨⟨gap, inner, hahead, hgap, hinner⟩, rfl⟩)⟩

section Call

variable {s : Scanner}

theorem token_le_next (s : Scanner) : s.reading.token.position ≤ s.next.position := by
  obtain ⟨gap, lexeme, h⟩ := s.exists_takes
  rw [h.place, h.position, Position.advance_append]
  exact Position.le_advance _ lexeme

theorem position_le_token (s : Scanner) : s.position ≤ s.reading.token.position := by
  obtain ⟨gap, lexeme, h⟩ := s.exists_takes
  rw [h.place]
  exact Position.le_advance s.position gap

/-- The next token stands at a later place. -/
theorem token_lt_next (h : s.reading.token.kind ≠ .eof) : s.reading.token.position < s.next.position := by
  obtain ⟨gap, lexeme, htakes⟩ := s.exists_takes
  rw [htakes.place, htakes.position, Position.advance_append]
  exact Position.lt_advance _ (mt htakes.eof.2 h)

theorem position_le_next (s : Scanner) : s.position ≤ s.next.position :=
  s.position_le_token.trans s.token_le_next

theorem length_next_lt (h : s.reading.token.kind ≠ .eof) : s.next.ahead.length < s.ahead.length :=
  Scan.length_rest_step_lt h

/-- When `eof` is read, the scanner is at the end of the text. -/
theorem next_of_eof (h : s.reading.token.kind = .eof) :
    s.next = ⟨s.position.advance s.ahead, []⟩ ∧
      s.reading.token = { kind := .eof, position := s.position.advance s.ahead } := by
  have hrest : (skipGap s.position s.position 0 s.ahead).rest = [] := Lexeme.read_kind_eq_eof.1 h
  obtain ⟨skipped, hahead, hposition⟩ := exists_append_of_skipGap s.position s.position 0 s.ahead
  rw [hrest, List.append_nil] at hahead
  rw [← hahead] at hposition
  constructor
  · simp only [next, Scan.step, hrest, hposition, List.take_nil, List.drop_nil, Position.advance_nil]
  · simp only [reading, Scan.step, hrest, hposition]
    rfl

/-- At the end of the text `eof` is read, and the scanner stays there. -/
theorem reading_of_end (p : Position) : reading ⟨p, []⟩ = { token := { kind := .eof, position := p } } ∧
    next ⟨p, []⟩ = ⟨p, []⟩ := by
  have hstep := Scan.step_gap .nil p
  constructor
  · rw [reading, hstep]
    rfl
  · rw [next, hstep]
    rfl

end Call

/-- The text is what calls have taken, and then what is ahead. -/
theorem exists_behind (text : String) (n : Nat) : ∃ before, text.toList = before ++ (after text n).ahead ∧
    (after text n).position = .behind before := by
  induction n with
  | zero => exact ⟨[], rfl, rfl⟩
  | succ n ih =>
      obtain ⟨before, htext, hposition⟩ := ih
      obtain ⟨gap, lexeme, h⟩ := (after text n).exists_takes
      refine ⟨before ++ (gap ++ lexeme), ?_, ?_⟩
      · rw [after_succ, htext, h.ahead]
        simp
      · rw [after_succ, h.position, hposition, Position.advance_behind]

theorem monotone_position (text : String) : Monotone fun n => (after text n).position :=
  monotone_nat_of_le_succ fun n => by
    rw [after_succ]
    exact position_le_next _

/-- Behind a token that is not `eof` all tokens stand at later places. -/
theorem token_lt_token {text : String} {n k : Nat} (h : n < k)
    (hn : (after text n).reading.token.kind ≠ .eof) :
    (after text n).reading.token.position < (after text k).reading.token.position :=
  calc (after text n).reading.token.position
      < (after text (n + 1)).position := by
        rw [after_succ]
        exact token_lt_next hn
    _ ≤ (after text k).position := monotone_position text h
    _ ≤ (after text k).reading.token.position := position_le_token _

/-- Once `eof` was read, every call reads it again, at the end of the text. -/
theorem after_of_eof {text : String} {m : Nat} (h : (after text m).reading.token.kind = .eof) {n : Nat}
    (hn : m < n) : after text n = ⟨.behind text.toList, []⟩ := by
  obtain ⟨before, htext, hposition⟩ := exists_behind text m
  induction n, hn using Nat.le_induction with
  | base => rw [after_succ, (next_of_eof h).1, hposition, Position.advance_behind, htext]
  | succ n _ ih => rw [after_succ, ih, (reading_of_end _).2]

/-- The readings of the text ahead are made by the calls up to the first one that reads `eof`. -/
theorem exists_readings (s : Scanner) : ∃ m ≤ s.ahead.length,
    (Scan.readings s.position s.ahead #[]).toList =
      (List.range (m + 1)).map (fun n => (next^[n] s).reading) ∧
    (∀ n < m, (next^[n] s).reading.token.kind ≠ .eof) ∧ (next^[m] s).reading.token.kind = .eof := by
  induction hn : s.ahead.length using Nat.strongRecOn generalizing s with
  | ind n ih =>
      subst hn
      by_cases h : s.reading.token.kind = .eof
      · exact ⟨0, Nat.zero_le _, Scan.readings_of_eq_eof h, fun n hn => absurd hn n.not_lt_zero, h⟩
      · have hlt := length_next_lt h
        obtain ⟨m, hm, hreadings, hother, heof⟩ := ih _ hlt s.next rfl
        refine ⟨m + 1, hm.trans_lt hlt, ?_, ?_, heof⟩
        · rw [List.range_succ_eq_map, List.map_cons, List.map_map]
          exact (Scan.readings_of_ne_eof h).trans (congrArg _ hreadings)
        · rintro (_ | n) hn
          · exact h
          · exact hother n (Nat.lt_of_succ_lt_succ hn)

end Scanner

namespace TokenSource

/-- The readings of a text are made by calls of the scanner, up to the first one that reads `eof`. -/
theorem exists_readings_scan (text : String) : ∃ m ≤ text.length,
    (scan text).readings = (List.range (m + 1)).map (fun n => (Scanner.after text n).reading) ∧
    (∀ n < m, (Scanner.after text n).reading.token.kind ≠ .eof) ∧
    (Scanner.after text m).reading.token.kind = .eof :=
  (Scanner.start text).exists_readings

/-- However often the scanner is called, it has come to a place in the text, and its place says how many
lines and columns are in front of it. The token of a call stands where its lexeme begins, behind the gap in
front of that. There are at most as many tokens as characters before the first `eof`, each at a later place
than the one before; `eof` stands at the end of the text, and is read again by each call that follows. -/
theorem scan_places (text : String) :
    (∀ n, ∃ before gap lexeme, text.toList = before ++ (Scanner.after text n).ahead ∧
      (Scanner.after text n).position = .behind before ∧ (Scanner.after text n).Takes gap lexeme ∧
      (Scanner.after text n).reading.token.position = .behind (before ++ gap)) ∧
    (scan text).readings.Pairwise (·.token.position < ·.token.position) ∧
    ∃ m ≤ text.length,
      (scan text).readings = (List.range (m + 1)).map (fun n => (Scanner.after text n).reading) ∧
      (∀ n < m, (Scanner.after text n).reading.token.kind ≠ .eof) ∧
      (Scanner.after text m).reading.token = { kind := .eof, position := .behind text.toList } ∧
      ∀ n, m < n → (Scanner.after text n).reading =
        { token := { kind := .eof, position := .behind text.toList } } := by
  obtain ⟨m, hm, hreadings, hother, heof⟩ := exists_readings_scan text
  refine ⟨fun n => ?_, ?_, m, hm, hreadings, hother, ?_, fun n hn => ?_⟩
  · obtain ⟨before, htext, hposition⟩ := Scanner.exists_behind text n
    obtain ⟨gap, lexeme, h⟩ := (Scanner.after text n).exists_takes
    exact ⟨before, gap, lexeme, htext, hposition, h, by rw [h.place, hposition, Position.advance_behind]⟩
  · rw [hreadings, List.pairwise_map]
    refine List.pairwise_lt_range.imp_of_mem fun {n k} _ hk hlt => ?_
    exact Scanner.token_lt_token hlt (hother n (hlt.trans_le (Nat.lt_succ_iff.1 (List.mem_range.1 hk))))
  · obtain ⟨before, htext, hposition⟩ := Scanner.exists_behind text m
    rw [(Scanner.next_of_eof heof).2, hposition, Position.advance_behind, htext]
  · rw [Scanner.after_of_eof heof hn, (Scanner.reading_of_end _).1]

end TokenSource

end MicroJava
