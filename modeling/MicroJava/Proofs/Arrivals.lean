import MicroJava.Proofs.Acceptance
import MicroJava.Proofs.Fetches
import MicroJava.Proofs.Lookahead
import MicroJava.Proofs.Places
import MicroJava.Proofs.Throttling

/-!
# What the scanner is called for

While a text is compiled, the scanner is called once for each token that is passed (`Compiler.passed`). No
other call has an influence on what compiling yields (`TokenSource.compile_of_calls`), so it makes no
difference whether the tokens are formed when they are needed or before. What is wrong with their forming is
shown when the call is made that meets it, and has no influence on the other diagnostics (`Reporter.Mutes`).
So the tokens may as well be formed first and replayed (`TokenSource.compile_replays`).

The scanner is called up to the end of the text, unless something stands behind the closing brace of the
program. Of that only the first token is read (`TokenSource.compile_hears`).
-/

namespace MicroJava

open MicroJava.Tree

namespace TokenSource

/-- What the source delivers at its `n`-th call. Behind its readings there are `eof` tokens only. -/
def call (source : TokenSource) (n : Nat) : Reading :=
  source.readings[n]?.getD { token := { kind := .eof, position := source.last } }

/-- The source after a call. -/
def next (source : TokenSource) : TokenSource :=
  { source with readings := source.readings.tail }

variable {source source' : TokenSource} {n : Nat}

theorem call_succ (source : TokenSource) (n : Nat) : source.call (n + 1) = source.next.call n := by
  rw [call, call, next, List.getElem?_tail]

theorem tokens_of_eof (h : (source.call 0).token.kind = .eof) : source.tokens = [] := by
  obtain ⟨readings, last⟩ := source
  cases readings with
  | nil => rfl
  | cons reading readings =>
      have hkind : reading.token.kind = .eof := h
      simp [tokens, hkind]

theorem tokens_of_ne_eof (h : (source.call 0).token.kind ≠ .eof) :
    source.tokens = (source.call 0).token :: source.next.tokens := by
  obtain ⟨readings, last⟩ := source
  cases readings with
  | nil => exact absurd rfl h
  | cons reading readings =>
      have hkind : reading.token.kind ≠ .eof := h
      simp [tokens, next, call, hkind]

/-- Calls that deliver the same tokens, but for their places, make the lists of tokens alike. -/
theorem alike_tokens
    (h : ∀ k < n, ∃ p, (source'.call k).token = { (source.call k).token with position := p }) :
    Alike n source.tokens source'.tokens := by
  induction n generalizing source source' with
  | zero => exact .unseen _ _
  | succ n ih =>
      obtain ⟨p, hfirst⟩ := h 0 n.succ_pos
      have hkind : (source'.call 0).token.kind = (source.call 0).token.kind := by rw [hfirst]
      by_cases heof : (source.call 0).token.kind = .eof
      · rw [tokens_of_eof heof, tokens_of_eof (hkind.trans heof)]
        exact .nil n
      · rw [tokens_of_ne_eof heof, tokens_of_ne_eof (hkind.trans_ne heof), hfirst]
        refine .cons _ p (ih fun k hk => ?_)
        rw [← call_succ, ← call_succ]
        exact h (k + 1) (Nat.succ_lt_succ hk)

end TokenSource

namespace Reporter

variable {source source' : TokenSource} {r r' : Reporter} {log : List Event}

/-- Each token that is passed fetches what the next call delivers. -/
theorem replay_shift (source : TokenSource) (r : Reporter) (log : List Event) :
    r.replay source.last source.readings (.shift :: log) =
      (r.fetch (source.call 0)).replay source.next.last source.next.readings log := by
  obtain ⟨readings, last⟩ := source
  cases readings with
  | nil => rfl
  | cons reading readings => rfl

/-- Only the calls that are made have an influence. -/
theorem replay_of_calls (h : ∀ k < log.count .shift, source'.call k = source.call k) :
    r.replay source'.last source'.readings log = r.replay source.last source.readings log := by
  induction log generalizing source source' r with
  | nil => rw [replay_nil, replay_nil]
  | cons e log ih =>
      cases e with
      | fault m => exact ih fun k hk => h k (by simpa using hk)
      | resync => exact ih fun k hk => h k (by simpa using hk)
      | shift =>
          rw [List.count_cons_self] at h
          rw [replay_shift, replay_shift, h 0 (Nat.succ_pos _)]
          refine ih fun k hk => ?_
          rw [← TokenSource.call_succ, ← TokenSource.call_succ]
          exact h (k + 1) (Nat.succ_lt_succ hk)

end Reporter

namespace TokenSource

variable {source source' : TokenSource}

/-- A source is compiled with nothing but the calls that are made. -/
theorem compile_of_calls (h : ∀ k < source.compiler.passed, source'.call k = source.call k)
    (minDistance : Nat) : source'.compile minDistance = source.compile minDistance := by
  have hcount := source.count_shift_log
  have htokens : Alike source.compiler.passed source.tokens source'.tokens :=
    alike_tokens fun k hk => ⟨(source.call k).token.position, by rw [h k hk]⟩
  have hcompiler : source'.compiler = source.compiler := by
    rw [compiler, compiler, Program.read_of_alike htokens]
    rw [Compiler.passed]
    omega
  have hdiagnostics : source'.diagnostics minDistance source.compiler.log =
      source.diagnostics minDistance source.compiler.log :=
    congrArg Reporter.diagnostics (Reporter.replay_of_calls h)
  rw [compile_eq_ok, compile_eq_ok, hcompiler, hdiagnostics]

/-- The tokens of a text are formed by the calls in front of the first one that reads `eof`. -/
theorem exists_tokens_scan (text : String) : ∃ m,
    (scan text).tokens = (List.range m).map (fun n => (Scanner.after text n).reading.token) ∧
    (scan text).readings.length = m + 1 ∧ (Scanner.after text m).reading.token.kind = .eof := by
  obtain ⟨m, -, hreadings, hother, heof⟩ := exists_readings_scan text
  refine ⟨m, ?_, by rw [hreadings, List.length_map, List.length_range], heof⟩
  rw [tokens, hreadings, List.map_map, List.range_succ, List.map_append, List.takeWhile_append_of_pos]
  · simp [heof]
  · simp only [List.mem_map, List.mem_range]
    rintro t ⟨n, hn, rfl⟩
    simpa using hother n hn

theorem last_scan (text : String) : (scan text).last = .behind text.toList := by
  obtain ⟨m, -, hreadings, -, heof⟩ := exists_readings_scan text
  obtain ⟨before, htext, hposition⟩ := Scanner.exists_behind text m
  have hlast : (scan text).readings.getLast? = some (Scanner.after text m).reading := by
    rw [hreadings, List.range_succ, List.map_append, List.map_singleton, List.getLast?_concat]
  calc (scan text).last
      = ((scan text).readings.getLast?.map (·.token.position)).getD Position.start := rfl
    _ = (Scanner.after text m).reading.token.position := by rw [hlast]; rfl
    _ = .behind text.toList := by
        rw [(Scanner.next_of_eof heof).2, hposition, Position.advance_behind, htext]

/-- What a text delivers at a call is what the scanner reads there, however often it was called. -/
theorem call_scan (text : String) (n : Nat) : (scan text).call n = (Scanner.after text n).reading := by
  obtain ⟨m, -, hreadings, -, heof⟩ := exists_readings_scan text
  rw [call, hreadings, last_scan, List.getElem?_map]
  rcases Nat.lt_or_ge m n with hn | hn
  · rw [List.getElem?_eq_none (by rwa [List.length_range]), Scanner.after_of_eof heof hn,
      (Scanner.reading_of_end _).1]
    rfl
  · rw [List.getElem?_range (Nat.lt_succ_of_le hn)]
    rfl

end TokenSource

/-! ### Faults of the scanner and faults of the parser -/

namespace Reporter

variable {source source' : TokenSource} {r r' : Reporter} {log : List Event}

theorem fetch_eq (r : Reporter) (reading : Reading) : r.fetch reading =
    { r.advance reading.token.position with diagnostics := r.diagnostics ++ reading.faults } := by
  have hreport (ds : List Diagnostic) : ∀ r : Reporter,
      ds.foldl report r = { r with diagnostics := r.diagnostics ++ ds } := by
    induction ds with
    | nil => simp
    | cons d ds ih =>
        intro r
        rw [List.foldl_cons, ih]
        simp [report]
  rw [fetch, hreport]
  rfl

theorem lexical_fault (r : Reporter) {m : Message} (hm : m.isLexical = false) :
    (r.fault m).diagnostics.toList.filter (·.message.isLexical) =
      r.diagnostics.toList.filter (·.message.isLexical) := by
  rw [fault]
  split
  · simp [resync, report, hm]
  · rfl

/-- Of the diagnostics, those on forming tokens are what the calls have delivered. -/
theorem lexical_replay (hcalls : ∀ n, ∀ d ∈ (source.call n).faults, d.message.isLexical)
    (hlog : ∀ m, .fault m ∈ log → m.isLexical = false) :
    (r.replay source.last source.readings log).diagnostics.toList.filter (·.message.isLexical) =
      r.diagnostics.toList.filter (·.message.isLexical) ++
        (List.range (log.count .shift)).flatMap fun n => (source.call n).faults := by
  induction log generalizing source r with
  | nil => simp
  | cons e log ih =>
      have hlog' : ∀ m, .fault m ∈ log → m.isLexical = false :=
        fun m hm => hlog m (List.mem_cons_of_mem e hm)
      cases e with
      | fault m =>
          exact (ih hcalls hlog').trans (congrArg (· ++ _) (r.lexical_fault (hlog m List.mem_cons_self)))
      | resync => exact ih (r := r.resync) hcalls hlog'
      | shift =>
          rw [replay_shift, ih (fun n => source.call_succ n ▸ hcalls (n + 1)) hlog', fetch_eq,
            Array.toList_appendList, List.filter_append, List.filter_eq_self.2 (hcalls 0),
            List.append_assoc, List.count_cons_self, List.range_succ_eq_map, List.flatMap_cons,
            List.flatMap_map]
          simp only [TokenSource.call_succ]

/-- The second reporter shows what the first one does, but for faults on forming tokens. -/
structure Mutes (r r' : Reporter) : Prop where
  minDistance : r'.minDistance = r.minDistance
  distance : r'.distance = r.distance
  position : r'.position = r.position
  diagnostics : r'.diagnostics.toList = r.diagnostics.toList.filter (!·.message.isLexical)

namespace Mutes

theorem fetch (h : r.Mutes r') {reading : Reading}
    (hfaults : ∀ d ∈ reading.faults, d.message.isLexical) : (r.fetch reading).Mutes (r'.fetch { token := reading.token }) := by
  have hnone : reading.faults.filter (!·.message.isLexical) = [] :=
    List.filter_eq_nil_iff.2 fun d hd => by simp [hfaults d hd]
  rw [fetch_eq, fetch_eq]
  refine ⟨h.minDistance, ?_, rfl, ?_⟩
  · simp only [Reporter.advance, h.distance]
  · simp only [Array.toList_appendList, List.append_nil, List.filter_append, hnone, h.diagnostics]

/-- A fault that is logged is shown by both reporters or by none. -/
theorem fault (h : r.Mutes r') {m : Message} (hm : m.isLexical = false) :
    (r.fault m).Mutes (r'.fault m) := by
  rw [Reporter.fault, Reporter.fault, h.minDistance, h.distance]
  split
  · refine ⟨h.minDistance, rfl, h.position, ?_⟩
    simp [Reporter.resync, Reporter.report, h.diagnostics, h.position, hm]
  · exact ⟨h.minDistance, rfl, h.position, h.diagnostics⟩

theorem replay (h : r.Mutes r') (hcalls : ∀ n, ∀ d ∈ (source.call n).faults, d.message.isLexical)
    (hquiet : ∀ n, source'.call n = { token := (source.call n).token })
    (hlog : ∀ m, .fault m ∈ log → m.isLexical = false) :
    (r.replay source.last source.readings log).Mutes (r'.replay source'.last source'.readings log) := by
  induction log generalizing source source' r r' with
  | nil => rwa [replay_nil, replay_nil]
  | cons e log ih =>
      have hlog' : ∀ m, .fault m ∈ log → m.isLexical = false :=
        fun m hm => hlog m (List.mem_cons_of_mem e hm)
      cases e with
      | fault m => exact ih (h.fault (hlog m List.mem_cons_self)) hcalls hquiet hlog'
      | resync =>
          have hresync : r.resync.Mutes r'.resync := ⟨h.minDistance, rfl, h.position, h.diagnostics⟩
          exact ih hresync hcalls hquiet hlog'
      | shift =>
          rw [replay_shift, replay_shift, hquiet 0]
          refine ih (h.fetch (hcalls 0)) (fun n => source.call_succ n ▸ hcalls (n + 1)) (fun n => ?_) hlog'
          rw [← TokenSource.call_succ, ← TokenSource.call_succ, hquiet]

end Mutes

end Reporter

namespace TokenSource

/-- All that is wrong with what a call delivers concerns the forming of tokens. -/
theorem isLexical_of_mem_call (text : String) (n : Nat) :
    ∀ d ∈ ((scan text).call n).faults, d.message.isLexical := by
  intro d hd
  rw [call] at hd
  cases hreading : (scan text).readings[n]? with
  | none =>
      rw [hreading] at hd
      exact absurd hd List.not_mem_nil
  | some reading =>
      rw [hreading] at hd
      have hmem : reading ∈ (scan text).readings := List.mem_of_getElem? hreading
      exact isLexical_of_mem_faults text d (List.mem_flatMap.2 ⟨reading, hmem, hd⟩)

/-- The tokens of a text, delivered once more without their faults. -/
theorem call_replayed (text : String) (n : Nat) :
    (ofTokens ((scan text).readings.map Reading.token)).call n =
      { token := ((scan text).call n).token } := by
  have hlast : (ofTokens ((scan text).readings.map Reading.token)).last = (scan text).last := by
    rw [ofTokens, List.getLast?_map, Option.map_map]
    rfl
  rw [call, call, hlast, ofTokens, List.getElem?_map, List.getElem?_map]
  cases (scan text).readings[n]? with
  | none => rfl
  | some reading => rfl

/-- The diagnostics on forming tokens are those of the calls that were made. -/
theorem lexical_diagnostics (text : String) (minDistance : Nat) :
    ((scan text).diagnostics minDistance (scan text).compiler.log).toList.filter (·.message.isLexical) =
      (List.range (scan text).compiler.passed).flatMap fun n => (Scanner.after text n).reading.faults := by
  have hreplay := Reporter.lexical_replay (r := .start minDistance) (isLexical_of_mem_call text)
    (scan text).isLexical_of_mem_log
  simp only [call_scan] at hreplay
  exact hreplay

/-- The faults that the first calls meet are those of the first readings. -/
theorem flatMap_calls (text : String) (n : Nat) :
    (List.range n).flatMap (fun k => (Scanner.after text k).reading.faults) =
      ((scan text).readings.take n).flatMap Reading.faults := by
  induction n with
  | zero => rfl
  | succ n ih =>
      rw [List.range_succ, List.flatMap_append, ih, List.flatMap_singleton, List.take_add_one,
        List.flatMap_append, ← call_scan, call]
      cases (scan text).readings[n]? with
      | none => rfl
      | some reading => simp

/-- The tokens of a text may be formed before it is compiled. Then the same image, names for debugging and
symbol table result, and the same diagnostics but for those on the forming of tokens. These are, when tokens
are formed as they are needed, the first of those that forming all tokens leads to. What is formed at a call
of the scanner that is not made has no influence. -/
theorem compile_replays (text : String) (minDistance : Nat) : ∃ c c',
    MicroJava.compile text minDistance = .ok c ∧
    (ofTokens ((scan text).readings.map Reading.token)).compile minDistance = .ok c' ∧
    c'.image = c.image ∧ c'.debug = c.debug ∧ c'.table = c.table ∧
    c'.diagnostics.toList = c.diagnostics.toList.filter (!·.message.isLexical) ∧
    c.diagnostics.toList.filter (·.message.isLexical) <+: (scan text).faults ∧
    ∀ source : TokenSource,
      (∀ n < (scan text).compiler.passed, source.call n = (Scanner.after text n).reading) →
      source.compile minDistance = .ok c := by
  have hcompiler : (ofTokens ((scan text).readings.map Reading.token)).compiler = (scan text).compiler := by
    rw [compiler, tokens_ofTokens]
    rfl
  have hmutes : ((Reporter.start minDistance).replay (scan text).last (scan text).readings
      (scan text).compiler.log.toList).Mutes _ :=
    Reporter.Mutes.replay ⟨rfl, rfl, rfl, rfl⟩ (isLexical_of_mem_call text) (call_replayed text)
      (scan text).isLexical_of_mem_log
  refine ⟨_, _, compile_eq_ok (scan text) minDistance, compile_eq_ok _ minDistance, ?_, ?_, ?_, ?_, ?_, ?_⟩
  · rw [hcompiler]
  · rw [hcompiler]
  · rw [hcompiler]
  · rw [hcompiler]
    exact hmutes.diagnostics
  · rw [lexical_diagnostics, flatMap_calls]
    refine ⟨((scan text).readings.drop (scan text).compiler.passed).flatMap Reading.faults, ?_⟩
    rw [← List.flatMap_append, List.take_append_drop]
    rfl
  · intro source hsource
    rw [compile_of_calls fun n hn => (hsource n hn).trans (call_scan text n).symm]
    exact compile_eq_ok _ _

end TokenSource

/-! ### Behind the program -/

namespace Tree

/-- The members of a program end where a closing brace is, or nothing. -/
theorem rest_readMembers (before : List Member) (start ts : List Token) (h : ts <:+ start) :
    (readMembers before start ts h).rest = [] ∨
      ∃ brace us, (readMembers before start ts h).rest = brace :: us ∧ brace.kind = .rightBrace := by
  fun_induction readMembers before start ts h with
  | case1 => exact .inl rfl
  | case2 | case3 | case5 => assumption
  | case4 before t ts _ _ hkind => exact .inr ⟨t, ts, rfl, hkind⟩

/-- What is left behind a program stands behind a closing brace. -/
theorem rest_readProgram (ts : List Token) : (readProgram ts).rest = [] ∨
    ∃ front brace, ts = front ++ brace :: (readProgram ts).rest ∧ brace.kind = .rightBrace := by
  let announced := accept .kwProgram ts
  let name := readName announced.rest
  let declarations := readDeclarations [] name.rest name.rest List.suffix_rfl
  let opened := accept .leftBrace declarations.rest
  let members := readMembers [] opened.rest opened.rest List.suffix_rfl
  have hrest : (readProgram ts).rest = (accept .rightBrace members.rest).rest := rfl
  have hsuffix : members.rest <:+ ts := members.suffix.trans (opened.suffix.trans
    (declarations.suffix.trans (name.suffix.trans announced.suffix)))
  have hends : members.rest = [] ∨ ∃ brace us, members.rest = brace :: us ∧ brace.kind = .rightBrace :=
    rest_readMembers [] opened.rest opened.rest List.suffix_rfl
  rcases hends with hnone | ⟨brace, us, hmembers, hbrace⟩
  · left
    rw [hrest, hnone]
    rfl
  · right
    obtain ⟨front, hfront⟩ := hsuffix
    rw [hmembers] at hfront hrest
    rw [accept, if_pos hbrace] at hrest
    exact ⟨front, brace, by rw [hrest]; exact hfront.symm, hbrace⟩

end Tree

namespace TokenSource

theorem length_readings_scan (text : String) :
    (scan text).readings.length = (scan text).tokens.length + 1 := by
  obtain ⟨m, htokens, hreadings, -⟩ := exists_tokens_scan text
  simp [hreadings, htokens]

/-- The tokens of a text are those taken for the program and those left behind it, which are none unless the
program has its closing brace. The scanner is called for the tokens that are taken, for the token or the
`eof` behind them, and for one more `eof` if it was that. So the diagnostics on the forming of tokens are
those of all tokens, if none is left, and those up to the first token behind the closing brace otherwise. -/
theorem compile_hears (text : String) (minDistance : Nat) : ∃ c taken left,
    MicroJava.compile text minDistance = .ok c ∧
    (scan text).tokens = taken ++ left ∧ left = (readProgram (scan text).tokens).rest ∧
    (left = [] ∨ ∃ brace, taken.getLast? = some brace ∧ brace.kind = .rightBrace) ∧
    (scan text).compiler.passed = taken.length + (if left = [] then 2 else 1) ∧
    c.diagnostics.toList.filter (·.message.isLexical) =
      ((scan text).readings.take (taken.length + 1)).flatMap Reading.faults ∧
    (left = [] → c.diagnostics.toList.filter (·.message.isLexical) = (scan text).faults) := by
  have hcount := (scan text).count_shift_log
  rw [complete_read] at hcount
  obtain ⟨taken, htaken⟩ := (readProgram (scan text).tokens).suffix
  have hlength := congrArg List.length htaken
  rw [List.length_append] at hlength
  have hreadings := length_readings_scan text
  have hpassed : (scan text).compiler.passed =
      taken.length + (if (readProgram (scan text).tokens).rest = [] then 2 else 1) := by
    rw [Compiler.passed]
    split
    · next hleft =>
        rw [hleft, List.isEmpty_nil, Bool.toNat_true] at hcount
        rw [hleft] at hlength
        simp only [List.length_nil] at hcount hlength
        omega
    · next hleft =>
        rw [List.isEmpty_eq_false_iff.2 hleft, Bool.toNat_false] at hcount
        omega
  have hall : (readProgram (scan text).tokens).rest = [] →
      (scan text).readings.length ≤ taken.length + 1 := by
    intro hleft
    rw [hleft, List.length_nil] at hlength
    omega
  refine ⟨_, taken, _, compile_eq_ok (scan text) minDistance, htaken.symm, rfl, ?_, hpassed, ?_, ?_⟩
  · refine (rest_readProgram (scan text).tokens).imp_right ?_
    rintro ⟨front, brace, htokens, hbrace⟩
    have hsame : taken ++ (readProgram (scan text).tokens).rest =
        (front ++ [brace]) ++ (readProgram (scan text).tokens).rest := by
      rw [htaken, List.append_assoc, List.singleton_append]
      exact htokens
    exact ⟨brace, by rw [List.append_cancel_right hsame, List.getLast?_concat], hbrace⟩
  · rw [lexical_diagnostics, flatMap_calls, hpassed]
    split
    · next hleft =>
        have hle := hall hleft
        rw [List.take_of_length_le hle, List.take_of_length_le (hle.trans (Nat.le_succ _))]
    · rfl
  · intro hleft
    rw [lexical_diagnostics, flatMap_calls, hpassed, if_pos hleft,
      List.take_of_length_le ((hall hleft).trans (Nat.le_succ _))]
    rfl

/-- Behind the closing brace of this program there are a name and a character that begins no token. The name
is reported, but the character is not. -/
theorem compile_misses_character : ∃ c,
    (scan "program P \x7b void main() \x7b \x7d \x7d x $").compile defaultDistance = .ok c ∧
    c.diagnostics.toList = [⟨⟨1, 31⟩, .expected .eof⟩] ∧
    (scan "program P \x7b void main() \x7b \x7d \x7d x $").faults = [⟨⟨1, 33⟩, .invalidChar '$'⟩] := by
  have hdiagnostics : ((scan "program P \x7b void main() \x7b \x7d \x7d x $").compile
      defaultDistance).toOption.map (·.diagnostics.toList) = some [⟨⟨1, 31⟩, .expected .eof⟩] := by
    decide +kernel
  refine ⟨_, compile_eq_ok _ _, ?_, by decide +kernel⟩
  rw [compile_eq_ok] at hdiagnostics
  exact Option.some.inj hdiagnostics

end TokenSource

end MicroJava
