import Mathlib.Data.List.Forall2
import MicroJava.Proofs.Arrivals

/-!
# Where the tokens stand

What a program compiles to does not depend on where its tokens stand. If two sources deliver the same
tokens, but for their places, and the same messages with them (`TokenSource.Moves`), they compile to the
same, but for the places of the diagnostics (`TokenSource.compile_moves`). So do two texts with the same
lexemes and other gaps between them (`Respaced`): of a lexeme the same is read, whatever follows it
(`Lexeme.Heads.read_eq`).
-/

namespace MicroJava

/-- What a token is, wherever it stands. -/
def Token.content (t : Token) : Kind × String × Int :=
  (t.kind, t.name, t.value)

theorem Token.exists_position_of_content {t t' : Token} (h : t'.content = t.content) :
    ∃ p, t' = { t with position := p } := by
  obtain ⟨kind, p, name, value⟩ := t'
  obtain ⟨rfl, rfl, rfl⟩ : kind = t.kind ∧ name = t.name ∧ value = t.value := by
    simpa [content, Prod.ext_iff] using h
  exact ⟨p, rfl⟩

/-- The same is read, maybe at another place. -/
structure Reading.Moves (reading reading' : Reading) : Prop where
  token : reading'.token.content = reading.token.content
  messages : reading'.faults.map Diagnostic.message = reading.faults.map Diagnostic.message

/-- The same was compiled, but the diagnostics may stand at other places. -/
structure Compilation.Moves (c c' : Compilation) : Prop where
  image : c'.image = c.image
  debug : c'.debug = c.debug
  table : c'.table = c.table
  messages : c'.diagnostics.toList.map Diagnostic.message = c.diagnostics.toList.map Diagnostic.message

/-- Two sources that deliver the same at each call, maybe at other places. -/
def TokenSource.Moves (source source' : TokenSource) : Prop :=
  ∀ n, (source.call n).Moves (source'.call n)

/-! ### Sources -/

namespace Reporter

variable {source source' : TokenSource} {r r' : Reporter}

/-- Two reporters that have counted the same and show the same, maybe at other places. -/
structure Moves (r r' : Reporter) : Prop where
  minDistance : r'.minDistance = r.minDistance
  distance : r'.distance = r.distance
  messages : r'.diagnostics.toList.map Diagnostic.message = r.diagnostics.toList.map Diagnostic.message

namespace Moves

theorem resync (h : r.Moves r') : r.resync.Moves r'.resync :=
  ⟨h.minDistance, rfl, h.messages⟩

/-- Whether a fault is shown is decided by the distance and not by the place. -/
theorem fault (h : r.Moves r') (m : Message) : (r.fault m).Moves (r'.fault m) := by
  rw [Reporter.fault, Reporter.fault, h.minDistance, h.distance]
  split
  · refine ⟨h.minDistance, rfl, ?_⟩
    simp [Reporter.resync, report, h.messages]
  · exact h.resync

theorem fetch (h : r.Moves r') {reading reading' : Reading} (hreading : reading.Moves reading') :
    (r.fetch reading).Moves (r'.fetch reading') := by
  rw [fetch_eq, fetch_eq]
  refine ⟨h.minDistance, ?_, ?_⟩
  · simp only [advance, h.distance]
  · simp only [Array.toList_appendList, List.map_append, h.messages, hreading.messages]

theorem replay (h : r.Moves r') (hsource : source.Moves source') (log : List Event) :
    (r.replay source.last source.readings log).Moves (r'.replay source'.last source'.readings log) := by
  induction log generalizing source source' r r' with
  | nil => rwa [replay_nil, replay_nil]
  | cons e log ih =>
      cases e with
      | fault m => exact ih (h.fault m) hsource
      | resync => exact ih h.resync hsource
      | shift =>
          rw [replay_shift, replay_shift]
          refine ih (h.fetch (hsource 0)) fun n => ?_
          rw [← TokenSource.call_succ, ← TokenSource.call_succ]
          exact hsource (n + 1)

end Moves

end Reporter

namespace TokenSource

variable {source source' : TokenSource}

/-- Readings that are the same but for their places make calls that are. -/
theorem moves_of_forall₂ (h : List.Forall₂ Reading.Moves source.readings source'.readings) :
    source.Moves source' := by
  intro n
  rw [call, call]
  generalize source.readings = readings, source'.readings = readings' at h
  induction h generalizing n with
  | nil => exact ⟨rfl, rfl⟩
  | cons hreading _ ih =>
      cases n with
      | zero => exact hreading
      | succ n => exact ih n

theorem compiler_of_moves (h : source.Moves source') : source'.compiler = source.compiler := by
  have htokens (n : Nat) : Tree.Alike n source.tokens source'.tokens :=
    alike_tokens fun k _ => Token.exists_position_of_content (h k).token
  rw [compiler, compiler, Tree.Program.read_of_alike (htokens (source.tokens.length + 1)) (by omega)]

/-- Sources that deliver the same, but for the places, compile to the same, but for the places. -/
theorem compile_moves (h : source.Moves source') (minDistance : Nat) :
    ∃ c c', source.compile minDistance = .ok c ∧ source'.compile minDistance = .ok c' ∧ c.Moves c' := by
  have hcompiler := compiler_of_moves h
  refine ⟨_, _, compile_eq_ok source minDistance, compile_eq_ok source' minDistance, ?_⟩
  rw [hcompiler]
  have hstart : (Reporter.start minDistance).Moves (.start minDistance) := ⟨rfl, rfl, rfl⟩
  exact ⟨rfl, rfl, rfl, (hstart.replay h source.compiler.log.toList).messages⟩

end TokenSource

/-! ### Lexemes -/

namespace Lexeme

/-- The characters of the lexeme that is read at the beginning of a text, and the text behind them. In
front of them neither a separator nor a comment begins. -/
structure Heads (w rest : List Char) : Prop where
  ne_nil : w ≠ []
  clear : Scan.Clear (w ++ rest)
  length : (read (w ++ rest)).length = w.length

variable {w rest rest' : List Char}

theorem takeWhile_append_of_length {p : Char → Bool} (h : ((w ++ rest).takeWhile p).length = w.length) :
    (w ++ rest).takeWhile p = w :=
  (List.prefix_of_prefix_length_le (List.takeWhile_prefix p) (List.prefix_append w rest)
    h.le).eq_of_length h

theorem word_eq (h : (word (w ++ rest)).length = w.length) (h' : (word (w ++ rest')).length = w.length) :
    word (w ++ rest') = word (w ++ rest) := by
  rw [length_word] at h h'
  rw [word, word, takeWhile_append_of_length h, takeWhile_append_of_length h']

theorem number_eq_number (h : (number (w ++ rest)).length = w.length)
    (h' : (number (w ++ rest')).length = w.length) : number (w ++ rest') = number (w ++ rest) := by
  rw [length_number] at h h'
  rw [number, number, takeWhile_append_of_length h, takeWhile_append_of_length h']

/-- Whether the closing quote is there is seen from the length. -/
theorem closeQuote_eq {n : Nat} {v : Int} {fs : List Message}
    (h : (closeQuote n v fs (w ++ rest)).length = n + w.length)
    (h' : (closeQuote n v fs (w ++ rest')).length = n + w.length) :
    closeQuote n v fs (w ++ rest') = closeQuote n v fs (w ++ rest) := by
  have hopen (cs : List Char) (hcs : (closeQuote n v fs cs).length = n) :
      closeQuote n v fs cs = { kind := .charConst, length := n, faults := fs ++ [.missingQuote] } := by
    unfold closeQuote at hcs ⊢
    split
    · simp at hcs
    · rfl
  have hclosed (cs : List Char) (hcs : (closeQuote n v fs cs).length ≠ n) :
      closeQuote n v fs cs = { kind := .charConst, length := n + 1, value := v, faults := fs } := by
    unfold closeQuote at hcs ⊢
    split
    · rfl
    · simp at hcs
  by_cases hw : w.length = 0
  · rw [hopen _ (by omega), hopen _ (by omega)]
  · rw [hclosed _ (by omega), hclosed _ (by omega)]

theorem charConst_cons {c : Char} (hc : c ≠ '\\') (cs : List Char) : charConst (c :: cs) =
    if c = '\'' then { kind := .charConst, length := 2, faults := [.emptyCharConst] }
    else if c = '\n' ∨ c = '\r' then { kind := .charConst, length := 1, faults := [.lineEndInCharConst] }
    else closeQuote 2 c.toNat [] cs := by
  rw [charConst]
  · exact fun h _ => hc h
  · exact fun _ _ h _ => hc h

/-- A constant that ends behind its first quote ends there with the line. -/
theorem charConst_of_length_eq_one {cs : List Char} (hne : cs ≠ []) (h : (charConst cs).length = 1) :
    charConst cs = { kind := .charConst, length := 1, faults := [.lineEndInCharConst] } := by
  have hquote {n : Nat} {v : Int} {fs : List Message} {ds : List Char} (hn : 1 < n) :
      (closeQuote n v fs ds).length ≠ 1 :=
    (Nat.lt_of_lt_of_le hn (le_length_closeQuote n v fs ds)).ne'
  obtain ⟨c, cs, rfl⟩ := List.exists_cons_of_ne_nil hne
  by_cases hc : c = '\\'
  · subst hc
    rcases cs with _ | ⟨d, cs⟩
    · cases h
    · rw [charConst] at h
      split at h <;> exact absurd h (hquote (by decide))
  · rw [charConst_cons hc] at h ⊢
    split at h
    · cases h
    · next hempty =>
        rw [if_neg hempty]
        split at h
        · next hend => rw [if_pos hend]
        · exact absurd h (hquote (by decide))

/-- A quote alone is no character constant if the line or the text ends behind it, which makes two
different messages. -/
theorem charConst_eq (h : (charConst (w ++ rest)).length = w.length + 1)
    (h' : (charConst (w ++ rest')).length = w.length + 1) (hquote : w = [] → (rest = [] ↔ rest' = [])) :
    charConst (w ++ rest') = charConst (w ++ rest) := by
  rcases w with _ | ⟨c, w⟩
  · simp only [List.nil_append] at h h' ⊢
    by_cases hrest : rest = []
    · rw [hrest, (hquote rfl).1 hrest]
    · rw [charConst_of_length_eq_one hrest h, charConst_of_length_eq_one (mt (hquote rfl).2 hrest) h']
  rw [List.cons_append, List.length_cons] at h h'
  rw [List.cons_append, List.cons_append]
  by_cases hc : c = '\\'
  · subst hc
    rcases w with _ | ⟨d, w⟩
    -- Behind a backslash a character would belong to the constant.
    · have hend {cs : List Char} (hcs : (charConst ('\\' :: cs)).length = 2) : cs = [] := by
        by_contra hne
        obtain ⟨d, cs, rfl⟩ := List.exists_cons_of_ne_nil hne
        have hle {v : Int} {fs : List Message} := le_length_closeQuote 3 v fs cs
        rw [charConst] at hcs
        split at hcs <;> exact absurd (hcs ▸ hle) (by decide)
      rw [hend h, hend h']
    · rw [List.cons_append, charConst] at h h' ⊢
      rw [List.cons_append, charConst]
      rw [List.length_cons] at h h'
      cases hescape : escape? d with
      | some e =>
          simp only [hescape] at h h' ⊢
          exact closeQuote_eq (by omega) (by omega)
      | none =>
          simp only [hescape] at h h' ⊢
          exact closeQuote_eq (by omega) (by omega)
  · rw [charConst_cons hc] at h h' ⊢
    rw [charConst_cons hc]
    split at h
    · next hempty => rw [if_pos hempty, if_pos hempty]
    · next hempty =>
        rw [if_neg hempty] at h' ⊢
        rw [if_neg hempty]
        split at h
        · next hend => rw [if_pos hend, if_pos hend]
        · next hend =>
            rw [if_neg hend] at h' ⊢
            rw [if_neg hend]
            exact closeQuote_eq (by omega) (by omega)

theorem symbol_eq {c : Char} (h : (symbol c (w ++ rest)).length = w.length + 1)
    (h' : (symbol c (w ++ rest')).length = w.length + 1) :
    symbol c (w ++ rest') = symbol c (w ++ rest) := by
  have hinjective : ∀ a ∈ spellings, ∀ b ∈ spellings, a.1 = b.1 → a = b := by decide +kernel
  -- A spelling of that length is the whole lexeme.
  have hwhole {a : List Char × Kind} {more : List Char}
      (hfind : spellings.find? (·.1.isPrefixOf (c :: (w ++ more))) = some a)
      (hlength : a.1.length = w.length + 1) : a.1 = c :: w := by
    have hfound := List.find?_some hfind
    have hstarts := List.isPrefixOf_iff_prefix.1 hfound
    exact (List.prefix_of_prefix_length_le hstarts (List.prefix_append (c :: w) more)
      hlength.le).eq_of_length hlength
  have hfound {a : List Char × Kind} {more : List Char} (ha : a ∈ spellings) (hspells : a.1 = c :: w)
      (hnone : spellings.find? (·.1.isPrefixOf (c :: (w ++ more))) = none) : False :=
    List.find?_eq_none.1 hnone a ha
      (List.isPrefixOf_iff_prefix.2 (hspells ▸ List.prefix_append (c :: w) more))
  unfold symbol at h h' ⊢
  cases hfind : spellings.find? (·.1.isPrefixOf (c :: (w ++ rest))) with
  | none =>
      rw [hfind] at h
      cases hfind' : spellings.find? (·.1.isPrefixOf (c :: (w ++ rest'))) with
      | none => rfl
      | some a' =>
          rw [hfind'] at h'
          exact (hfound (List.mem_of_find?_eq_some hfind') (hwhole hfind' h') hfind).elim
  | some a =>
      rw [hfind] at h
      cases hfind' : spellings.find? (·.1.isPrefixOf (c :: (w ++ rest'))) with
      | none => exact (hfound (List.mem_of_find?_eq_some hfind) (hwhole hfind h) hfind').elim
      | some a' =>
          rw [hfind'] at h'
          rw [hinjective a' (List.mem_of_find?_eq_some hfind') a (List.mem_of_find?_eq_some hfind)
            ((hwhole hfind' h').trans (hwhole hfind h).symm)]

/-- Of a lexeme the same is read, whatever follows it. -/
theorem Heads.read_eq (h : Heads w rest) (h' : Heads w rest')
    (hquote : w = ['\''] → (rest = [] ↔ rest' = [])) : read (w ++ rest') = read (w ++ rest) := by
  obtain ⟨c, w, rfl⟩ := List.exists_cons_of_ne_nil h.ne_nil
  have hlength := h.length
  have hlength' := h'.length
  simp only [List.cons_append, read, List.length_cons] at hlength hlength' ⊢
  split
  · next halpha =>
      rw [if_pos halpha] at hlength hlength'
      exact word_eq (w := c :: w) hlength hlength'
  · next halpha =>
      rw [if_neg halpha] at hlength hlength'
      split
      · next hdigit =>
          rw [if_pos hdigit] at hlength hlength'
          exact number_eq_number (w := c :: w) hlength hlength'
      · next hdigit =>
          rw [if_neg hdigit] at hlength hlength'
          split
          · next hc =>
              rw [if_pos hc] at hlength hlength'
              exact charConst_eq hlength hlength' fun hw => hquote (by rw [hc, hw])
          · next hc =>
              rw [if_neg hc] at hlength hlength'
              exact symbol_eq hlength hlength'

end Lexeme

/-! ### Texts -/

open Lexeme

/-- Two texts have the same lexemes, and maybe other gaps between them. Behind the last lexeme a comment is
open in both texts or in none. A quote that opens no character constant stands at the end of both texts or
of none, because there is another message where only its line ends. -/
inductive Respaced : List Char → List Char → Prop
  | closed {gap gap' : List Char} (hgap : IsGap gap) (hgap' : IsGap gap') : Respaced gap gap'
  | opened {gap gap' : List Char} (hgap : IsOpenGap gap) (hgap' : IsOpenGap gap') : Respaced gap gap'
  | lexeme {gap gap' w rest rest' : List Char} (hgap : IsGap gap) (hgap' : IsGap gap')
      (hw : Heads w rest) (hw' : Heads w rest') (hquote : w = ['\''] → (rest = [] ↔ rest' = []))
      (h : Respaced rest rest') : Respaced (gap ++ (w ++ rest)) (gap' ++ (w ++ rest'))

/-- Any text consists of lexemes with gaps between them, so it has those of itself. -/
theorem Respaced.refl (cs : List Char) : Respaced cs cs := by
  induction hn : cs.length using Nat.strongRecOn generalizing cs with
  | ind n ih =>
      subst hn
      rcases exists_gap cs with ⟨gap, cs, rfl, hgap, hclear⟩ | hopen
      · by_cases hne : cs = []
        · rw [hne, List.append_nil]
          exact .closed hgap hgap
        · have hle := length_read_le cs
          have hpos : (read cs).length ≠ 0 := mt length_read_eq_zero.1 hne
          have hsplit := List.take_append_drop (read cs).length cs
          have hheads : Heads (cs.take (read cs).length) (cs.drop (read cs).length) := by
            refine ⟨?_, by rwa [hsplit], ?_⟩
            · rw [← List.length_pos_iff, List.length_take]
              omega
            · rw [hsplit, List.length_take, Nat.min_eq_left hle]
          have hrest := ih (cs.drop (read cs).length).length
            (by simp only [List.length_append, List.length_drop]; omega) _ rfl
          have h := Respaced.lexeme hgap hgap hheads hheads (fun _ => Iff.rfl) hrest
          rwa [hsplit] at h
      · exact .opened hopen hopen

/-- What was written for a terminal is a lexeme in front of a gap. -/
theorem Lexeme.heads_print {t : Terminal} {rest : List Char} (ht : t.Printable) (hrest : Parts rest) :
    Heads t.print rest where
  ne_nil := (Terminal.spells_print ht).ne_nil
  clear := (Terminal.spells_print ht).clear_append hrest
  length := by
    rw [read_of_longest ((Terminal.spells_print ht).longest_append hrest)]
    rfl

/-- The gaps between printed terminals may be any. -/
theorem respaced_printed {lead lead' : List Char} {ws ws' : List (Terminal × List Char)}
    (hlead : IsGap lead) (hlead' : IsGap lead') (h : Separated ws) (h' : Separated ws')
    (hsame : ws'.map Prod.fst = ws.map Prod.fst) : Respaced (printed lead ws) (printed lead' ws') := by
  induction ws generalizing lead lead' ws' with
  | nil =>
      obtain rfl := List.map_eq_nil_iff.1 hsame
      rw [printed, printed, List.flatMap_nil, List.append_nil, List.append_nil]
      exact .closed hlead hlead'
  | cons w ws ih =>
      obtain ⟨t, gap⟩ := w
      obtain ⟨w', ws', rfl, ht, hws⟩ := List.map_eq_cons_iff.1 hsame
      obtain ⟨t', gap'⟩ := w'
      obtain rfl : t' = t := ht
      have hprintable : t'.Printable := h.printable (t', gap) List.mem_cons_self
      rw [printed_cons, printed_cons]
      refine .lexeme hlead hlead' (heads_print hprintable h.parts_printed)
        (heads_print hprintable h'.parts_printed) (fun hquote => ?_)
        (ih (h.gaps (t', gap) List.mem_cons_self) (h'.gaps (t', gap') List.mem_cons_self) h.tail h'.tail hws)
      have hspells := Terminal.spells_print hprintable
      rw [hquote] at hspells
      rcases hspells.of_quote with ⟨c, -, hnil⟩ | ⟨e, hnil⟩ <;> cases hnil

namespace Scan

/-- Behind a gap a lexeme is taken. -/
theorem step_heads {gap w rest : List Char} (hgap : IsGap gap) (h : Heads w rest) (p : Position) :
    step p (gap ++ (w ++ rest)) =
      { reading :=
          { token :=
              { kind := (Lexeme.read (w ++ rest)).kind, position := p.advance gap
                name := (Lexeme.read (w ++ rest)).name, value := (Lexeme.read (w ++ rest)).value }
            faults := (Lexeme.read (w ++ rest)).faults.map (Diagnostic.mk (p.advance gap)) }
        rest, position := (p.advance gap).advance w } := by
  rw [step, hgap.skipGap_append h.clear]
  simp only [h.length, List.drop_left, List.take_left, Option.map_none, Option.toList_none, List.nil_append]

/-- A comment that is not closed ends the text. -/
theorem step_openGap {cs : List Char} (h : IsOpenGap cs) (p : Position) : ∃ q,
    (step p cs).reading = { token := { kind := .eof, position := p.advance cs }, faults := [⟨q, .endInComment⟩] } := by
  obtain ⟨gap, inner, rfl, hgap, hinner⟩ := h
  rw [step, skipGap_openGap hgap hinner]
  exact ⟨_, rfl⟩

theorem moves_readings {cs cs' : List Char} (h : Respaced cs cs') (p p' : Position) :
    List.Forall₂ Reading.Moves (readings p cs #[]).toList (readings p' cs' #[]).toList := by
  induction h generalizing p p' with
  | closed hgap hgap' =>
      rw [readings_of_eq_eof (by rw [step_gap hgap]), readings_of_eq_eof (by rw [step_gap hgap']),
        step_gap hgap, step_gap hgap']
      exact .cons ⟨rfl, rfl⟩ .nil
  | opened hgap hgap' =>
      obtain ⟨q, hq⟩ := step_openGap hgap p
      obtain ⟨q', hq'⟩ := step_openGap hgap' p'
      rw [readings_of_eq_eof (by rw [hq]), readings_of_eq_eof (by rw [hq']), hq, hq']
      exact .cons ⟨rfl, rfl⟩ .nil
  | @lexeme gap gap' w rest rest' hgap hgap' hw hw' hquote _ ih =>
      have hstep := step_heads hgap hw p
      have hstep' := step_heads hgap' hw' p'
      rw [hw.read_eq hw' hquote] at hstep'
      have hkind : (Lexeme.read (w ++ rest)).kind ≠ .eof := by
        rw [ne_eq, read_kind_eq_eof, List.append_eq_nil_iff]
        exact fun h => hw.ne_nil h.1
      have hne : (step p (gap ++ (w ++ rest))).reading.token.kind ≠ .eof := by rwa [hstep]
      have hne' : (step p' (gap' ++ (w ++ rest'))).reading.token.kind ≠ .eof := by rwa [hstep']
      rw [readings_of_ne_eof hne, readings_of_ne_eof hne', hstep, hstep']
      refine .cons ⟨rfl, ?_⟩ (ih _ _)
      simp only [List.map_map]
      rfl

end Scan

namespace TokenSource

/-- Where the tokens stand has no influence on what is compiled. From two lists of tokens that agree in
kind, name and value, and from two texts that have the same lexemes with other gaps between them, the same
image, names for debugging and symbol table result, and the same messages in the same order. -/
theorem compile_anywhere (minDistance : Nat) :
    (∀ ts ts' : List Token, ts'.map Token.content = ts.map Token.content →
      ∃ c c', (ofTokens ts).compile minDistance = .ok c ∧ (ofTokens ts').compile minDistance = .ok c' ∧
        c.Moves c') ∧
    ∀ text text' : String, Respaced text.toList text'.toList →
      ∃ c c', MicroJava.compile text minDistance = .ok c ∧ MicroJava.compile text' minDistance = .ok c' ∧
        c.Moves c' := by
  constructor
  · intro ts ts' h
    have hcontents : List.Forall₂ (· = ·) (ts.map Token.content) (ts'.map Token.content) := by
      rw [h, List.forall₂_eq_eq_eq]
    refine compile_moves (moves_of_forall₂ ?_) minDistance
    rw [List.forall₂_map_left_iff, List.forall₂_map_right_iff] at hcontents
    rw [ofTokens, ofTokens, List.forall₂_map_left_iff, List.forall₂_map_right_iff]
    exact hcontents.imp fun _ _ hcontent => ⟨hcontent.symm, rfl⟩
  · intro text text' h
    exact compile_moves (moves_of_forall₂ (Scan.moves_readings h .start .start)) minDistance

/-- A name behind the word that begins a program, with a comment between them and without. -/
theorem compile_anywhere_program :
    (([⟨.kwProgram, ⟨1, 1⟩, "", 0⟩, ⟨.ident, ⟨7, 2⟩, "p", 0⟩] : List Token).map Token.content =
        ([⟨.kwProgram, ⟨3, 4⟩, "", 0⟩, ⟨.ident, ⟨3, 4⟩, "p", 0⟩] : List Token).map Token.content ∧
      ∃ c c', (ofTokens [⟨.kwProgram, ⟨3, 4⟩, "", 0⟩, ⟨.ident, ⟨3, 4⟩, "p", 0⟩]).compile 0 = .ok c ∧
        (ofTokens [⟨.kwProgram, ⟨1, 1⟩, "", 0⟩, ⟨.ident, ⟨7, 2⟩, "p", 0⟩]).compile 0 = .ok c' ∧
        c.Moves c') ∧
    Respaced "program p".toList "program/**/p\n".toList ∧
      ∃ c c', MicroJava.compile "program p" 0 = .ok c ∧
        MicroJava.compile "program/**/p\n" 0 = .ok c' ∧ c.Moves c' := by
  have hblank : IsGap [' '] := .separator rfl .nil
  have hline : IsGap ['\n'] := .separator rfl .nil
  have hcomment : IsGap ['/', '*', '*', '/'] := .comment .close .nil
  have hprogram : (Terminal.fixed .kwProgram).Printable := rfl
  have hname : (Terminal.name "p").Printable := ⟨⟨'p', [], rfl, rfl, by simp⟩, by decide⟩
  have h : Separated [(.fixed .kwProgram, [' ']), (.name "p", [])] :=
    ⟨by simp [hname, hprogram], by simp [hblank, IsGap.nil], by simp⟩
  have h' : Separated [(.fixed .kwProgram, ['/', '*', '*', '/']), (.name "p", ['\n'])] :=
    ⟨by simp [hname, hprogram], by simp [hcomment, hline], by simp⟩
  have hrespaced : Respaced "program p".toList "program/**/p\n".toList := respaced_printed .nil .nil h h' rfl
  exact ⟨⟨rfl, (compile_anywhere 0).1 _ _ rfl⟩, hrespaced, (compile_anywhere 0).2 _ _ hrespaced⟩

end TokenSource

end MicroJava
