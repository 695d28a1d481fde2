import MicroJava.Proofs.Spelling

/-!
# Scanning is the inverse of printing

* `skipGap_append`: a gap is passed over whole, whatever comments are nested in it.
* `Spells.longest_append`: in front of a gap, or at the end of the text, a spelling is the longest one.
* `TokenSource.scan_printed`: terminals that are printed one after the other, with gaps between them, are
  the tokens that are read of the text.
-/

namespace MicroJava

open Lexeme

/-! ### Gaps -/

/-- The text of a comment behind the `/*` that opens it, up to the `*/` that closes it. Comments may be
nested, and of a `/*/` the first two characters count. -/
inductive ClosesComment : List Char → Prop
  | close : ClosesComment ['*', '/']
  | nested {inner cs : List Char} (hinner : ClosesComment inner) (hcs : ClosesComment cs) :
      ClosesComment ('/' :: '*' :: (inner ++ cs))
  | char {c : Char} {cs : List Char} (hopens : ¬ ['/', '*'] <+: c :: cs)
      (hcloses : ¬ ['*', '/'] <+: c :: cs) (hcs : ClosesComment cs) : ClosesComment (c :: cs)

/-- Separators and comments, one after the other. -/
inductive IsGap : List Char → Prop
  | nil : IsGap []
  | separator {c : Char} {cs : List Char} (h : isSeparator c = true) (hcs : IsGap cs) : IsGap (c :: cs)
  | comment {inner cs : List Char} (hinner : ClosesComment inner) (hcs : IsGap cs) :
      IsGap ('/' :: '*' :: (inner ++ cs))

/-- Behind a token the text ends, or a gap begins. -/
def Parts (rest : List Char) : Prop :=
  ∀ c ∈ rest.head?, isSeparator c = true ∨ c = '/'

variable {cs gap rest : List Char}

theorem IsGap.parts (h : IsGap gap) : Parts gap := by
  intro c hc
  cases h with
  | nil => cases hc
  | separator hseparator =>
      obtain rfl := Option.some.inj hc
      exact .inl hseparator
  | comment =>
      obtain rfl := Option.some.inj hc
      exact .inr rfl

theorem ClosesComment.ne_nil (h : ClosesComment cs) : cs ≠ [] := by
  cases h <;> exact List.cons_ne_nil _ _

theorem skipGap_opens (opened p : Position) (depth : Nat) (cs : List Char) :
    skipGap opened p depth ('/' :: '*' :: cs) =
      skipGap (if depth = 0 then p else opened) ((p.next '/').next '*') (depth + 1) cs := rfl

/-- Where no comment opens or closes the next character is passed over. -/
theorem skipGap_char (opened p : Position) (depth : Nat) {c : Char}
    (hopens : ¬ ['/', '*'] <+: c :: cs) (hcloses : ¬ ['*', '/'] <+: c :: cs) :
    skipGap opened p depth (c :: cs) = if depth = 0 ∧ isSeparator c = false then
      { rest := c :: cs, position := p } else skipGap opened (p.next c) depth cs := by
  rw [skipGap]
  · rintro cs rfl rfl
    exact hopens ⟨cs, rfl⟩
  · rintro cs rfl rfl
    exact hcloses ⟨cs, rfl⟩

theorem prefix_append_of_ne_nil {x y c : Char} (hcs : cs ≠ []) (h : ¬ [x, y] <+: c :: cs)
    (rest : List Char) : ¬ [x, y] <+: c :: (cs ++ rest) := by
  obtain ⟨d, cs, rfl⟩ := List.exists_cons_of_ne_nil hcs
  simpa [List.cons_prefix_cons] using h

/-- A comment is passed over up to its end. -/
theorem ClosesComment.skipGap_append (h : ClosesComment cs) (opened p : Position) (depth : Nat)
    (rest : List Char) :
    skipGap opened p (depth + 1) (cs ++ rest) = skipGap opened (p.advance cs) depth rest := by
  induction h generalizing p depth rest with
  | close => rfl
  | @nested inner cs _ _ ihinner ihcs =>
      rw [List.cons_append, List.cons_append, List.append_assoc, skipGap_opens, if_neg (by omega), ihinner,
        ihcs, Position.advance_cons, Position.advance_cons, Position.advance_append]
  | @char c cs hopens hcloses hcs ih =>
      have hopens := prefix_append_of_ne_nil hcs.ne_nil hopens rest
      have hcloses := prefix_append_of_ne_nil hcs.ne_nil hcloses rest
      rw [List.cons_append, skipGap_char _ _ _ hopens hcloses, if_neg (by omega), ih]
      rfl

/-- Skipping a gap comes to the text behind it, where the outermost comment that was open counts no more. -/
theorem IsGap.exists_skipGap_append (h : IsGap gap) (opened p : Position) (rest : List Char) :
    ∃ opened', skipGap opened p 0 (gap ++ rest) = skipGap opened' (p.advance gap) 0 rest := by
  induction h generalizing opened p with
  | nil => exact ⟨opened, rfl⟩
  | @separator c cs hc _ ih =>
      have hother : c ≠ '/' ∧ c ≠ '*' := by
        constructor <;> rintro rfl <;> cases hc
      have hopens : ¬ ['/', '*'] <+: c :: (cs ++ rest) :=
        fun h => hother.1 (List.cons_prefix_cons.1 h).1.symm
      have hcloses : ¬ ['*', '/'] <+: c :: (cs ++ rest) :=
        fun h => hother.2 (List.cons_prefix_cons.1 h).1.symm
      rw [List.cons_append, skipGap_char _ _ _ hopens hcloses, if_neg (by simp [hc])]
      exact ih opened (p.next c)
  | @comment inner cs hinner _ ih =>
      rw [List.cons_append, List.cons_append, List.append_assoc, skipGap_opens, hinner.skipGap_append,
        Position.advance_cons, Position.advance_cons, Position.advance_append]
      exact ih _ _

/-- A gap is passed over whole. -/
theorem IsGap.skipGap_append (h : IsGap gap) (hrest : Scan.Clear rest) (opened p : Position) :
    skipGap opened p 0 (gap ++ rest) = { rest, position := p.advance gap } := by
  obtain ⟨opened', heq⟩ := h.exists_skipGap_append opened p rest
  exact heq.trans (Scan.skipGap_of_clear hrest opened' _)

/-! ### Spellings in front of gaps -/

/-- What begins a gap stands in no word, and in no operator behind its first character. -/
theorem not_isNameChar_of_parts {c : Char} (hc : isSeparator c = true ∨ c = '/') :
    isNameChar c = false ∧ c.isDigit = false := by
  simp only [isSeparator, Bool.or_eq_true, decide_eq_true_eq] at hc
  rcases hc with (((rfl | rfl) | rfl) | rfl) | rfl <;> decide

theorem tail_of_mem_spellings {a : List Char × Kind} (h : a ∈ spellings) :
    ∀ c ∈ a.1.tail, ¬ (isSeparator c = true ∨ c = '/') := by
  have hall : (spellings.all fun a => a.1.tail.all fun c => !(isSeparator c || c == '/')) = true := by
    decide +kernel
  intro c hc
  simpa using List.all_eq_true.1 (List.all_eq_true.1 hall a h) c hc

theorem Spells.of_quote {s : List Char} {t : Terminal} (h : Spells ('\'' :: s) t) :
    (∃ c, IsPlain c ∧ s = [c, '\'']) ∨ ∃ e, s = ['\\', e, '\''] := by
  cases h.begins with
  | word letter => cases letter
  | number digits => cases digits _ List.mem_cons_self
  | plain _ hplain hs => exact .inl ⟨_, hplain, hs⟩
  | escaped _ _ hs => exact .inr ⟨_, hs⟩
  | symbol _ _ hquote => exact absurd rfl hquote

/-- No spelling goes on behind another one with what begins a gap. -/
theorem Spells.not_spells_append {s more : List Char} {t t' : Terminal} {c : Char} (h : Spells s t)
    (hc : isSeparator c = true ∨ c = '/') : ¬ Spells (s ++ c :: more) t' := by
  intro hmore
  obtain ⟨hname, hdigit⟩ := not_isNameChar_of_parts hc
  obtain ⟨d, s, rfl⟩ := List.exists_cons_of_ne_nil h.ne_nil
  have hmem : c ∈ d :: (s ++ c :: more) := by simp
  cases hmore.begins with
  | word _ hall => exact absurd (hall c hmem) (by simp [hname])
  | number hall => exact absurd (hall c hmem) (by simp [hdigit])
  | plain hd _ htail =>
      subst hd
      have hlength := congrArg List.length htail
      rcases h.of_quote with ⟨x, -, rfl⟩ | ⟨e, rfl⟩ <;> simp at hlength
  | escaped hd _ htail =>
      subst hd
      rcases h.of_quote with ⟨x, hplain, rfl⟩ | ⟨e, rfl⟩
      · exact hplain.2.1 (List.cons.inj htail).1
      · simp at htail
  | symbol _ _ _ hspelling =>
      exact tail_of_mem_spellings hspelling c (List.mem_append_right s List.mem_cons_self) hc

/-- In front of a gap, or at the end of the text, a spelling is the longest one. -/
theorem Spells.longest_append {s : List Char} {t : Terminal} (h : Spells s t) (hrest : Parts rest) :
    Longest (s ++ rest) s t := by
  refine ⟨List.prefix_append s rest, h, fun s' t' hs' ht' => ?_⟩
  by_contra hlt
  obtain ⟨more, rfl⟩ := List.prefix_of_prefix_length_le (List.prefix_append s rest) hs' (by omega)
  have hmore : more <+: rest := (List.prefix_append_right_inj s).1 hs'
  cases more with
  | nil => simp at hlt
  | cons c more =>
      obtain ⟨after, rfl⟩ := hmore
      exact h.not_spells_append (hrest c rfl) ht'

/-- Neither a separator nor a comment begins where a spelling does. -/
theorem Spells.clear_append {s : List Char} {t : Terminal} (h : Spells s t) (hrest : Parts rest) :
    Scan.Clear (s ++ rest) := by
  have hseparators : (spellings.all fun a => a.1.head?.all fun c => !isSeparator c) = true := by
    decide +kernel
  have hslashes : ∀ a ∈ spellings, a.1.head? = some '/' → a.1 = ['/'] ∨ a.1 = ['/', '='] := by
    decide +kernel
  constructor
  · intro c hc
    by_contra hseparator
    have hseparator : isSeparator c = true := by simpa using hseparator
    obtain ⟨hname, hdigit⟩ := not_isNameChar_of_parts (.inl hseparator)
    have halpha : c.isAlpha = false := by
      simp only [isNameChar, Char.isAlphanum, Bool.or_eq_false_iff] at hname
      exact hname.1.1
    obtain ⟨d, s, rfl⟩ := List.exists_cons_of_ne_nil h.ne_nil
    obtain rfl := Option.some.inj hc
    have hquote : d ≠ '\'' := by
      rintro rfl
      cases hseparator
    obtain ⟨k, hk⟩ := h.mem_spellings List.prefix_rfl halpha hdigit hquote
    have hnone : (!isSeparator d) = true := List.all_eq_true.1 hseparators _ hk
    rw [hseparator] at hnone
    cases hnone
  · rintro ⟨more, hmore⟩
    have hs : s <+: '/' :: '*' :: more := ⟨rest, hmore.symm⟩
    obtain ⟨k, hk⟩ := h.mem_spellings hs (by decide) (by decide) (by decide)
    obtain ⟨d, s, rfl⟩ := List.exists_cons_of_ne_nil h.ne_nil
    obtain rfl := (List.cons_prefix_cons.1 hs).1
    rcases hslashes _ hk rfl with heq | heq
    · obtain ⟨-, rfl⟩ := List.cons.inj heq
      obtain rfl := (List.cons.inj hmore).2
      exact absurd (hrest '*' rfl) (by decide)
    · obtain ⟨-, rfl⟩ := List.cons.inj heq
      cases hmore

/-! ### Printing -/

namespace Terminal

/-- What is written for a terminal: a number is written without zeros before it, and a character stands for
itself unless it needs a backslash. -/
def print : Terminal → List Char
  | fixed k => k.label.toList
  | name s => s.toList
  | number n => (toString n).toList
  | char c =>
    match escapes.find? (·.2 = c) with
    | some (e, _) => ['\'', '\\', e, '\'']
    | none => ['\'', c, '\'']

/-- The terminals that stand for tokens: the kinds with one spelling, the names that are no reserved words,
the numbers that are not too big, and all characters. -/
def Printable : Terminal → Prop
  | fixed k => k.isNamedClass = false
  | name s => (∃ c cs, s.toList = c :: cs ∧ c.isAlpha = true ∧ ∀ d ∈ cs, d.isAlphanum = true ∨ d = '_') ∧
      ∀ k ∈ Kind.keywords, k.label ≠ s
  | number n => n ≤ maxNumber
  | char _ => True

theorem faults_of_printable {t : Terminal} (h : t.Printable) (s : List Char) : t.faults s = [] := by
  cases t with
  | number n => exact if_pos h
  | fixed | name | char => rfl

theorem kind_ne_eof {t : Terminal} (h : t.Printable) : t.kind ≠ .eof := by
  cases t with
  | fixed k =>
      rintro rfl
      cases h
  | name | number | char => exact Kind.noConfusion

/-- What is written for a terminal spells it. -/
theorem spells_print {t : Terminal} (h : t.Printable) : Spells t.print t := by
  cases t with
  | fixed k =>
      have hall : ∀ k : Kind, k.isNamedClass = false → k ∈ Kind.keywords ∨ k ∈ symbols := by
        intro k
        cases k <;> decide
      exact (hall k h).elim .keyword .symbol
  | name s =>
      obtain ⟨⟨c, cs, hs, letter, more⟩, free⟩ := h
      have hname : s = String.ofList (c :: cs) := by rw [← hs, String.ofList_toList]
      subst hname
      rw [print, hs]
      exact .name letter more free
  | number n =>
      have hn : decimal (Nat.toDigits 10 n) = n := Nat.ofDigitChars_ten_toDigits
      have hdigits : ∀ d ∈ Nat.toDigits 10 n, d.isDigit = true :=
        fun d hd => Nat.isDigit_of_mem_toDigits (by decide) (by decide) hd
      rw [print, Nat.toString_eq_ofList_toDigits, String.toList_ofList]
      obtain ⟨c, cs, hcs⟩ := List.exists_cons_of_ne_nil (Nat.toDigits_ne_nil (n := n) (b := 10))
      rw [hcs] at hn hdigits ⊢
      exact hn ▸ .number hdigits
  | char c =>
      rw [print]
      split
      · next e d hfind =>
          obtain rfl : d = c := by simpa using List.find?_some hfind
          exact .escaped (List.mem_of_find?_eq_some hfind)
      · next hfind =>
          have hplain : ∀ a ∈ escapes, a.2 ≠ c := by simpa using hfind
          exact .plain ⟨fun h => hplain ('\'', '\'') (by decide) h.symm,
            fun h => hplain ('\\', '\\') (by decide) h.symm, fun h => hplain ('r', '\r') (by decide) h.symm,
            fun h => hplain ('n', '\n') (by decide) h.symm⟩

end Terminal

/-- The text with a gap before the first terminal and one behind each. -/
def printed (lead : List Char) (ws : List (Terminal × List Char)) : List Char :=
  lead ++ ws.flatMap fun w => w.1.print ++ w.2

/-- A terminal is read in front of a gap. -/
theorem Scan.step_append {gap s rest : List Char} {t : Terminal} (hgap : IsGap gap) (hs : Spells s t)
    (hrest : Parts rest) (p : Position) : Scan.step p (gap ++ (s ++ rest)) =
      { reading := { token := t.token (p.advance gap)
                     faults := (t.faults s).map (Diagnostic.mk (p.advance gap)) }
        rest, position := (p.advance gap).advance s } := by
  rw [step, hgap.skipGap_append (hs.clear_append hrest), read_of_longest (hs.longest_append hrest)]
  simp [Terminal.lexeme, Terminal.token]

theorem Scan.step_gap {gap : List Char} (hgap : IsGap gap) (p : Position) : Scan.step p gap =
    { reading := { token := { kind := .eof, position := p.advance gap } }, rest := []
      position := p.advance gap } := by
  have hend : Clear [] := ⟨by simp, by simp⟩
  have hskip := hgap.skipGap_append hend p p
  rw [List.append_nil] at hskip
  rw [step, hskip]
  rfl

namespace Scan

theorem readings_of_ne_eof {p : Position} {cs : List Char}
    (h : (step p cs).reading.token.kind ≠ .eof) : (readings p cs #[]).toList =
      (step p cs).reading :: (readings (step p cs).position (step p cs).rest #[]).toList := by
  rw [readings.eq_def, dif_neg h, readings_eq_append]
  simp

theorem readings_of_eq_eof {p : Position} {cs : List Char}
    (h : (step p cs).reading.token.kind = .eof) :
    (readings p cs #[]).toList = [(step p cs).reading] := by
  rw [readings.eq_def, dif_pos h]
  rfl

end Scan

/-- What a reading is, wherever its token stands. -/
def Reading.content (r : Reading) : Kind × String × Int × List Diagnostic :=
  (r.token.kind, r.token.name, r.token.value, r.faults)

/-- What is read of a terminal. -/
def Terminal.content (t : Terminal) : Kind × String × Int × List Diagnostic :=
  (t.kind, t.text, t.value, [])

/-- All terminals can be written, gaps stand between them, and only the last gap may be empty. -/
structure Separated (ws : List (Terminal × List Char)) : Prop where
  printable : ∀ w ∈ ws, w.1.Printable
  gaps : ∀ w ∈ ws, IsGap w.2
  parted : ∀ w ∈ ws.dropLast, w.2 ≠ []

theorem printed_cons (lead : List Char) (t : Terminal) (gap : List Char)
    (ws : List (Terminal × List Char)) :
    printed lead ((t, gap) :: ws) = lead ++ (t.print ++ printed gap ws) := by
  rw [printed, List.flatMap_cons, List.append_assoc, printed]

theorem Separated.parts_printed {t : Terminal} {gap : List Char} {ws : List (Terminal × List Char)}
    (h : Separated ((t, gap) :: ws)) : Parts (printed gap ws) := by
  have hgap : IsGap gap := h.gaps (t, gap) List.mem_cons_self
  cases ws with
  | nil =>
      rw [printed, List.flatMap_nil, List.append_nil]
      exact hgap.parts
  | cons w ws =>
      have hne : gap ≠ [] := h.parted (t, gap) (by simp)
      obtain ⟨c, cs, rfl⟩ := List.exists_cons_of_ne_nil hne
      exact hgap.parts

theorem Separated.tail {w : Terminal × List Char} {ws : List (Terminal × List Char)}
    (h : Separated (w :: ws)) : Separated ws where
  printable := fun w' hw' => h.printable w' (List.mem_cons_of_mem w hw')
  gaps := fun w' hw' => h.gaps w' (List.mem_cons_of_mem w hw')
  parted := fun w' hw' => by
    have hne : ws ≠ [] := by
      rintro rfl
      cases hw'
    refine h.parted w' ?_
    rw [List.dropLast_cons_of_ne_nil hne]
    exact List.mem_cons_of_mem w hw'

/-- What was printed is read, and then the end. -/
theorem Scan.readings_printed {lead : List Char} {ws : List (Terminal × List Char)} (hlead : IsGap lead)
    (h : Separated ws) (p : Position) :
    (readings p (printed lead ws) #[]).toList.map Reading.content =
      ws.map (fun w => w.1.content) ++ [(.eof, "", 0, [])] := by
  induction ws generalizing lead p with
  | nil =>
      rw [printed, List.flatMap_nil, List.append_nil]
      have hstep := step_gap hlead p
      rw [readings_of_eq_eof (by rw [hstep]), hstep]
      rfl
  | cons w ws ih =>
      obtain ⟨t, gap⟩ := w
      have ht : t.Printable := h.printable (t, gap) List.mem_cons_self
      have hkind := Terminal.kind_ne_eof ht
      have hstep := step_append hlead (Terminal.spells_print ht) h.parts_printed p
      rw [printed_cons, readings_of_ne_eof (by rw [hstep]; exact hkind), hstep, List.map_cons,
        ih (h.gaps (t, gap) List.mem_cons_self) h.tail, t.faults_of_printable ht]
      rfl

namespace TokenSource

/-- Terminals that are printed with gaps between them are read again, each with its kind, its text and its
value, then the end of the text is read, and nothing is wrong. -/
theorem scan_printed {lead : List Char} {ws : List (Terminal × List Char)} (hlead : IsGap lead)
    (h : Separated ws) :
    (scan (String.ofList (printed lead ws))).readings.map Reading.content =
      ws.map (fun w => w.1.content) ++ [(.eof, "", 0, [])] := by
  rw [scan, String.toList_ofList]
  exact Scan.readings_printed hlead h .start

/-- A slash in front of a comment. -/
theorem scan_printed_slash : (scan "//**/'\\''").readings.map Reading.content =
    [(.slash, "", 0, []), (.charConst, "", 39, []), (.eof, "", 0, [])] := by
  have hcomment : IsGap ['/', '*', '*', '/'] := .comment .close .nil
  have h : Separated [(.fixed .slash, ['/', '*', '*', '/']), (.char '\'', [])] := by
    refine ⟨?_, ?_, ?_⟩
    · simp [Terminal.Printable, Kind.isNamedClass]
    · simp [IsGap.nil, hcomment]
    · simp
  have hread := scan_printed .nil h
  have htext : String.ofList (printed [] [(.fixed .slash, ['/', '*', '*', '/']), (.char '\'', [])]) =
      "//**/'\\''" := by decide +kernel
  rwa [htext] at hread

end TokenSource

end MicroJava
