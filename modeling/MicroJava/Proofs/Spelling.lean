import Mathlib.Data.List.Induction
import Mathlib.Data.List.TakeWhile
import MicroJava.Token.Scan

/-!
# The lexical grammar

`Spells s t` says that the characters `s` spell the terminal `t`: a reserved word, an operator or a
delimiter has one spelling, an identifier is a letter with letters, digits and underscores behind it, a
number is a run of digits, and a character constant stands between quotes. The grammar says nothing of what
may follow. The longest spelling at the beginning of a text is the token that is read there
(`Lexeme.read_of_longest`), and where no spelling begins there is a fault
(`Lexeme.faults_of_not_spells`). So a step of reading takes the longest spelling, with no fault but that of
a number that is too big (`Scan.step_takes_longest`).
-/

namespace MicroJava

/-- What a token stands for: a kind that has one spelling, an identifier, a number or a character. -/
inductive Terminal where
  | fixed (kind : Kind)
  | name (name : String)
  | number (n : Nat)
  | char (c : Char)
  deriving DecidableEq, Inhabited

open Lexeme

/-- The number that a run of decimal digits stands for. -/
def decimal (digits : List Char) : Nat :=
  Nat.ofDigitChars 10 digits 0

/-- The characters that are written with a backslash, behind what is written instead of them. -/
def escapes : List (Char × Char) :=
  [('n', '\n'), ('r', '\r'), ('\\', '\\'), ('\'', '\'')]

/-- Whether a character constant can be written with the character itself. -/
def IsPlain (c : Char) : Prop :=
  c ≠ '\'' ∧ c ≠ '\\' ∧ c ≠ '\r' ∧ c ≠ '\n'

instance (c : Char) : Decidable (IsPlain c) := inferInstanceAs (Decidable (_ ∧ _))

/-- The characters of the first argument spell the second. -/
inductive Spells : List Char → Terminal → Prop
  | keyword {k : Kind} (h : k ∈ Kind.keywords) : Spells k.label.toList (.fixed k)
  | name {c : Char} {cs : List Char} (letter : c.isAlpha = true)
      (more : ∀ d ∈ cs, d.isAlphanum = true ∨ d = '_')
      (free : ∀ k ∈ Kind.keywords, k.label ≠ String.ofList (c :: cs)) :
      Spells (c :: cs) (.name (String.ofList (c :: cs)))
  | number {c : Char} {cs : List Char} (digits : ∀ d ∈ c :: cs, d.isDigit = true) :
      Spells (c :: cs) (.number (decimal (c :: cs)))
  | plain {c : Char} (h : IsPlain c) : Spells ['\'', c, '\''] (.char c)
  | escaped {e c : Char} (h : (e, c) ∈ escapes) : Spells ['\'', '\\', e, '\''] (.char c)
  | symbol {k : Kind} (h : k ∈ symbols) : Spells k.label.toList (.fixed k)

/-- The text `cs` begins with the spelling `s` of `t`, and with no longer spelling of anything. -/
structure Longest (cs s : List Char) (t : Terminal) : Prop where
  isPrefix : s <+: cs
  spells : Spells s t
  le : ∀ s' t', s' <+: cs → Spells s' t' → s'.length ≤ s.length

namespace Terminal

/-- The kind of the token. -/
def kind : Terminal → Kind
  | fixed k => k
  | name _ => .ident
  | number _ => .number
  | char _ => .charConst

/-- The text of the token: only an identifier has one. -/
def text : Terminal → String
  | name s => s
  | _ => ""

/-- The value of the token. A number that is too big has none. -/
def value : Terminal → Int
  | number n => if n ≤ maxNumber then n else 0
  | char c => c.toNat
  | _ => 0

/-- What is reported about a spelling: that the number is too big. -/
def faults (s : List Char) : Terminal → List Message
  | number n => if n ≤ maxNumber then [] else [.numberTooBig (String.ofList s)]
  | _ => []

/-- The token at a place. -/
def token (t : Terminal) (p : Position) : Token :=
  { kind := t.kind, position := p, name := t.text, value := t.value }

/-- What is read of a spelling. -/
def lexeme (t : Terminal) (s : List Char) : Lexeme :=
  { kind := t.kind, length := s.length, name := t.text, value := t.value, faults := t.faults s }

end Terminal

/-! ### The beginning of a spelling -/

/-- A reserved word is a letter with more letters behind it. -/
theorem label_of_mem_keywords {k : Kind} (h : k ∈ Kind.keywords) :
    k.label.toList.head?.any Char.isAlpha = true ∧ k.label.toList.all isNameChar = true := by
  have hall : ∀ k ∈ Kind.keywords, k.label.toList.head?.any Char.isAlpha = true ∧
      k.label.toList.all isNameChar = true := by
    decide +kernel
  exact hall k h

/-- No operator and no delimiter begins like a word, a number or a character constant. -/
theorem label_of_mem_symbols {k : Kind} (h : k ∈ symbols) :
    k.label.toList.head?.any (fun c => !c.isAlpha && !c.isDigit && c != '\'') = true := by
  have hall : ∀ k ∈ symbols,
      k.label.toList.head?.any (fun c => !c.isAlpha && !c.isDigit && c != '\'') = true := by
    decide +kernel
  exact hall k h

theorem begins_of_mem_symbols {k : Kind} {c : Char} {s : List Char} (h : k ∈ symbols)
    (hs : k.label.toList = c :: s) : c.isAlpha = false ∧ c.isDigit = false ∧ c ≠ '\'' := by
  have hhead := label_of_mem_symbols h
  rw [hs] at hhead
  simpa [and_assoc] using hhead

theorem forall_isNameChar {c : Char} {cs : List Char} (letter : c.isAlpha = true)
    (more : ∀ d ∈ cs, d.isAlphanum = true ∨ d = '_') : ∀ d ∈ c :: cs, isNameChar d = true := by
  intro d hd
  rcases List.mem_cons.1 hd with rfl | hd
  · simp [isNameChar, Char.isAlphanum, letter]
  · simpa [isNameChar] using more d hd

/-- What a spelling is like that begins with `c`. -/
inductive Begins (c : Char) (cs : List Char) : Prop
  | word (letter : c.isAlpha = true) (more : ∀ d ∈ c :: cs, isNameChar d = true)
  | number (digits : ∀ d ∈ c :: cs, d.isDigit = true)
  | plain {d : Char} (hc : c = '\'') (h : IsPlain d) (hcs : cs = [d, '\''])
  | escaped {e d : Char} (hc : c = '\'') (h : (e, d) ∈ escapes) (hcs : cs = ['\\', e, '\''])
  | symbol {k : Kind} (halpha : c.isAlpha = false) (hdigit : c.isDigit = false) (hquote : c ≠ '\'')
      (h : (c :: cs, k) ∈ spellings)

theorem Spells.begins {c : Char} {cs : List Char} {t : Terminal} (h : Spells (c :: cs) t) :
    Begins c cs := by
  generalize hs : c :: cs = s at h
  cases h with
  | keyword hk =>
      obtain ⟨hhead, hall⟩ := label_of_mem_keywords hk
      rw [← hs] at hhead hall
      exact .word (by simpa using hhead) (List.all_eq_true.1 hall)
  | name letter more =>
      obtain ⟨rfl, rfl⟩ := List.cons.inj hs
      exact .word letter (forall_isNameChar letter more)
  | number digits =>
      obtain ⟨rfl, rfl⟩ := List.cons.inj hs
      exact .number digits
  | plain hplain => exact .plain (List.cons.inj hs).1 hplain (List.cons.inj hs).2
  | escaped hmem => exact .escaped (List.cons.inj hs).1 hmem (List.cons.inj hs).2
  | @symbol k hk =>
      obtain ⟨halpha, hdigit, hquote⟩ := begins_of_mem_symbols hk hs.symm
      refine .symbol (k := k) halpha hdigit hquote ?_
      rw [hs]
      exact List.mem_map_of_mem hk

theorem Spells.ne_nil {s : List Char} {t : Terminal} (h : Spells s t) : s ≠ [] := by
  cases h with
  | @keyword k hk =>
      intro hnil
      have hhead := (label_of_mem_keywords hk).1
      rw [hnil] at hhead
      cases hhead
  | @symbol k hk =>
      intro hnil
      have hhead := label_of_mem_symbols hk
      rw [hnil] at hhead
      cases hhead
  | name | number | plain | escaped => exact List.cons_ne_nil _ _

/-- Behind no letter, digit or quote begins an operator or a delimiter. -/
theorem Spells.mem_spellings {c : Char} {cs s : List Char} {t : Terminal} (h : Spells s t)
    (hs : s <+: c :: cs) (halpha : c.isAlpha = false) (hdigit : c.isDigit = false) (hquote : c ≠ '\'') :
    ∃ k, (s, k) ∈ spellings := by
  obtain ⟨d, s, rfl⟩ := List.exists_cons_of_ne_nil h.ne_nil
  obtain rfl := (List.cons_prefix_cons.1 hs).1
  cases h.begins with
  | word letter => exact absurd letter (by simp [halpha])
  | number digits => exact absurd (digits d List.mem_cons_self) (by simp [hdigit])
  | plain hd | escaped hd => exact absurd hd hquote
  | symbol _ _ _ hmem => exact ⟨_, hmem⟩

/-! ### Numbers -/

theorem decimal_append_singleton (ds : List Char) (d : Char) :
    decimal (ds ++ [d]) = decimal ds * 10 + digitValue d := by
  rw [decimal, Nat.ofDigitChars_append, Nat.ofDigitChars_cons, Nat.ofDigitChars_nil, Nat.mul_comm]
  rfl

namespace Lexeme

/-- A number has the value of its digits, unless this is too big. -/
theorem numberValue?_eq (ds : List Char) :
    numberValue? ds = if decimal ds ≤ maxNumber then some (decimal ds) else none := by
  induction ds using List.reverseRecOn with
  | nil => rfl
  | append_singleton ds d ih =>
      have hstep : numberValue? (ds ++ [d]) = (numberValue? ds).bind fun n =>
          if n * 10 + digitValue d ≤ maxNumber then some (n * 10 + digitValue d) else none := by
        rw [numberValue?, List.foldlM_append, numberValue?]
        simp
      rw [hstep, ih, decimal_append_singleton]
      by_cases hds : decimal ds ≤ maxNumber
      · rw [if_pos hds, Option.bind_some]
      · rw [if_neg hds, Option.bind_none, if_neg (by omega)]

theorem number_eq (cs : List Char) : number cs =
    (Terminal.number (decimal (cs.takeWhile Char.isDigit))).lexeme (cs.takeWhile Char.isDigit) := by
  rw [number, numberValue?_eq]
  by_cases h : decimal (cs.takeWhile Char.isDigit) ≤ maxNumber
  · simp [h, Terminal.lexeme, Terminal.kind, Terminal.text, Terminal.value, Terminal.faults]
  · simp [h, Terminal.lexeme, Terminal.kind, Terminal.text, Terminal.value, Terminal.faults]

/-! ### Words -/

/-- The longest word at the beginning of a text. -/
theorem exists_spells_word {c : Char} (hc : c.isAlpha = true) (cs : List Char) :
    ∃ t, Spells ((c :: cs).takeWhile isNameChar) t ∧
      word (c :: cs) = t.lexeme ((c :: cs).takeWhile isNameChar) := by
  have hname : isNameChar c = true := by simp [isNameChar, Char.isAlphanum, hc]
  have hs : (c :: cs).takeWhile isNameChar = c :: cs.takeWhile isNameChar := List.takeWhile_cons_of_pos hname
  rw [word, hs]
  cases hk : Kind.keyword? (String.ofList (c :: cs.takeWhile isNameChar)) with
  | some k =>
      obtain ⟨hmem, hlabel⟩ := Kind.label_of_keyword? hk
      refine ⟨.fixed k, ?_, rfl⟩
      rw [← String.toList_ofList (l := c :: cs.takeWhile isNameChar), ← hlabel]
      exact .keyword hmem
  | none =>
      refine ⟨.name _, .name hc (fun d hd => ?_) fun k hmem hlabel => ?_, rfl⟩
      · simpa [isNameChar] using List.mem_takeWhile_imp hd
      · rw [← hlabel, Kind.keyword?_label hmem] at hk
        cases hk

/-- A run of such characters is read to its end if no more of them can be read. -/
theorem takeWhile_eq_of_length_le {p : Char → Bool} {s rest : List Char} (hs : ∀ d ∈ s, p d = true)
    (hle : ((s ++ rest).takeWhile p).length ≤ s.length) : (s ++ rest).takeWhile p = s := by
  rw [List.takeWhile_append_of_pos hs] at hle ⊢
  have hrest : rest.takeWhile p = [] := List.eq_nil_of_length_eq_zero (by
    rw [List.length_append] at hle
    omega)
  rw [hrest, List.append_nil]

section

variable {s rest cs : List Char} {t : Terminal}

theorem takeWhile_of_longest_word {c : Char} (hc : c.isAlpha = true)
    (hs : ∀ d ∈ c :: s, isNameChar d = true) (h : Longest (c :: s ++ rest) (c :: s) t) :
    (c :: s ++ rest).takeWhile isNameChar = c :: s := by
  obtain ⟨t', ht', -⟩ := exists_spells_word hc (s ++ rest)
  exact takeWhile_eq_of_length_le hs (h.le _ t' (List.takeWhile_prefix _) ht')

/-- The longest operator or delimiter at the beginning of a text comes first in the table. -/
theorem find?_spellings {k : Kind} (hk : (s, k) ∈ spellings)
    (hle : ∀ s' k', (s', k') ∈ spellings → s' <+: s ++ rest → s'.length ≤ s.length) :
    spellings.find? (·.1.isPrefixOf (s ++ rest)) = some (s, k) := by
  have hsorted : spellings.Pairwise fun a b => b.1.length ≤ a.1.length := by decide +kernel
  have hinjective : ∀ a ∈ spellings, ∀ b ∈ spellings, a.1 = b.1 → a = b := by decide +kernel
  have hstarts : s.isPrefixOf (s ++ rest) = true := List.isPrefixOf_iff_prefix.2 (List.prefix_append s rest)
  cases hfind : spellings.find? (·.1.isPrefixOf (s ++ rest)) with
  | none => exact absurd hstarts (List.find?_eq_none.1 hfind _ hk)
  | some found =>
      obtain ⟨hfound, before, after, hsplit, hbefore⟩ := List.find?_eq_some_iff_append.1 hfind
      have hmem : found ∈ spellings := List.mem_of_find?_eq_some hfind
      have hfound := List.isPrefixOf_iff_prefix.1 hfound
      have hlonger : s.length ≤ found.1.length := by
        rw [hsplit] at hk hsorted
        rcases List.mem_append.1 hk with hk | hk
        · have := hbefore _ hk
          rw [hstarts] at this
          cases this
        · rcases List.mem_cons.1 hk with rfl | hk
          · exact le_rfl
          · exact List.rel_of_pairwise_cons (List.pairwise_append.1 hsorted).2.1 hk
      have hinside : s <+: found.1 := List.prefix_of_prefix_length_le (List.prefix_append s rest) hfound hlonger
      have heq : s = found.1 := hinside.eq_of_length (Nat.le_antisymm hlonger (hle _ _ hmem hfound))
      rw [hinjective _ hmem _ hk heq.symm]

theorem read_of_longest_word {c : Char} (hc : c.isAlpha = true) (hs : ∀ d ∈ c :: s, isNameChar d = true)
    (h : Longest (c :: s ++ rest) (c :: s) t) : read (c :: s ++ rest) = word (c :: s) := by
  have hwhole : (c :: s).takeWhile isNameChar = c :: s := List.takeWhile_eq_self_iff.2 hs
  have hword : word (c :: s ++ rest) = word (c :: s) := by
    rw [word, takeWhile_of_longest_word hc hs h, word, hwhole]
  rw [← hword, List.cons_append, read, if_pos hc]

theorem word_label {k : Kind} (h : k ∈ Kind.keywords) :
    word k.label.toList = (Terminal.fixed k).lexeme k.label.toList := by
  have hall : ∀ k ∈ Kind.keywords, word k.label.toList = (Terminal.fixed k).lexeme k.label.toList := by
    decide +kernel
  exact hall k h

theorem word_name {c : Char} (hs : ∀ d ∈ c :: s, isNameChar d = true)
    (free : ∀ k ∈ Kind.keywords, k.label ≠ String.ofList (c :: s)) :
    word (c :: s) = (Terminal.name (String.ofList (c :: s))).lexeme (c :: s) := by
  have hkeyword : Kind.keyword? (String.ofList (c :: s)) = none := by
    by_contra hne
    obtain ⟨k, hk⟩ := Option.ne_none_iff_exists'.1 hne
    obtain ⟨hmem, hlabel⟩ := Kind.label_of_keyword? hk
    exact free k hmem hlabel
  rw [word, List.takeWhile_eq_self_iff.2 hs, hkeyword]
  rfl

theorem isAlpha_of_isDigit {c : Char} (h : c.isDigit = true) : c.isAlpha = false := by
  have hrange : 48 ≤ c.toNat ∧ c.toNat ≤ 57 := by
    simpa [Char.isDigit, UInt32.le_iff_toNat_le] using h
  have halpha : c.isAlpha = (decide (65 ≤ c.val ∧ c.val ≤ 90) ||
    decide (97 ≤ c.val) && decide (c.val ≤ 122)) := rfl
  rw [halpha]
  simp [UInt32.le_iff_toNat_le]
  omega

theorem read_number {c : Char} (hc : c.isDigit = true) : read (c :: cs) = number (c :: cs) := by
  rw [read, if_neg (by simp [isAlpha_of_isDigit hc]), if_pos hc]

/-- The longest number at the beginning of a text. -/
theorem spells_number {c : Char} (hc : c.isDigit = true) (cs : List Char) :
    Spells ((c :: cs).takeWhile Char.isDigit) (.number (decimal ((c :: cs).takeWhile Char.isDigit))) := by
  have hall : ∀ d ∈ (c :: cs).takeWhile Char.isDigit, d.isDigit = true :=
    fun d hd => List.mem_takeWhile_imp hd
  rw [List.takeWhile_cons_of_pos hc] at hall ⊢
  exact .number hall

theorem charConst_plain {c : Char} (h : IsPlain c) (cs : List Char) :
    charConst (c :: cs) = closeQuote 2 c.toNat [] cs := by
  obtain ⟨hquote, hbackslash, hreturn, hline⟩ := h
  simp [charConst, hquote, hbackslash, hreturn, hline]

theorem escape?_eq_some_iff {e c : Char} : escape? e = some c ↔ (e, c) ∈ escapes := by
  unfold escape?
  split_ifs with hn hr hb hq <;> simp_all [escapes, eq_comm]

theorem read_symbol {c : Char} (halpha : c.isAlpha = false) (hdigit : c.isDigit = false)
    (hquote : c ≠ '\'') : read (c :: cs) = symbol c cs := by
  rw [read, if_neg (by simp [halpha]), if_neg (by simp [hdigit]), if_neg hquote]

theorem spells_of_mem_spellings {k : Kind} (h : (s, k) ∈ spellings) : Spells s (.fixed k) := by
  obtain ⟨k', hk', heq⟩ := List.mem_map.1 h
  obtain ⟨rfl, rfl⟩ := Prod.mk.inj heq
  exact .symbol hk'

/-- The longest spelling at the beginning of a text is what is read there. -/
theorem read_of_longest (h : Longest cs s t) : read cs = t.lexeme s := by
  obtain ⟨rest, rfl⟩ := h.isPrefix
  have hs := h.spells
  cases hs with
  | @keyword k hk =>
      obtain ⟨hhead, hall⟩ := label_of_mem_keywords hk
      rw [← word_label hk]
      generalize k.label.toList = s at *
      cases s with
      | nil => cases hhead
      | cons c s => exact read_of_longest_word (by simpa using hhead) (List.all_eq_true.1 hall) h
  | @name c s letter more free =>
      have hs := forall_isNameChar letter more
      rw [← word_name hs free]
      exact read_of_longest_word letter hs h
  | @number c s digits =>
      have hc := digits c List.mem_cons_self
      have hle := h.le _ _ (List.takeWhile_prefix _) (spells_number hc (s ++ rest))
      rw [List.cons_append, read_number hc, number_eq, ← List.cons_append,
        takeWhile_eq_of_length_le digits hle]
  | @plain c hplain => exact charConst_plain hplain ('\'' :: rest)
  | @escaped e c hmem =>
      have hescape := escape?_eq_some_iff.2 hmem
      change charConst ('\\' :: e :: '\'' :: rest) = _
      rw [charConst, hescape]
      rfl
  | @symbol k hk =>
      have hmem : (k.label.toList, k) ∈ spellings := List.mem_map_of_mem hk
      obtain ⟨c, s, hs⟩ := List.exists_cons_of_ne_nil h.spells.ne_nil
      obtain ⟨halpha, hdigit, hquote⟩ := begins_of_mem_symbols hk hs
      rw [hs] at h hmem ⊢
      rw [List.cons_append, read_symbol halpha hdigit hquote, symbol, ← List.cons_append,
        find?_spellings hmem fun s' k' hs' hp => h.le s' _ hp (spells_of_mem_spellings hs')]
      rfl

theorem eq_quote_of_faults_closeQuote {n : Nat} {v : Int} {fs : List Message}
    (h : (closeQuote n v fs cs).faults = []) : fs = [] ∧ ∃ rest, cs = '\'' :: rest := by
  unfold closeQuote at h
  split at h
  · exact ⟨h, _, rfl⟩
  · simp at h

/-- A character constant without a fault is spelled. -/
theorem exists_spells_charConst (h : (charConst cs).faults = []) :
    ∃ s t, s <+: '\'' :: cs ∧ Spells s t := by
  cases cs with
  | nil => cases h
  | cons c cs =>
      by_cases hplain : IsPlain c
      · rw [charConst_plain hplain] at h
        obtain ⟨-, rest, rfl⟩ := eq_quote_of_faults_closeQuote h
        exact ⟨_, _, ⟨rest, rfl⟩, .plain hplain⟩
      by_cases hbackslash : c = '\\'
      · subst hbackslash
        cases cs with
        | nil => cases h
        | cons e cs =>
            rw [charConst] at h
            cases he : escape? e with
            | none =>
                rw [he] at h
                obtain ⟨hnone, -⟩ := eq_quote_of_faults_closeQuote h
                cases hnone
            | some d =>
                rw [he] at h
                obtain ⟨-, rest, rfl⟩ := eq_quote_of_faults_closeQuote h
                exact ⟨_, _, ⟨rest, rfl⟩, .escaped (escape?_eq_some_iff.1 he)⟩
      · have hc : c = '\'' ∨ c = '\r' ∨ c = '\n' := by
          unfold IsPlain at hplain
          tauto
        rcases hc with rfl | rfl | rfl <;> cases h

/-- Where no spelling begins there is a fault. -/
theorem faults_of_not_spells {c : Char} (h : ∀ s t, s <+: c :: cs → ¬ Spells s t) :
    (read (c :: cs)).faults ≠ [] := by
  by_cases halpha : c.isAlpha = true
  · obtain ⟨t, ht, -⟩ := exists_spells_word halpha cs
    exact absurd ht (h _ t (List.takeWhile_prefix _))
  by_cases hdigit : c.isDigit = true
  · exact absurd (spells_number hdigit cs) (h _ _ (List.takeWhile_prefix _))
  by_cases hquote : c = '\''
  · subst hquote
    intro hnone
    obtain ⟨s, t, hs, ht⟩ := exists_spells_charConst hnone
    exact h s t hs ht
  · rw [read_symbol (by simpa using halpha) (by simpa using hdigit) hquote, symbol]
    cases hfind : spellings.find? (·.1.isPrefixOf (c :: cs)) with
    | none => exact List.cons_ne_nil _ _
    | some found =>
        have hmem : found ∈ spellings := List.mem_of_find?_eq_some hfind
        have hstarts := List.find?_some hfind
        exact absurd (spells_of_mem_spellings hmem) (h _ _ (List.isPrefixOf_iff_prefix.1 hstarts))

end

end Lexeme

namespace Scan

/-- A text begins with neither a separator nor a comment. -/
structure Clear (cs : List Char) : Prop where
  separator : ∀ c ∈ cs.head?, isSeparator c = false
  comment : ¬ ['/', '*'] <+: cs

variable {cs : List Char}

theorem skipGap_of_clear (h : Clear cs) (opened p : Position) :
    skipGap opened p 0 cs = { rest := cs, position := p } := by
  fun_cases skipGap opened p 0 cs with
  | case1 => rfl
  | case2 => exact absurd ⟨_, rfl⟩ h.comment
  | case3 cs hzero => rfl
  | case4 cs hzero => exact absurd rfl hzero
  | case5 => rfl
  | case6 c cs _ _ hgoes => exact absurd ⟨rfl, h.separator c rfl⟩ hgoes

/-- Where neither a separator nor a comment begins, the longest spelling at the beginning of the text is
read, and nothing is wrong with it unless it is a number that is too big. Where no spelling begins, some
characters are passed over, and there is a fault. -/
theorem step_takes_longest (p : Position) (h : Clear cs) :
    (∀ s t, Longest cs s t → ∃ rest, cs = s ++ rest ∧ step p cs =
      { reading := { token := t.token p, faults := (t.faults s).map (Diagnostic.mk p) }
        rest, position := p.advance s }) ∧
    (cs ≠ [] → (∀ s t, s <+: cs → ¬ Spells s t) → (step p cs).reading.faults ≠ [] ∧
      ∃ passed, passed ≠ [] ∧ cs = passed ++ (step p cs).rest ∧
        (step p cs).position = p.advance passed) := by
  have hstep : step p cs =
      { reading :=
          { token := { kind := (Lexeme.read cs).kind, position := p, name := (Lexeme.read cs).name
                       value := (Lexeme.read cs).value }
            faults := (Lexeme.read cs).faults.map (Diagnostic.mk p) }
        rest := cs.drop (Lexeme.read cs).length
        position := p.advance (cs.take (Lexeme.read cs).length) } := by
    rw [step, skipGap_of_clear h]
    rfl
  rw [hstep]
  refine ⟨fun s t hlongest => ?_, fun hne hnone => ?_⟩
  · obtain ⟨rest, hrest⟩ := hlongest.isPrefix
    refine ⟨rest, hrest.symm, ?_⟩
    rw [Lexeme.read_of_longest hlongest, ← hrest]
    simp [Terminal.lexeme, Terminal.token]
  · obtain ⟨c, cs, rfl⟩ := List.exists_cons_of_ne_nil hne
    have hpos := Lexeme.length_pos_of_read c cs
    refine ⟨by simpa using Lexeme.faults_of_not_spells hnone, _, ?_, (List.take_append_drop _ _).symm, rfl⟩
    simp
    omega

/-- Of `<=7` the operator is read that is `<=`, and nothing of `!7`, where there is a fault. -/
theorem step_takes_longest_operators :
    (∃ rest, ['<', '=', '7'] = ['<', '='] ++ rest ∧ step .start ['<', '=', '7'] =
      { reading := { token := { kind := .lessEqual, position := .start } }, rest, position := ⟨1, 3⟩ }) ∧
    (step .start ['!', '7']).reading.faults ≠ [] := by
  have hshort : ∀ a ∈ spellings, a.1.length ≤ 2 := by decide +kernel
  have hlongest : Longest ['<', '=', '7'] ['<', '='] (.fixed .lessEqual) := by
    refine ⟨⟨['7'], rfl⟩, .symbol (k := .lessEqual) (by decide), fun s t hs ht => ?_⟩
    obtain ⟨k, hk⟩ := ht.mem_spellings hs (by decide) (by decide) (by decide)
    exact hshort _ hk
  have hother : ∀ a ∈ spellings, ¬ a.1 <+: ['!', '7'] := by decide +kernel
  have hnone : ∀ s t, s <+: ['!', '7'] → ¬ Spells s t := by
    intro s t hs ht
    obtain ⟨k, hk⟩ := ht.mem_spellings hs (by decide) (by decide) (by decide)
    exact hother _ hk hs
  have hless : Clear ['<', '=', '7'] := ⟨by rintro _ ⟨⟩; rfl, by decide⟩
  have hbang : Clear ['!', '7'] := ⟨by rintro _ ⟨⟩; rfl, by decide⟩
  exact ⟨(step_takes_longest .start hless).1 _ _ hlongest,
    ((step_takes_longest .start hbang).2 (by decide) hnone).1⟩

end Scan

end MicroJava
