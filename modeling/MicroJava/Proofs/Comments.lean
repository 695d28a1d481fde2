import MicroJava.Proofs.Printing

/-!
# Comments that are not closed

In front of a token there is a gap in the sense of `IsGap`, behind which neither a separator nor a comment
begins. There is one exception: a comment without an end takes the whole rest of the text
(`exists_gap`). Whether a comment is closed is said by `ClosesComment`, without counting how many are open,
and `skipGap` agrees with that in both cases (`IsGap.skipGap_append`, `skipGap_openGap`).
-/

namespace MicroJava

/-- The text behind the `/*` that opens a comment does not close it. -/
def Unclosed (cs : List Char) : Prop :=
  ∀ inner, inner <+: cs → ¬ ClosesComment inner

variable {c : Char} {cs gap inner rest : List Char}

theorem unclosed_or_exists (cs : List Char) :
    Unclosed cs ∨ ∃ inner rest, cs = inner ++ rest ∧ ClosesComment inner := by
  by_cases h : Unclosed cs
  · exact .inl h
  · obtain ⟨inner, ⟨rest, hrest⟩, hinner⟩ : ∃ inner, inner <+: cs ∧ ClosesComment inner := by
      simpa [Unclosed] using h
    exact .inr ⟨inner, rest, hrest.symm, hinner⟩

/-- A comment that is closed inside does not close the outer one. -/
theorem Unclosed.of_nested (h : Unclosed ('/' :: '*' :: (inner ++ cs))) (hinner : ClosesComment inner) :
    Unclosed cs :=
  fun before hbefore hcloses => h ('/' :: '*' :: (inner ++ before))
    (by simpa [List.prefix_append_right_inj] using hbefore) (.nested hinner hcloses)

theorem Unclosed.of_cons (h : Unclosed (c :: cs)) (hopens : ¬ ['/', '*'] <+: c :: cs) : Unclosed cs := by
  intro before hbefore hcloses
  have hprefix : c :: before <+: c :: cs := List.cons_prefix_cons.2 ⟨rfl, hbefore⟩
  refine h (c :: before) hprefix (.char (fun hb => hopens (hb.trans hprefix)) (fun hb => ?_) hcloses)
  exact h ['*', '/'] (hb.trans hprefix) .close

/-- Behind a `/*` that is not closed the text is passed over up to its end, however many comments are open. -/
theorem skipGap_of_unclosed (h : Unclosed cs) (opened p : Position) (depth : Nat) :
    skipGap opened p (depth + 1) cs =
      { rest := [], position := p.advance cs, unclosed := some opened } := by
  induction hn : cs.length using Nat.strongRecOn generalizing cs p depth with
  | ind n ih =>
      subst hn
      cases cs with
      | nil => rfl
      | cons c cs =>
          by_cases hopens : ['/', '*'] <+: c :: cs
          · obtain ⟨rest, hrest⟩ := hopens
            obtain rfl : c = '/' := (List.cons.inj hrest).1.symm
            obtain rfl : cs = '*' :: rest := (List.cons.inj hrest).2.symm
            -- A comment that is closed inside is passed over, and the rest is not closed either.
            rcases unclosed_or_exists rest with hrest | ⟨inner, more, rfl, hinner⟩
            · exact ih _ (by simp only [List.length_cons]; omega) hrest _ (depth + 1) rfl
            · calc skipGap opened p (depth + 1) ('/' :: '*' :: (inner ++ more))
                  = skipGap opened (p.advance ('/' :: '*' :: inner)) (depth + 1) more :=
                    hinner.skipGap_append opened _ (depth + 1) more
                _ = _ := by
                    rw [ih _ (by simp; omega) (h.of_nested hinner) _ depth rfl, ← Position.advance_append]
                    rfl
          · have hcloses : ¬ ['*', '/'] <+: c :: cs := fun hc => h _ hc .close
            rw [skipGap_char _ _ _ hopens hcloses, if_neg (by simp),
              ih _ (by simp) (h.of_cons hopens) _ depth rfl]
            rfl

theorem IsGap.append {gap' : List Char} (h : IsGap gap) (h' : IsGap gap') : IsGap (gap ++ gap') := by
  induction h with
  | nil => exact h'
  | separator hc _ ih => exact .separator hc ih
  | comment hinner _ ih => simpa using IsGap.comment hinner ih

/-- Separators and comments, and then a comment that is not closed. -/
def IsOpenGap (cs : List Char) : Prop :=
  ∃ gap inner, cs = gap ++ '/' :: '*' :: inner ∧ IsGap gap ∧ Unclosed inner

theorem IsOpenGap.append (h : IsGap gap) : IsOpenGap cs → IsOpenGap (gap ++ cs)
  | ⟨gap', inner, hcs, hgap', hinner⟩ =>
    ⟨gap ++ gap', inner, by rw [hcs, List.append_assoc], h.append hgap', hinner⟩

/-- A text is a gap up to its first token, unless a comment in front of that is not closed. -/
theorem exists_gap (cs : List Char) :
    (∃ gap rest, cs = gap ++ rest ∧ IsGap gap ∧ Scan.Clear rest) ∨ IsOpenGap cs := by
  induction hn : cs.length using Nat.strongRecOn generalizing cs with
  | ind n ih =>
      subst hn
      have hbehind : ∀ front more, cs = front ++ more → front ≠ [] → IsGap front →
          (∃ gap rest, cs = gap ++ rest ∧ IsGap gap ∧ Scan.Clear rest) ∨ IsOpenGap cs := by
        rintro front more rfl hne hfront
        have hlength := List.length_pos_iff.2 hne
        rcases ih more.length (by simp [hlength]) more rfl with ⟨gap, rest, rfl, hgap, hrest⟩ | hopen
        · exact .inl ⟨front ++ gap, rest, by simp, hfront.append hgap, hrest⟩
        · exact .inr (hopen.append hfront)
      by_cases hopens : ['/', '*'] <+: cs
      · obtain ⟨cs, rfl⟩ := hopens
        rcases unclosed_or_exists cs with hcs | ⟨inner, more, rfl, hinner⟩
        · exact .inr ⟨[], cs, rfl, .nil, hcs⟩
        · exact hbehind ('/' :: '*' :: inner) more rfl (List.cons_ne_nil _ _)
            (by simpa using IsGap.comment hinner IsGap.nil)
      by_cases hseparator : ∃ c ∈ cs.head?, isSeparator c = true
      · obtain ⟨c, hc, hseparator⟩ := hseparator
        obtain ⟨cs, rfl⟩ := List.head?_eq_some_iff.1 hc
        exact hbehind [c] cs rfl (List.cons_ne_nil _ _) (.separator hseparator .nil)
      · refine .inl ⟨[], cs, rfl, .nil, fun c hc => ?_, hopens⟩
        by_contra hother
        exact hseparator ⟨c, hc, by simpa using hother⟩

/-- A comment that is not closed takes the whole text, and is known by the place where it begins. -/
theorem skipGap_openGap (hgap : IsGap gap) (hinner : Unclosed inner) (opened p : Position) :
    skipGap opened p 0 (gap ++ '/' :: '*' :: inner) =
      { rest := [], position := p.advance (gap ++ '/' :: '*' :: inner)
        unclosed := some (p.advance gap) } := by
  obtain ⟨opened', heq⟩ := hgap.exists_skipGap_append opened p ('/' :: '*' :: inner)
  rw [heq, skipGap_opens, if_pos rfl, skipGap_of_unclosed hinner, Position.advance_append]
  rfl

end MicroJava
