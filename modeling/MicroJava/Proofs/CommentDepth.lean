import Mathlib.Data.List.Infix
import MicroJava.Proofs.Places

/-!
# Where a comment ends

A comment is read in marks: a `/*`, a `*/`, or one character at which neither stands (`Mark.read`). The two
characters of a pair belong to no other pair, so a `/*/` opens a comment and does not close it. The comment ends
at the first point at which as many `*/` as `/*` have been read (`Mark.Balanced`).

The scanner counts the comments that are open. Inside a comment `skipGap` walks as `skipComment` does, which
comes to an end of the comment or finds none. By induction on the text, for every number of open comments, this
end is the point at which they are balanced (`skipComment_of_balancedAt`, `skipComment_of_forall_not`), and so
the calls of a scanner that come to a comment are known (`Scanner.comment_ends_balanced`).
-/

namespace MicroJava

/-! ### Marks -/

/-- What is read of a comment in one go. -/
inductive Mark where
  | opening
  | closing
  | char (c : Char)
  deriving DecidableEq

namespace Mark

/-- The characters of a mark. -/
def text : Mark → List Char
  | opening => ['/', '*']
  | closing => ['*', '/']
  | char c => [c]

/-- The marks of a text, from left to right. -/
def read : List Char → List Mark
  | [] => []
  | '/' :: '*' :: cs => opening :: read cs
  | '*' :: '/' :: cs => closing :: read cs
  | c :: cs => char c :: read cs

/-- The marks are the whole text. -/
theorem flatMap_text_read (cs : List Char) : (read cs).flatMap text = cs := by
  fun_induction read cs <;> simp_all [text]

/-- In these marks `n` more comments are closed than opened. -/
def Level (n : Nat) (ms : List Mark) : Prop :=
  ms.count closing = ms.count opening + n

section Level

variable {n : Nat} {ms : List Mark} {c : Char}

theorem level_nil : Level n [] ↔ n = 0 := by
  simp [Level, eq_comm]

theorem level_opening : Level n (opening :: ms) ↔ Level (n + 1) ms := by
  simp [Level, Nat.add_assoc, Nat.add_comm 1]

theorem level_closing : Level (n + 1) (closing :: ms) ↔ Level n ms := by
  simp [Level, ← Nat.add_assoc]

theorem level_char : Level n (char c :: ms) ↔ Level n ms := by
  simp [Level]

end Level

/-- At the end of these marks, and at no point before, `n` more comments are closed than opened. -/
structure BalancedAt (n : Nat) (front : List Mark) : Prop where
  level : Level n front
  first : ∀ before, before <+: front → Level n before → before = front

/-- As many comments are opened as closed at the end of these marks, and at no point between their beginning and
their end. -/
structure Balanced (front : List Mark) : Prop where
  ne_nil : front ≠ []
  level : front.count closing = front.count opening
  first : ∀ before, before <+: front → before ≠ [] → before.count closing = before.count opening →
    before = front

section Balanced

variable {n : Nat} {m : Mark} {ms front : List Mark}

theorem BalancedAt.ne_nil (h : BalancedAt (n + 1) front) : front ≠ [] := by
  rintro rfl
  exact absurd (level_nil.1 h.level) n.succ_ne_zero

/-- Behind the first mark as many comments are left to be closed as that mark says. -/
theorem BalancedAt.of_cons {k : Nat} (hm : ∀ ms, Level n (m :: ms) ↔ Level k ms)
    (h : BalancedAt n (m :: front)) : BalancedAt k front where
  level := (hm front).1 h.level
  first before hbefore hlevel := (List.cons.inj (h.first (m :: before)
    (List.cons_prefix_cons.2 ⟨rfl, hbefore⟩) ((hm before).2 hlevel))).2

/-- Of a comment that is balanced, what stands behind its `/*` closes one comment more than it opens. -/
theorem Balanced.behind_opening (h : Balanced (opening :: front)) : BalancedAt 1 front where
  level := level_opening.1 h.level
  first before hbefore hlevel := (List.cons.inj (h.first (opening :: before)
    (List.cons_prefix_cons.2 ⟨rfl, hbefore⟩) (List.cons_ne_nil _ _) (level_opening.2 hlevel))).2

/-- Where there is a point at which as many comments were closed as opened, there is a first one. -/
theorem exists_balanced (hne : ms ≠ []) (h : ms.count closing = ms.count opening) :
    ∃ front, front <+: ms ∧ Balanced front := by
  induction hn : ms.length using Nat.strongRecOn generalizing ms with
  | ind n ih =>
      subst hn
      by_cases hfirst : ∀ before, before <+: ms → before ≠ [] →
          before.count closing = before.count opening → before = ms
      · exact ⟨ms, List.prefix_rfl, hne, h, hfirst⟩
      · push Not at hfirst
        obtain ⟨before, hbefore, hbne, hlevel, hother⟩ := hfirst
        have hlt : before.length < ms.length :=
          hbefore.length_le.lt_of_ne fun heq => hother (hbefore.eq_of_length heq)
        obtain ⟨front, hfront, hbalanced⟩ := ih _ hlt hbne hlevel rfl
        exact ⟨front, hfront.trans hbefore, hbalanced⟩

end Balanced

end Mark

/-! ### The walk over a comment -/

/-- Walks over a comment, inside which `depth` other comments are open, up to the text behind its end. There is
none if the text ends first. -/
def skipComment (p : Position) (depth : Nat) : List Char → Option Scanner
  | [] => none
  | '/' :: '*' :: cs => skipComment ((p.next '/').next '*') (depth + 1) cs
  | '*' :: '/' :: cs =>
    if depth = 0 then some ⟨(p.next '*').next '/', cs⟩
    else skipComment ((p.next '*').next '/') (depth - 1) cs
  | c :: cs => skipComment (p.next c) depth cs

/-- In a comment a gap is passed over as the comment is, and then from its end on. -/
theorem skipGap_eq_skipComment (opened p : Position) (depth : Nat) (cs : List Char) :
    skipGap opened p (depth + 1) cs = match skipComment p depth cs with
      | some behind => skipGap opened behind.position 0 behind.ahead
      | none => { rest := [], position := p.advance cs, unclosed := some opened } := by
  fun_induction skipComment p depth cs with
  | case1 p depth => rfl
  | case2 p depth cs ih => rw [skipGap_opens, if_neg depth.succ_ne_zero, ih]; rfl
  | case3 p cs => rfl
  | case4 p depth cs h ih =>
      obtain ⟨depth, rfl⟩ := Nat.exists_eq_succ_of_ne_zero h
      exact ih
  | case5 p depth c cs hopens hcloses ih =>
      rw [skipGap, if_neg (by simp), ih]
      · rfl
      · exact hopens
      · exact hcloses

variable {cs : List Char}

/-- The end of a comment is where all comments are closed that are open in it, and the comment itself. -/
theorem skipComment_of_balancedAt {front behind : List Mark} (p : Position) (depth : Nat)
    (hcs : Mark.read cs = front ++ behind) (hfront : Mark.BalancedAt (depth + 1) front) :
    skipComment p depth cs = some ⟨p.advance (front.flatMap Mark.text), behind.flatMap Mark.text⟩ := by
  obtain ⟨m, front, rfl⟩ := List.exists_cons_of_ne_nil hfront.ne_nil
  fun_induction skipComment p depth cs generalizing m front with
  | case1 p depth => simp [Mark.read] at hcs
  | case2 p depth cs ih =>
      obtain ⟨rfl, htail⟩ := List.cons.inj hcs
      have hrest := hfront.of_cons fun _ => Mark.level_opening
      obtain ⟨m, front, rfl⟩ := List.exists_cons_of_ne_nil hrest.ne_nil
      exact ih m front htail hrest
  | case3 p cs =>
      obtain ⟨rfl, htail⟩ := List.cons.inj hcs
      -- The comments are balanced behind this mark already.
      have hlevel : Mark.Level 1 [.closing] := Mark.level_closing.2 (Mark.level_nil.2 rfl)
      obtain rfl : [] = front := (List.cons.inj (hfront.first [.closing] (by simp) hlevel)).2
      have hbehind : Mark.read cs = behind := htail
      rw [← hbehind, Mark.flatMap_text_read]
      rfl
  | case4 p depth cs h ih =>
      obtain ⟨depth, rfl⟩ := Nat.exists_eq_succ_of_ne_zero h
      obtain ⟨rfl, htail⟩ := List.cons.inj hcs
      have hrest := hfront.of_cons fun _ => Mark.level_closing
      obtain ⟨m, front, rfl⟩ := List.exists_cons_of_ne_nil hrest.ne_nil
      exact ih m front htail hrest
  | case5 p depth c cs hopens hcloses ih =>
      rw [Mark.read.eq_4 c cs hopens hcloses] at hcs
      obtain ⟨rfl, htail⟩ := List.cons.inj hcs
      have hrest := hfront.of_cons fun _ => Mark.level_char
      obtain ⟨m, front, rfl⟩ := List.exists_cons_of_ne_nil hrest.ne_nil
      exact ih m front htail hrest

/-- There is no end of a comment in a text in which not all comments are closed. -/
theorem skipComment_of_forall_not (p : Position) (depth : Nat)
    (h : ∀ before, before <+: Mark.read cs → ¬ Mark.Level (depth + 1) before) :
    skipComment p depth cs = none := by
  fun_induction skipComment p depth cs with
  | case1 p depth => rfl
  | case2 p depth cs ih =>
      exact ih fun before hbefore hlevel => h (.opening :: before)
        (List.cons_prefix_cons.2 ⟨rfl, hbefore⟩) (Mark.level_opening.2 hlevel)
  | case3 p cs =>
      exact absurd (Mark.level_closing.2 (Mark.level_nil.2 rfl)) (h [.closing] ⟨Mark.read cs, rfl⟩)
  | case4 p depth cs hdepth ih =>
      obtain ⟨depth, rfl⟩ := Nat.exists_eq_succ_of_ne_zero hdepth
      exact ih fun before hbefore hlevel => h (.closing :: before)
        (List.cons_prefix_cons.2 ⟨rfl, hbefore⟩) (Mark.level_closing.2 hlevel)
  | case5 p depth c cs hopens hcloses ih =>
      rw [Mark.read.eq_4 c cs hopens hcloses] at h
      exact ih fun before hbefore hlevel => h (.char c :: before)
        (List.cons_prefix_cons.2 ⟨rfl, hbefore⟩) (Mark.level_char.2 hlevel)

/-! ### Scanning a comment -/

/-- Where no comment is open it does not count where one was. -/
theorem skipGap_zero_congr (opened opened' p : Position) (cs : List Char) :
    skipGap opened p 0 cs = skipGap opened' p 0 cs := by
  induction cs generalizing p with
  | nil => rfl
  | cons c cs ih =>
      by_cases hopens : ['/', '*'] <+: c :: cs
      · obtain ⟨rest, hrest⟩ := hopens
        rw [← hrest]
        rfl
      by_cases hcloses : ['*', '/'] <+: c :: cs
      · obtain ⟨rest, hrest⟩ := hcloses
        rw [← hrest]
        rfl
      · rw [skipGap_char _ _ _ hopens hcloses, skipGap_char _ _ _ hopens hcloses, ih]

theorem Scan.step_congr {p q : Position} {cs ds : List Char}
    (h : skipGap p p 0 cs = skipGap q q 0 ds) : step p cs = step q ds := by
  rw [step, h]
  rfl

namespace Scanner

variable {s : Scanner} {gap : List Char}

/-- The gap in front of a token goes on behind the end of a comment. -/
theorem skipGap_of_comment (hgap : IsGap gap) (hahead : s.ahead = gap ++ '/' :: '*' :: cs) :
    skipGap s.position s.position 0 s.ahead =
      match skipComment (s.position.advance (gap ++ ['/', '*'])) 0 cs with
      | some behind => skipGap (s.position.advance gap) behind.position 0 behind.ahead
      | none => { rest := [], position := s.position.advance s.ahead
                  unclosed := some (s.position.advance gap) } := by
  obtain ⟨opened, heq⟩ := hgap.exists_skipGap_append s.position s.position ('/' :: '*' :: cs)
  rw [hahead, heq, skipGap_opens, if_pos rfl, skipGap_eq_skipComment]
  simp only [Position.advance_append, Position.advance_cons, Position.advance_nil]

/-- What a call does when it comes to a comment. It walks up to the first point at which as many `*/` as `/*`
have been read, and goes on as if the text began there. If there is no such point, it takes the whole text and
reports once, at the `/*` in front, that the text ends in a comment; it reads `eof` at the end of the text, and
so does each call that follows, without a report. -/
theorem comment_ends_balanced (hgap : IsGap gap) (hahead : s.ahead = gap ++ '/' :: '*' :: cs) :
    (∃ front behind, Mark.read ('/' :: '*' :: cs) = front ++ behind ∧ Mark.Balanced front ∧
      skipComment (s.position.advance (gap ++ ['/', '*'])) 0 cs =
        some ⟨s.position.advance (gap ++ front.flatMap Mark.text), behind.flatMap Mark.text⟩ ∧
      s.reading =
        (mk (s.position.advance (gap ++ front.flatMap Mark.text)) (behind.flatMap Mark.text)).reading ∧
      s.next = (mk (s.position.advance (gap ++ front.flatMap Mark.text)) (behind.flatMap Mark.text)).next) ∨
    (∀ front, front <+: Mark.read ('/' :: '*' :: cs) → front ≠ [] →
        front.count .closing ≠ front.count .opening) ∧
      skipComment (s.position.advance (gap ++ ['/', '*'])) 0 cs = none ∧
      s.reading =
        { token := { kind := .eof, position := s.position.advance s.ahead }
          faults := [⟨s.position.advance gap, .endInComment⟩] } ∧
      ∀ n, next^[n + 1] s = ⟨s.position.advance s.ahead, []⟩ ∧
        (next^[n + 1] s).reading =
          { token := { kind := .eof, position := s.position.advance s.ahead } } := by
  have hskip := skipGap_of_comment hgap hahead
  by_cases hexists : ∃ front, front <+: Mark.read ('/' :: '*' :: cs) ∧ Mark.Balanced front
  · obtain ⟨front, ⟨behind, hmarks⟩, hfront⟩ := hexists
    refine .inl ⟨front, behind, hmarks.symm, hfront, ?_⟩
    obtain ⟨m, front, rfl⟩ := List.exists_cons_of_ne_nil hfront.ne_nil
    obtain ⟨rfl, htail⟩ := List.cons.inj hmarks
    have hend : skipComment (s.position.advance (gap ++ ['/', '*'])) 0 cs = some
        ⟨s.position.advance (gap ++ (Mark.opening :: front).flatMap Mark.text),
          behind.flatMap Mark.text⟩ := by
      rw [skipComment_of_balancedAt _ _ htail.symm hfront.behind_opening, ← Position.advance_append,
        List.append_assoc]
      rfl
    rw [hend] at hskip
    have hstep := Scan.step_congr (hskip.trans (skipGap_zero_congr _ _ _ _))
    exact ⟨hend, congrArg Scan.Step.reading hstep, congrArg (fun step => mk step.position step.rest) hstep⟩
  · have hnone : ∀ front, front <+: Mark.read ('/' :: '*' :: cs) → front ≠ [] →
        front.count .closing ≠ front.count .opening := by
      intro front hfront hne hlevel
      obtain ⟨first, hfirst, hbalanced⟩ := Mark.exists_balanced hne hlevel
      exact hexists ⟨first, hfirst.trans hfront, hbalanced⟩
    have hend : skipComment (s.position.advance (gap ++ ['/', '*'])) 0 cs = none :=
      skipComment_of_forall_not _ _ fun before hbefore hlevel => hnone (.opening :: before)
        (List.cons_prefix_cons.2 ⟨rfl, hbefore⟩) (List.cons_ne_nil _ _) (Mark.level_opening.2 hlevel)
    rw [hend] at hskip
    have hnext : s.next = ⟨s.position.advance s.ahead, []⟩ := by
      simp only [next, Scan.step, hskip, List.take_nil, List.drop_nil, Position.advance_nil]
    have hlater : ∀ n, next^[n + 1] s = ⟨s.position.advance s.ahead, []⟩ := by
      intro n
      induction n with
      | zero => exact hnext
      | succ n ih => rw [Function.iterate_succ_apply', ih, (reading_of_end _).2]
    refine .inr ⟨hnone, hend, ?_, fun n => ⟨hlater n, ?_⟩⟩
    · simp only [reading, Scan.step, hskip]
      rfl
    · rw [hlater, (reading_of_end _).1]

/-- The `/*/` in this comment opens another one, which takes the `*/`. -/
theorem comment_ends_balanced_overlap : IsGap ['\n'] ∧
    (start "\n/*/*/ */").ahead = ['\n'] ++ '/' :: '*' :: "/*/ */".toList ∧
    (start "\n/*/*/ */").reading =
      { token := { kind := .eof, position := ⟨2, 9⟩ }, faults := [⟨⟨2, 1⟩, .endInComment⟩] } := by
  have hgap : IsGap ['\n'] := .separator rfl .nil
  have hahead : (start "\n/*/*/ */").ahead = ['\n'] ++ '/' :: '*' :: "/*/ */".toList := rfl
  refine ⟨hgap, hahead, ?_⟩
  rcases comment_ends_balanced hgap hahead with ⟨front, behind, hmarks, hfront, -⟩ | ⟨-, -, hreading, -⟩
  · have hprefixes : ∀ before ∈ (Mark.read ('/' :: '*' :: "/*/ */".toList)).inits, before ≠ [] →
        before.count .closing ≠ before.count .opening := by decide
    exact absurd hfront.level (hprefixes front ((List.mem_inits _ _).2 ⟨behind, hmarks.symm⟩) hfront.ne_nil)
  · exact hreading

end Scanner

end MicroJava
