/-!
# Ranges of code points

A property of characters is a list of ranges of code points in ascending order, both ends included.
`inRanges` walks the list and stops at the first range that begins beyond the code point, so a
small code point is settled by the first few ranges. `exists_range_of_inRanges` says that it
accepts only members of a range.
-/

namespace MicroJava.Text

/-- Whether `n` lies in one of the ranges, which are in ascending order. -/
def inRanges (n : Nat) : List (Nat × Nat) → Bool
  | [] => false
  | (low, high) :: ranges => if n < low then false else n ≤ high || inRanges n ranges

@[simp] theorem inRanges_nil (n : Nat) : inRanges n [] = false := rfl

theorem inRanges_cons (n : Nat) (r : Nat × Nat) (ranges : List (Nat × Nat)) :
    inRanges n (r :: ranges) = if n < r.1 then false else n ≤ r.2 || inRanges n ranges := rfl

theorem exists_range_of_inRanges {n : Nat} {ranges : List (Nat × Nat)}
    (h : inRanges n ranges = true) : ∃ r ∈ ranges, r.1 ≤ n ∧ n ≤ r.2 := by
  induction ranges with
  | nil => simp at h
  | cons r ranges ih =>
    rw [inRanges_cons] at h
    split at h
    · cases h
    · next hr =>
      rcases Bool.or_eq_true _ _ ▸ h with hn | hn
      · exact ⟨r, List.mem_cons_self, Nat.le_of_not_lt hr, of_decide_eq_true hn⟩
      · obtain ⟨s, hs, bounds⟩ := ih hn
        exact ⟨s, List.mem_cons_of_mem _ hs, bounds⟩

end MicroJava.Text
