/-!
# Runs of bytes

What is read from a file is a list of bytes. `Bytes.split?` takes a given number of them off the
front; it succeeds exactly when there are that many (`Bytes.split?_eq_some_iff`).
-/

namespace MicroJava

/-- The contents of a file, or what is left of them to read. -/
abbrev Bytes := List UInt8

/-- The first `n` bytes and the rest, if there are so many. -/
def Bytes.split? (n : Nat) (bs : Bytes) : Option (Bytes × Bytes) :=
  let front := bs.take n
  if front.length = n then some (front, bs.drop n) else none

theorem Bytes.split?_eq_some_iff {n : Nat} {bs front rest : Bytes} :
    Bytes.split? n bs = some (front, rest) ↔ bs = front ++ rest ∧ front.length = n := by
  simp only [Bytes.split?, Option.ite_none_right_eq_some, Option.some.injEq, Prod.mk.injEq]
  constructor
  · rintro ⟨hn, rfl, rfl⟩
    exact ⟨(List.take_append_drop n bs).symm, hn⟩
  · rintro ⟨rfl, rfl⟩
    simp

theorem Bytes.split?_append (front rest : Bytes) :
    Bytes.split? front.length (front ++ rest) = some (front, rest) :=
  Bytes.split?_eq_some_iff.2 ⟨rfl, rfl⟩

theorem Bytes.length_of_split? {n : Nat} {bs front rest : Bytes}
    (h : Bytes.split? n bs = some (front, rest)) : n + rest.length = bs.length := by
  obtain ⟨rfl, rfl⟩ := Bytes.split?_eq_some_iff.1 h
  simp

end MicroJava
