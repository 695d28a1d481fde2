import MicroJava.Proofs.Closed

/-!
# The types of a table

Being the same type is an equivalence relation, and whatever is asked of types has one answer for all types
that are the same. Values may be stored along a chain of types (`Ty.assignable_trans`). What may be stored
may also be compared, except that an array of any elements may be stored where its elements are unspecified
(`Ty.compatible_of_assignable`).

In a table the elements of an array are numbered before the array (`SymbolTable.Numbered`), so whoever compares
two arrays by their elements comes to an end (`SymbolTable.Numbered.sameWithin_eq`). `SymbolTable.typeLaws` says
all of this of the numbers of types, whatever types were made.
-/

namespace MicroJava

/-! ### Types that are the same -/

namespace Ty

variable {s s' t t' u : Ty}

theorem same_void_right : same s void = true ↔ s = void := by
  cases s <;> simp [same]

theorem same_null_left : same null t = true ↔ t = null := by
  cases t <;> simp [same]

theorem shape_eq_of_same (h : same s t = true) : s.shape = t.shape := by
  cases s <;> cases t <;> simp_all [same, shape]

theorem isReference_eq_of_same (h : same s t = true) : s.isReference = t.isReference := by
  rw [isReference, isReference, shape_eq_of_same h]

theorem same_element (h : same s t = true) : same s.element t.element = true := by
  cases s <;> cases t <;> simp_all [same, element]

theorem element_eq_void_iff (h : same s t = true) : s.element = void ↔ t.element = void := by
  have hvoid := same_element h
  constructor
  · intro hs
    rw [same_comm, hs] at hvoid
    exact same_void_right.1 hvoid
  · intro ht
    rw [ht] at hvoid
    exact same_void_right.1 hvoid

theorem eq_null_iff (h : same s t = true) : s = null ↔ t = null := by
  constructor
  · rintro rfl
    exact same_null_left.1 h
  · rintro rfl
    rw [same_comm] at h
    exact same_null_left.1 h

theorem same_congr (hs : same s s' = true) (ht : same t t' = true) : same s t = same s' t' := by
  rw [Bool.eq_iff_iff]
  constructor
  · intro h
    exact same_trans (same_trans (same_comm s s' ▸ hs) h) ht
  · intro h
    exact same_trans (same_trans hs h) (same_comm t t' ▸ ht)

/-- Whether values may be compared does not depend on which of several types that are the same is taken. -/
theorem compatible_congr (hs : same s s' = true) (ht : same t t' = true) :
    compatible s t = compatible s' t' := by
  simp only [compatible, same_congr hs ht, eq_null_iff hs, eq_null_iff ht, isReference_eq_of_same hs,
    isReference_eq_of_same ht]

/-- Nor does whether a value may be stored. -/
theorem assignable_congr (hs : same s s' = true) (ht : same t t' = true) :
    assignable s t = assignable s' t' := by
  simp only [assignable, same_congr hs ht, eq_null_iff hs, isReference_eq_of_same ht,
    shape_eq_of_same hs, shape_eq_of_same ht, element_eq_void_iff ht]

@[simp] theorem compatible_refl (t : Ty) : compatible t t = true := by
  simp [compatible]

@[simp] theorem assignable_refl (t : Ty) : assignable t t = true := by
  simp [assignable]

/-- An array of unspecified elements. -/
def IsAnyArray (t : Ty) : Prop :=
  t.shape = .array ∧ t.element = void

theorem assignable_iff : assignable s t = true ↔
    same s t = true ∨ (s = null ∧ t.isReference = true) ∨ (s.shape = .array ∧ t.IsAnyArray) := by
  simp [assignable, IsAnyArray, or_assoc, and_assoc]

theorem IsAnyArray.isReference (h : t.IsAnyArray) : t.isReference = true := by
  simp [Ty.isReference, h.1]

theorem IsAnyArray.of_same (h : t.IsAnyArray) (hs : same t u = true) : u.IsAnyArray :=
  ⟨shape_eq_of_same hs ▸ h.1, (element_eq_void_iff hs).1 h.2⟩

theorem assignable_trans (hst : assignable s t = true) (htu : assignable t u = true) :
    assignable s u = true := by
  rcases assignable_iff.1 hst with hsame | ⟨rfl, ht⟩ | ⟨hs, ht⟩
  · rwa [assignable_congr hsame (same_refl u)]
  · -- the null reference may be stored wherever references may be
    refine assignable_iff.2 (.inr (.inl ⟨rfl, ?_⟩))
    rcases assignable_iff.1 htu with hsame | ⟨-, hu⟩ | ⟨-, hu⟩
    · exact isReference_eq_of_same hsame ▸ ht
    · exact hu
    · exact hu.isReference
  · refine assignable_iff.2 (.inr (.inr ⟨hs, ?_⟩))
    rcases assignable_iff.1 htu with hsame | ⟨rfl, -⟩ | ⟨-, hu⟩
    · exact ht.of_same hsame
    · cases ht.1
    · exact hu

/-- What may be stored may be compared, unless an array is stored where elements are unspecified. -/
theorem compatible_of_assignable (h : assignable s t = true)
    (hany : ¬ (s.shape = .array ∧ t.IsAnyArray)) : compatible s t = true := by
  rcases assignable_iff.1 h with hsame | ⟨rfl, ht⟩ | harray
  · simp [compatible, hsame]
  · simp [compatible, ht]
  · exact absurd harray hany

end Ty

/-! ### Types and their numbers -/

namespace SymbolTable

/-- The type numbered `id`. -/
def typeAt (t : SymbolTable) (id : TypeId) : Ty :=
  (t.types[id]?.map TypeEntry.type).getD .void

/-- The number of the type of the elements of an array. -/
def elementId? (t : SymbolTable) (id : TypeId) : Option TypeId :=
  match t.typeAt id with
  | .array _ e => some e.id
  | _ => none

/-- Compares two types by their numbers, and those of arrays by the numbers of their elements. There is no
answer if more than `n` pairs of types are looked at. -/
def sameWithin (t : SymbolTable) : Nat → TypeId → TypeId → Option Bool
  | 0, _, _ => none
  | n + 1, a, b =>
    if a = b then some true
    else
      match t.elementId? a, t.elementId? b with
      | some x, some y => t.sameWithin n x y
      | _, _ => some false

/-- A table in which types were made one after the other, arrays of types that were there and classes, and
types were given fields. -/
inductive MadeTypes : SymbolTable → Prop
  | predeclared : MadeTypes predeclared
  | newArray {t : SymbolTable} {element : TypeId} (h : MadeTypes t) (helement : element < t.types.size) :
    MadeTypes (t.addType (t.nextArray (t.typeAt element)))
  | newObject {t : SymbolTable} (h : MadeTypes t) : MadeTypes (t.addType t.nextObject)
  | setFields {t : SymbolTable} {id : TypeId} (h : MadeTypes t) (hid : id < t.types.size)
    (fields : Array SymbolId) : MadeTypes (t.setFields (t.typeAt id) fields)

/-- Types have the numbers at which they are found, and the elements of an array are a type that was made
before it. -/
structure Numbered (t : SymbolTable) : Prop where
  id : ∀ i < t.types.size, (t.typeAt i).id = i
  element : ∀ i < t.types.size, ∀ n e, t.typeAt i = .array n e → e.id < i ∧ t.typeAt e.id = e

variable {t : SymbolTable} {a b i : TypeId} {type : Ty}

theorem typeAt_addType_of_lt (h : i < t.types.size) : (t.addType type).typeAt i = t.typeAt i := by
  simp [typeAt, addType, Array.getElem?_push, h.ne]

@[simp] theorem typeAt_addType_size : (t.addType type).typeAt t.types.size = type := by
  simp [typeAt, addType]

@[simp] theorem size_addType : (t.addType type).types.size = t.types.size + 1 := by
  simp [addType]

@[simp] theorem typeAt_setFields (fields : Array SymbolId) :
    (t.setFields type fields).typeAt i = t.typeAt i := by
  simp only [typeAt, setFields, Array.getElem?_modify]
  split
  · cases t.types[i]? <;> rfl
  · rfl

@[simp] theorem size_setFields (fields : Array SymbolId) :
    (t.setFields type fields).types.size = t.types.size := by
  simp [setFields]

namespace Numbered

theorem predeclared : Numbered predeclared where
  id := by decide
  element := by
    intro i hi n e he
    -- the only array is the last type
    have hlast : i = 4 := by
      have hshape : ∀ i < SymbolTable.predeclared.types.size,
          (SymbolTable.predeclared.typeAt i).shape = .array → i = 4 := by decide
      exact hshape i hi (he ▸ rfl)
    subst hlast
    obtain ⟨-, rfl⟩ := Ty.array.inj he
    decide

/-- A type is made that has the next number and, if it is an array, elements of a type that was there. -/
theorem addType (h : t.Numbered) (hid : type.id = t.types.size)
    (helement : ∀ n e, type = .array n e → e.id < t.types.size ∧ t.typeAt e.id = e) :
    (t.addType type).Numbered := by
  constructor
  · intro i hi
    rcases Nat.lt_succ_iff_lt_or_eq.1 (size_addType ▸ hi) with hlt | rfl
    · rw [typeAt_addType_of_lt hlt, h.id i hlt]
    · rw [typeAt_addType_size, hid]
  · intro i hi n e he
    rcases Nat.lt_succ_iff_lt_or_eq.1 (size_addType ▸ hi) with hlt | rfl
    · rw [typeAt_addType_of_lt hlt] at he
      obtain ⟨hold, helement⟩ := h.element i hlt n e he
      exact ⟨hold, by rw [typeAt_addType_of_lt (hold.trans hlt), helement]⟩
    · rw [typeAt_addType_size] at he
      obtain ⟨hold, helement⟩ := helement n e he
      exact ⟨hold, by rw [typeAt_addType_of_lt hold, helement]⟩

theorem setFields (h : t.Numbered) (type : Ty) (fields : Array SymbolId) :
    (t.setFields type fields).Numbered := by
  constructor
  · intro i hi
    rw [typeAt_setFields, h.id i (size_setFields fields ▸ hi)]
  · intro i hi n e he
    rw [typeAt_setFields] at he ⊢
    exact h.element i (size_setFields fields ▸ hi) n e he

theorem typeAt_inj (h : t.Numbered) (ha : a < t.types.size) (hb : b < t.types.size) :
    t.typeAt a = t.typeAt b ↔ a = b := by
  constructor
  · intro heq
    rw [← h.id a ha, ← h.id b hb, heq]
  · rintro rfl
    rfl

/-- The elements of an array are a type that was made before it. -/
theorem element_of_elementId? (h : t.Numbered) (ha : a < t.types.size) {x : TypeId}
    (hx : t.elementId? a = some x) : x < a ∧ t.typeAt a = .array a (t.typeAt x) := by
  have hid := h.id a ha
  rw [elementId?] at hx
  split at hx
  · next n e he =>
      obtain rfl := Option.some.inj hx
      obtain ⟨hlt, heq⟩ := h.element a ha n e he
      rw [he] at hid ⊢
      obtain rfl : n = a := hid
      exact ⟨hlt, by rw [heq]⟩
  · cases hx

/-- Types with different numbers are different if one of them is no array. -/
theorem same_eq_false (h : t.Numbered) (ha : a < t.types.size) (hb : b < t.types.size) (hne : a ≠ b)
    (hnone : t.elementId? a = none ∨ t.elementId? b = none) :
    Ty.same (t.typeAt a) (t.typeAt b) = false := by
  have hne := mt (h.typeAt_inj ha hb).1 hne
  rw [elementId?, elementId?] at hnone
  generalize t.typeAt a = u, t.typeAt b = v at hne hnone
  cases u <;> cases v <;> simp_all [Ty.same]

/-- No more pairs of types are looked at than there are types up to the first one of the two. -/
theorem sameWithin_eq (h : t.Numbered) {n : Nat} (hn : a < n) (ha : a < t.types.size)
    (hb : b < t.types.size) : t.sameWithin n a b = some (Ty.same (t.typeAt a) (t.typeAt b)) := by
  induction n generalizing a b with
  | zero => exact absurd hn a.not_lt_zero
  | succ n ih =>
      rw [sameWithin]
      split
      · next heq => rw [heq, Ty.same_refl]
      · next hne =>
          split
          · next x y hx hy =>
              obtain ⟨hlt, hxa⟩ := h.element_of_elementId? ha hx
              obtain ⟨hlt', hyb⟩ := h.element_of_elementId? hb hy
              rw [hxa, hyb, Ty.same_array_array]
              exact ih (hlt.trans_le (Nat.lt_succ_iff.1 hn)) (hlt.trans ha) (hlt'.trans hb)
          · next hnone =>
              rw [h.same_eq_false ha hb hne]
              by_contra hsome
              simp only [not_or, ← ne_eq, Option.ne_none_iff_exists'] at hsome
              obtain ⟨⟨x, hx⟩, y, hy⟩ := hsome
              exact hnone x y hx hy

end Numbered

theorem MadeTypes.numbered (h : t.MadeTypes) : t.Numbered := by
  induction h with
  | predeclared => exact .predeclared
  | @newArray t element _ helement ih =>
      refine ih.addType rfl fun n e he => ?_
      obtain ⟨-, rfl⟩ := Ty.array.inj he
      rw [ih.id element helement]
      exact ⟨helement, rfl⟩
  | newObject _ ih => exact ih.addType rfl fun _ _ he => Ty.noConfusion he
  | setFields _ _ fields ih => exact ih.setFields _ fields

/-- What is known of the types numbered `a`, `b` and `c` of a table. -/
structure TypeLaws (t : SymbolTable) (a b c : TypeId) : Prop where
  element_lt : ∀ x, t.elementId? a = some x → x < a
  same_ends : t.sameWithin (a + 1) a b = some (Ty.same (t.typeAt a) (t.typeAt b))
  same_refl : Ty.same (t.typeAt a) (t.typeAt a) = true
  same_symm : Ty.same (t.typeAt a) (t.typeAt b) = Ty.same (t.typeAt b) (t.typeAt a)
  same_trans : Ty.same (t.typeAt a) (t.typeAt b) = true → Ty.same (t.typeAt b) (t.typeAt c) = true →
    Ty.same (t.typeAt a) (t.typeAt c) = true
  compatible_refl : Ty.compatible (t.typeAt a) (t.typeAt a) = true
  compatible_symm : Ty.compatible (t.typeAt a) (t.typeAt b) = Ty.compatible (t.typeAt b) (t.typeAt a)
  assignable_refl : Ty.assignable (t.typeAt a) (t.typeAt a) = true
  assignable_trans : Ty.assignable (t.typeAt a) (t.typeAt b) = true →
    Ty.assignable (t.typeAt b) (t.typeAt c) = true → Ty.assignable (t.typeAt a) (t.typeAt c) = true
  replace : Ty.same (t.typeAt a) (t.typeAt b) = true →
    Ty.compatible (t.typeAt a) (t.typeAt c) = Ty.compatible (t.typeAt b) (t.typeAt c) ∧
    Ty.compatible (t.typeAt c) (t.typeAt a) = Ty.compatible (t.typeAt c) (t.typeAt b) ∧
    Ty.assignable (t.typeAt a) (t.typeAt c) = Ty.assignable (t.typeAt b) (t.typeAt c) ∧
    Ty.assignable (t.typeAt c) (t.typeAt a) = Ty.assignable (t.typeAt c) (t.typeAt b) ∧
    (t.typeAt a).isReference = (t.typeAt b).isReference
  compatible_of_assignable : Ty.assignable (t.typeAt a) (t.typeAt b) = true →
    ¬ ((t.typeAt a).shape = .array ∧ (t.typeAt b).IsAnyArray) →
    Ty.compatible (t.typeAt a) (t.typeAt b) = true

/-- Whatever types were made, these laws hold of any three of them. -/
theorem typeLaws (h : t.MadeTypes) (ha : a < t.types.size) (hb : b < t.types.size) (c : TypeId) :
    t.TypeLaws a b c where
  element_lt := fun _ hx => (h.numbered.element_of_elementId? ha hx).1
  same_ends := h.numbered.sameWithin_eq a.lt_succ_self ha hb
  same_refl := Ty.same_refl _
  same_symm := Ty.same_comm _ _
  same_trans := Ty.same_trans
  compatible_refl := Ty.compatible_refl _
  compatible_symm := Ty.compatible_comm _ _
  assignable_refl := Ty.assignable_refl _
  assignable_trans := Ty.assignable_trans
  replace := fun hab =>
    ⟨Ty.compatible_congr hab (Ty.same_refl _), Ty.compatible_congr (Ty.same_refl _) hab,
      Ty.assignable_congr hab (Ty.same_refl _), Ty.assignable_congr (Ty.same_refl _) hab,
      Ty.isReference_eq_of_same hab⟩
  compatible_of_assignable := Ty.compatible_of_assignable

/-- The predeclared types, and the type of arrays of numbers twice. -/
def intArrays : SymbolTable :=
  let t := predeclared.addType (predeclared.nextArray (predeclared.typeAt 1))
  t.addType (t.nextArray (t.typeAt 1))

/-- The two types of arrays are the same. Both may be stored where elements are unspecified, but are not
compared with that. -/
theorem typeLaws_intArrays : intArrays.TypeLaws 5 6 4 ∧
    Ty.same (intArrays.typeAt 5) (intArrays.typeAt 6) = true ∧
    Ty.assignable (intArrays.typeAt 6) (intArrays.typeAt 4) = true ∧
    Ty.compatible (intArrays.typeAt 6) (intArrays.typeAt 4) = false :=
  have hmade : intArrays.MadeTypes := .newArray (.newArray .predeclared (by decide)) (by decide)
  ⟨typeLaws hmade (by decide) (by decide) 4, by decide, by decide, by decide⟩

end SymbolTable

end MicroJava
