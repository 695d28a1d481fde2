/-!
# Types

Every mention of an array type makes a type of its own, numbered like all types in order of
creation, but array types are the same type when their elements are. A class is the same type as
itself only. `null` belongs to every class and array type, and an array of any element type may
stand where an array of unspecified elements is wanted.

Main statements: `Ty.same` is an equivalence relation (`same_refl`, `same_comm`, `same_trans`), and
`Ty.compatible` is symmetric (`compatible_comm`).
-/

namespace MicroJava

/-- The number of a type in order of creation. -/
abbrev TypeId := Nat

/-- The types. `void` is the type of what has no value, `null` that of the null reference. -/
inductive Ty where
  | void
  | int
  | char
  | null
  | object (id : TypeId)
  | array (id : TypeId) (element : Ty)
  deriving DecidableEq, Inhabited

/-- The shapes of types. -/
inductive TyShape where
  | void
  | int
  | char
  | object
  | array
  deriving DecidableEq, Inhabited

namespace Ty

/-- The number of a type. -/
def id : Ty → TypeId
  | void => 0
  | int => 1
  | char => 2
  | null => 3
  | object n => n
  | array n _ => n

/-- The numbers of a type and of its elements. -/
def ids : Ty → List TypeId
  | array n t => n :: t.ids
  | t => [t.id]

/-- The shape of a type. The null reference counts as an object. -/
def shape : Ty → TyShape
  | void => .void
  | int => .int
  | char => .char
  | null => .object
  | object _ => .object
  | array .. => .array

/-- Whether values of a type are references to the heap. -/
def isReference (t : Ty) : Bool :=
  t.shape = .object || t.shape = .array

/-- The type of the elements of an array; anything else has elements without a value. -/
def element : Ty → Ty
  | array _ t => t
  | _ => void

/-- Whether two types are the same: array types are compared by their elements. -/
def same : Ty → Ty → Bool
  | array _ s, array _ t => same s t
  | s, t => s = t

/-- Whether values of the two types may be compared. -/
def compatible (s t : Ty) : Bool :=
  same s t || (s = null && t.isReference) || (t = null && s.isReference)

/-- Whether a value of type `source` may be stored where type `target` is declared. -/
def assignable (source target : Ty) : Bool :=
  same source target || (source = null && target.isReference) ||
    (source.shape = .array && target.shape = .array && target.element = void)

@[simp] theorem same_array_array (i j : TypeId) (s t : Ty) :
    same (array i s) (array j t) = same s t := rfl

@[simp] theorem same_refl (t : Ty) : same t t = true := by
  induction t with
  | array i t ih => simpa using ih
  | _ => simp [same]

theorem same_comm (s t : Ty) : same s t = same t s := by
  induction s generalizing t with
  | array i s ih => cases t with
    | array j t => simpa using ih t
    | _ => simp [same]
  | _ => cases t <;> simp [same, eq_comm]

theorem same_trans {s t u : Ty} (hst : same s t = true) (htu : same t u = true) :
    same s u = true := by
  induction s generalizing t u with
  | array i s ih =>
    cases t with
    | array j t =>
      cases u with
      | array k u => exact ih hst htu
      | _ => simp [same] at htu
    | _ => simp [same] at hst
  | _ => cases t <;> simp_all [same]

theorem compatible_comm (s t : Ty) : compatible s t = compatible t s := by
  unfold compatible
  rw [same_comm s t]
  cases same t s <;> cases decide (s = null) <;> cases decide (t = null) <;>
    cases s.isReference <;> cases t.isReference <;> rfl

end Ty

end MicroJava
