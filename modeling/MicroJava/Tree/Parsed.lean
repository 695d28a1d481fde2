import MicroJava.Token

/-!
# Reading from the front of a list of tokens

A step of reading takes some tokens off the front of a list and leaves the rest, which is a suffix
of the list (`Parsed.suffix`). So a rest is never longer than the list, and reading that takes at
least one token from every rest comes to an end. The end of the list is the end of the text.
-/

namespace MicroJava.Tree

/-- What was read from the front of the tokens `ts`, and the tokens after it. -/
structure Parsed (α : Type) (ts : List Token) where
  value : α
  rest : List Token
  suffix : rest <:+ ts

namespace Parsed

variable {α β : Type} {ts us : List Token}

/-- The rest is no longer than the list. -/
theorem length_rest_le (p : Parsed α ts) : p.rest.length ≤ ts.length :=
  p.suffix.length_le

/-- What was read from a suffix of a list was read from the list. -/
def widen (p : Parsed α ts) (h : ts <:+ us) : Parsed α us :=
  ⟨p.value, p.rest, p.suffix.trans h⟩

/-- Nothing is taken off the front. -/
def nothing (value : α) (ts : List Token) : Parsed α ts :=
  ⟨value, ts, List.suffix_rfl⟩

/-- One token is taken off the front. -/
def one (value : α) (t : Token) (ts : List Token) : Parsed α (t :: ts) :=
  ⟨value, ts, List.suffix_cons t ts⟩

/-- Reading goes on in the rest, with what was read. -/
def andThen (p : Parsed α ts) (f : α → (us : List Token) → Parsed β us) : Parsed β ts :=
  (f p.value p.rest).widen p.suffix

/-- Makes something else of what was read. -/
def map (f : α → β) (p : Parsed α ts) : Parsed β ts :=
  ⟨f p.value, p.rest, p.suffix⟩

@[simp] theorem value_widen (p : Parsed α ts) (h : ts <:+ us) : (p.widen h).value = p.value := rfl

@[simp] theorem rest_widen (p : Parsed α ts) (h : ts <:+ us) : (p.widen h).rest = p.rest := rfl

@[simp] theorem value_andThen (p : Parsed α ts) (f : α → (us : List Token) → Parsed β us) :
    (p.andThen f).value = (f p.value p.rest).value := rfl

@[simp] theorem rest_andThen (p : Parsed α ts) (f : α → (us : List Token) → Parsed β us) :
    (p.andThen f).rest = (f p.value p.rest).rest := rfl

@[simp] theorem value_map (f : α → β) (p : Parsed α ts) : (p.map f).value = f p.value := rfl

@[simp] theorem rest_map (f : α → β) (p : Parsed α ts) : (p.map f).rest = p.rest := rfl

end Parsed

/-- Takes a token of the given kind off the front, if there is one, and tells whether it did. -/
def accept (kind : Kind) : (ts : List Token) → Parsed Bool ts
  | [] => .nothing false []
  | t :: ts => if t.kind = kind then .one true t ts else .nothing false (t :: ts)

/-- Takes an identifier off the front, if there is one. -/
def readName : (ts : List Token) → Parsed (Option String) ts
  | [] => .nothing none []
  | t :: ts => if t.kind = .ident then .one (some t.name) t ts else .nothing none (t :: ts)

/-- Takes a number off the front, if there is one. -/
def readNumber : (ts : List Token) → Parsed (Option Int) ts
  | [] => .nothing none []
  | t :: ts => if t.kind = .number then .one (some t.value) t ts else .nothing none (t :: ts)

/-- Whether the first token has a kind for which `p` holds. -/
def startsWith (p : Kind → Bool) : List Token → Bool
  | [] => false
  | t :: _ => p t.kind

/-- Passes over the tokens up to the first one whose kind resumes reading, and counts them. -/
def skipTo (resumes : Kind → Bool) (ts : List Token) : Parsed Nat ts :=
  ⟨(ts.takeWhile fun t => !resumes t.kind).length, ts.dropWhile fun t => !resumes t.kind,
    List.dropWhile_suffix _⟩

end MicroJava.Tree
