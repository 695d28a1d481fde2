import MicroJava.Message

/-!
# What one token is spelled like

`Lexeme.read` looks at a text that does not begin with a blank or a comment and says which token
begins there, how many characters spell it, and what is wrong with the spelling. Words and numbers
are as long as possible, and of two spellings of symbols the longer one wins. A spelling that
belongs to no token is still passed over: `Lexeme.length_pos_of_read` says that every token of a
nonempty text has at least one character, and `Lexeme.read_kind_eq_eof` that only the empty text
yields `eof`.
-/

namespace MicroJava

/-- A terminal symbol as it is spelled: the number of characters, the spelling of an identifier,
the value of a number or character constant, and the faults of the spelling. -/
structure Lexeme where
  kind : Kind
  length : Nat
  name : String := ""
  value : Int := 0
  faults : List Message := []
  deriving DecidableEq, Inhabited

namespace Lexeme

/-- Whether a character can stand in a word after its first letter. -/
def isNameChar (c : Char) : Bool :=
  c.isAlphanum || c = '_'

/-- A reserved word or an identifier. -/
def word (cs : List Char) : Lexeme :=
  let spelling := cs.takeWhile isNameChar
  let name := String.ofList spelling
  match Kind.keyword? name with
  | some kind => { kind, length := spelling.length }
  | none => { kind := .ident, length := spelling.length, name }

/-- The greatest value of a number. -/
def maxNumber : Nat := 2147483647

/-- The value of a decimal digit. -/
def digitValue (c : Char) : Nat :=
  c.toNat - '0'.toNat

/-- The value of a run of decimal digits, unless it exceeds `maxNumber`. -/
def numberValue? (digits : List Char) : Option Nat :=
  digits.foldlM (fun n c => if n * 10 + digitValue c ≤ maxNumber then some (n * 10 + digitValue c)
    else none) 0

/-- A number. One that is too big counts as zero. -/
def number (cs : List Char) : Lexeme :=
  let digits := cs.takeWhile Char.isDigit
  match numberValue? digits with
  | some n => { kind := .number, length := digits.length, value := n }
  | none =>
    { kind := .number, length := digits.length, faults := [.numberTooBig (String.ofList digits)] }

/-- The character that a backslash and the character `c` stand for. -/
def escape? (c : Char) : Option Char :=
  if c = 'n' then some '\n'
  else if c = 'r' then some '\r'
  else if c = '\\' then some '\\'
  else if c = '\'' then some '\''
  else none

/-- A character constant whose first `length` characters were read, with the text after them. The
value counts only if the closing quote follows. -/
def closeQuote (length : Nat) (value : Int) (faults : List Message) : List Char → Lexeme
  | '\'' :: _ => { kind := .charConst, length := length + 1, value, faults }
  | _ => { kind := .charConst, length, faults := faults ++ [.missingQuote] }

/-- A character constant, from the text after the opening quote. -/
def charConst : List Char → Lexeme
  | [] => { kind := .charConst, length := 1, faults := [.endInCharConst] }
  | '\\' :: [] => { kind := .charConst, length := 2, faults := [.endInCharConst] }
  | '\\' :: c :: cs =>
    match escape? c with
    | some d => closeQuote 3 d.toNat [] cs
    | none => closeQuote 3 0 [.unknownEscape c] cs
  | c :: cs =>
    if c = '\'' then { kind := .charConst, length := 2, faults := [.emptyCharConst] }
    else if c = '\n' ∨ c = '\r' then
      { kind := .charConst, length := 1, faults := [.lineEndInCharConst] }
    else closeQuote 2 c.toNat [] cs

/-- The operators and delimiters, those of two characters first. -/
def symbols : List Kind :=
  [.increment, .plusAssign, .decrement, .minusAssign, .power, .timesAssign, .slashAssign,
    .percentAssign, .equal, .lessEqual, .greaterEqual, .notEqual, .and, .or, .plus, .minus, .times,
    .slash, .percent, .assign, .less, .greater, .semicolon, .comma, .period, .leftParen,
    .rightParen, .leftBracket, .rightBracket, .leftBrace, .rightBrace]

/-- The operators and delimiters with their spellings. -/
def spellings : List (List Char × Kind) :=
  symbols.map fun k => (k.label.toList, k)

/-- An operator, a delimiter, or one character that begins no token. -/
def symbol (c : Char) (cs : List Char) : Lexeme :=
  match spellings.find? (·.1.isPrefixOf (c :: cs)) with
  | some (spelling, kind) => { kind, length := spelling.length }
  | none => { kind := .invalid, length := 1, faults := [.invalidChar c] }

/-- The token at the beginning of a text that begins with neither a blank nor a comment. -/
def read : List Char → Lexeme
  | [] => { kind := .eof, length := 0 }
  | c :: cs =>
    if c.isAlpha then word (c :: cs)
    else if c.isDigit then number (c :: cs)
    else if c = '\'' then charConst cs
    else symbol c cs

theorem closeQuote_kind (n : Nat) (v : Int) (fs : List Message) (cs : List Char) :
    (closeQuote n v fs cs).kind = .charConst := by
  unfold closeQuote; split <;> rfl

theorem le_length_closeQuote (n : Nat) (v : Int) (fs : List Message) (cs : List Char) :
    n ≤ (closeQuote n v fs cs).length := by
  unfold closeQuote; split <;> simp

theorem charConst_kind (cs : List Char) : (charConst cs).kind = .charConst := by
  fun_cases charConst cs with
  | case1 => rfl
  | case2 => rfl
  | case3 c cs d => exact closeQuote_kind 3 d.toNat [] cs
  | case4 c cs => exact closeQuote_kind 3 0 [.unknownEscape c] cs
  | case5 => rfl
  | case6 => rfl
  | case7 c cs => exact closeQuote_kind 2 c.toNat [] cs

theorem length_charConst_pos (cs : List Char) : 0 < (charConst cs).length := by
  have hquote : ∀ n v fs ds, 0 < (closeQuote (n + 1) v fs ds).length := fun n v fs ds =>
    Nat.lt_of_lt_of_le n.succ_pos (le_length_closeQuote (n + 1) v fs ds)
  fun_cases charConst cs with
  | case1 => exact Nat.one_pos
  | case2 => exact Nat.two_pos
  | case3 c cs d => exact hquote 2 d.toNat [] cs
  | case4 c cs => exact hquote 2 0 [.unknownEscape c] cs
  | case5 => exact Nat.two_pos
  | case6 => exact Nat.one_pos
  | case7 c cs => exact hquote 1 c.toNat [] cs

theorem number_kind (cs : List Char) : (number cs).kind = .number := by
  unfold number; dsimp only; split <;> rfl

theorem length_number (cs : List Char) :
    (number cs).length = (cs.takeWhile Char.isDigit).length := by
  unfold number; dsimp only; split <;> rfl

theorem length_word (cs : List Char) : (word cs).length = (cs.takeWhile isNameChar).length := by
  unfold word; dsimp only; split <;> rfl

theorem word_kind_ne_eof (cs : List Char) : (word cs).kind ≠ .eof := by
  unfold word; dsimp only; split
  · next kind h =>
    intro heof
    have hmem := (Kind.label_of_keyword? h).1
    simp only at heof
    rw [heof] at hmem
    exact absurd hmem (by decide)
  · simp

theorem mem_spellings {spelling : List Char} {kind : Kind} (h : (spelling, kind) ∈ spellings) :
    0 < spelling.length ∧ kind ≠ .eof := by
  have key : ∀ s ∈ spellings, 0 < s.1.length ∧ s.2 ≠ .eof := by decide +kernel
  exact key _ h

theorem symbol_kind_ne_eof (c : Char) (cs : List Char) : (symbol c cs).kind ≠ .eof := by
  unfold symbol; split
  · next h => exact (mem_spellings (List.mem_of_find?_eq_some h)).2
  · simp

theorem length_symbol_pos (c : Char) (cs : List Char) : 0 < (symbol c cs).length := by
  unfold symbol; split
  · next h => exact (mem_spellings (List.mem_of_find?_eq_some h)).1
  · simp

theorem length_takeWhile_pos {p : Char → Bool} {c : Char} {cs : List Char} (h : p c = true) :
    0 < ((c :: cs).takeWhile p).length := by
  simp [h]

/-- Only the end of the text yields `eof`. -/
theorem read_kind_eq_eof {cs : List Char} : (read cs).kind = .eof ↔ cs = [] := by
  cases cs with
  | nil => simp [read]
  | cons c cs =>
    simp only [read, reduceCtorEq, iff_false]
    split
    · exact word_kind_ne_eof _
    · split
      · simp [number_kind]
      · split
        · simp [charConst_kind]
        · exact symbol_kind_ne_eof c cs

/-- Every token of a nonempty text has a character. -/
theorem length_pos_of_read (c : Char) (cs : List Char) : 0 < (read (c :: cs)).length := by
  simp only [read]
  split
  · next h => exact length_word _ ▸ length_takeWhile_pos (by simp [isNameChar, Char.isAlphanum, h])
  · split
    · next h => exact length_number _ ▸ length_takeWhile_pos h
    · split
      · exact length_charConst_pos _
      · exact length_symbol_pos ..

end Lexeme

end MicroJava
