import MicroJava.Varint

/-!
# Names for the addresses of an image

The names of a program, of its global variables by address, and of its methods with their entry
addresses. They are kept in a file of their own: a text is written as its number of bytes and its
UTF-8 form, a list as its number of elements and the elements, and all numbers as in `Varint`.
-/

namespace MicroJava

/-- A method with the address of its first instruction and the numbers of its parameters and of all
its variables. -/
structure MethodInfo where
  name : String
  entry : UInt32
  parameterCount : UInt32
  localCount : UInt32
  deriving DecidableEq, Inhabited

/-- The names of a program, of its global variables and of its methods. -/
structure DebugInfo where
  program : String := ""
  globals : Array String := #[]
  methods : Array MethodInfo := #[]
  deriving DecidableEq, Inhabited

/-- Why bytes are no debug information. -/
inductive DebugInfoError where
  | endOfInput
  | unterminatedNumber
  | invalidText
  deriving DecidableEq, Inhabited

/-- The wording of a cause. -/
def DebugInfoError.message : DebugInfoError → String
  | endOfInput => "Hit the end of buffer, expected more data"
  | unterminatedNumber =>
    "Found a varint that didn't terminate. Is the usize too big for this platform?"
  | invalidText => "Tried to parse invalid utf-8"

/-- A number that cannot be read is a fault of the debug information. -/
def DebugInfoError.ofVarint : VarintError → DebugInfoError
  | .endOfInput => endOfInput
  | .tooLong => unterminatedNumber

namespace DebugInfo

/-- The name of the method whose first instruction stands at `pc`. -/
def methodAt? (d : DebugInfo) (pc : Int) : Option String :=
  (d.methods.find? fun m => (m.entry.toNat : Int) = pc).map MethodInfo.name

/-! ### Writing -/

def textBytes (s : String) : Bytes :=
  let content := s.toUTF8.data.toList
  Varint.encode content.length ++ content

def numberBytes (n : UInt32) : Bytes :=
  Varint.encode n.toNat

def listBytes {α : Type} (item : α → Bytes) (items : List α) : Bytes :=
  Varint.encode items.length ++ items.flatMap item

def methodBytes (m : MethodInfo) : Bytes :=
  textBytes m.name ++ numberBytes m.entry ++ numberBytes m.parameterCount ++
    numberBytes m.localCount

/-- The contents of the file that keeps the names. -/
def encode (d : DebugInfo) : Bytes :=
  textBytes d.program ++ listBytes textBytes d.globals.toList ++
    listBytes methodBytes d.methods.toList

/-! ### Reading -/

/-- A value read from the front of some bytes, with the bytes after it. -/
abbrev Read (α : Type) := StateT Bytes (Except DebugInfoError) α

def readLength : Read Nat := fun bs =>
  (Varint.decode64 bs).mapError DebugInfoError.ofVarint

def readNumber : Read UInt32 := fun bs =>
  match Varint.decode32 bs with
  | .error e => .error (DebugInfoError.ofVarint e)
  | .ok (n, rest) => .ok (UInt32.ofNat n, rest)

def readBytes (n : Nat) : Read Bytes := fun bs =>
  match Bytes.split? n bs with
  | none => .error .endOfInput
  | some r => .ok r

def readText : Read String := do
  let content ← readBytes (← readLength)
  match String.fromUTF8? ⟨content.toArray⟩ with
  | none => throw .invalidText
  | some s => return s

def readItems {α : Type} (item : Read α) : Nat → Array α → Read (Array α)
  | 0, acc => return acc
  | n + 1, acc => do readItems item n (acc.push (← item))

def readList {α : Type} (item : Read α) : Read (Array α) := do
  readItems item (← readLength) #[]

def readMethod : Read MethodInfo := do
  let name ← readText
  let entry ← readNumber
  let parameterCount ← readNumber
  let localCount ← readNumber
  return { name, entry, parameterCount, localCount }

def read : Read DebugInfo := do
  let program ← readText
  let globals ← readList readText
  let methods ← readList readMethod
  return { program, globals, methods }

/-- The names kept in a file with the given contents. What follows them is not looked at. -/
def decode (bs : Bytes) : Except DebugInfoError DebugInfo :=
  (read bs).map Prod.fst

end DebugInfo

end MicroJava
