import MicroJava.Image
import MicroJava.Instruction

/-!
# Code under construction

An `Emitter` holds the code written so far and the labels that jumps lead to. A jump to a label that
is not placed yet leaves room for the way to it, and placing the label fills in all the room left
for it. A way that does not fit into two bytes is written all the same and counted.

A label has one place. Placing it a second time changes no code, but the emitter keeps the label in
mind, and neither this nor a jump without a target can be made an image.
-/

namespace MicroJava

/-- The number of a label in order of creation. -/
abbrev Label := Nat

/-- What is known of a label: its address, or the offsets in the code where the way to it is to be
filled in. -/
inductive LabelState where
  | pending (sites : List Nat)
  | placed (address : Nat)
  deriving DecidableEq

/-- A label whose address is not known and that no jump leads to. -/
def LabelState.fresh : LabelState := pending []

instance : Inhabited LabelState := ⟨.fresh⟩

/-- The offsets in the code where the way to a label is still to be filled in. -/
def LabelState.sites : LabelState → List Nat
  | pending sites => sites
  | placed _ => []

/-- The number of jumps that wait for a label. -/
def LabelState.waiting : LabelState → Nat
  | pending sites => sites.length
  | placed _ => 0

/-- Why code cannot be made an image. -/
inductive LabelError where
  | placedTwice (l : Label)
  | unresolved (jumps : Nat)
  deriving DecidableEq, Inhabited

/-- The wording of a fault of the labels. -/
def LabelError.message : LabelError → String
  | placedTwice l => "label " ++ toString l ++ " placed twice"
  | unresolved jumps =>
    "internal error: " ++ toString jumps ++ " jump(s) to an unresolved label"

/-- The code so far, the address of the first instruction to execute, the number of global
variables, the labels, the number of ways too far for their operands since they were last counted,
and the first label that was placed twice. -/
structure Emitter where
  code : Array UInt8 := #[]
  entry : Option Nat := none
  dataSize : Nat := 0
  labels : Array LabelState := #[]
  farCount : Nat := 0
  clash : Option Label := none
  deriving Inhabited

namespace Emitter

/-- The emitter that nothing was written to. -/
def empty : Emitter := {}

/-- The address of the next instruction. -/
def pc (e : Emitter) : Nat :=
  e.code.size

/-- Writes bytes. -/
def append (e : Emitter) (bs : Bytes) : Emitter :=
  { e with code := e.code.appendList bs }

/-- Writes an operation without operands. -/
def put (e : Emitter) (op : Opcode) : Emitter :=
  { e with code := e.code.push op.byte }

/-- Writes the lowest `n` bytes of an integer. -/
def putInt (e : Emitter) (n : Nat) (x : Int) : Emitter :=
  e.append (BigEndian.bytes n x)

/-- Writes an instruction. The operand of a jump or call is the address it leads to. -/
def emit (e : Emitter) (op : Opcode) (operands : List Int) : Emitter :=
  e.append (Instruction.encode { pc := e.pc, op, operands })

/-- Whether the way to a target does not fit into the operand of a jump or call. -/
def isFar (way : Int) : Bool :=
  way < -32768 || 32767 < way

/-- Counts the way to a target if it is too far. -/
def noteWay (e : Emitter) (way : Int) : Emitter :=
  if isFar way then { e with farCount := e.farCount + 1 } else e

/-- The count of ways that are too far starts anew. -/
def resetFarCount (e : Emitter) : Emitter :=
  { e with farCount := 0 }

/-- Writes a jump or call to a known address. -/
def emitTo (e : Emitter) (op : Opcode) (target : Int) : Emitter :=
  (e.noteWay (target - e.pc)).emit op [target]

/-! ### Labels -/

/-- The label that is made next. -/
def nextLabel (e : Emitter) : Label :=
  e.labels.size

/-- Makes the label `e.nextLabel`. -/
def addLabel (e : Emitter) : Emitter :=
  { e with labels := e.labels.push .fresh }

/-- What is known of the label `l`. -/
def label (e : Emitter) (l : Label) : LabelState :=
  e.labels[l]?.getD .fresh

/-- Changes what is known of the label `l`. -/
def setLabel (e : Emitter) (l : Label) (s : LabelState) : Emitter :=
  { e with labels := e.labels.setIfInBounds l s }

/-- Writes a jump to the label `l`, or leaves room for the way there. -/
def jump (e : Emitter) (op : Opcode) (l : Label) : Emitter :=
  match e.label l with
  | .placed address => e.emitTo op address
  | .pending sites => (e.setLabel l (.pending ((e.pc + 1) :: sites))).emit op [e.pc]

/-- Overwrites the two bytes at `site` with a way. -/
def fillIn (code : Array UInt8) (site : Nat) (way : Int) : Array UInt8 :=
  (code.setIfInBounds site (BigEndian.lowByte (way / 256))).setIfInBounds (site + 1)
    (BigEndian.lowByte way)

/-- Fills in the way from the jump whose operand is at `site` to `address`. -/
def resolve (address : Nat) (e : Emitter) (site : Nat) : Emitter :=
  let way : Int := address - (site - 1)
  let e := e.noteWay way
  { e with code := fillIn e.code site way }

/-- The label `l` stands for the address of the next instruction. -/
def place (e : Emitter) (l : Label) : Emitter :=
  match e.label l with
  | .pending sites => sites.foldl (resolve e.pc) (e.setLabel l (.placed e.pc))
  | .placed _ => { e with clash := e.clash.or (some l) }

/-- The number of jumps that wait for a label. -/
def pendingJumps (e : Emitter) : Nat :=
  e.labels.foldl (fun n s => n + s.waiting) 0

/-- The image of the code. -/
def toImage (e : Emitter) : Except LabelError Image :=
  match e.clash with
  | some l => .error (.placedTwice l)
  | none =>
    if e.pendingJumps ≠ 0 then .error (.unresolved e.pendingJumps)
    else .ok
      { dataSize := Int32.ofNat e.dataSize
        entry := (e.entry.map Int32.ofNat).getD (-1)
        code := e.code }

end Emitter

end MicroJava
