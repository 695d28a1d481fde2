import MicroJava.DebugInfo
import MicroJava.Image
import MicroJava.Instruction
import MicroJava.Text.Blank
import MicroJava.Text.Padding
import Std.Data.TreeSet

/-!
# Listings of code

A listing shows an image instruction by instruction, with a mark on every instruction that a jump
leads to. With debug information it also shows where a method begins, which method a call leads to
and which variable an instruction accesses.
-/

namespace MicroJava.Listing

/-- The number of addresses that a listing can show. -/
def addressCount : Int := 18446744073709551616

/-- An address as it is shown: at least four digits. Addresses before the code are shown as they
wrap around in a word of 64 bits. -/
def addressText (a : Int) : String :=
  Text.zeroPadded 4 (a % addressCount).toNat

/-- The line that announces the image. -/
def header (i : Image) : String :=
  "; code " ++ toString i.code.size ++ " bytes, data " ++ toString i.dataSize.toInt ++
    " words, entry " ++ toString i.entry.toInt ++ "\n"

/-- The line above an instruction that a jump leads to. -/
def targetLine : String :=
  "      ┌──────────────────────────────────\n"

/-- The addresses that jumps lead to. -/
def jumpTargets (is : List Instruction) : Std.TreeSet Int :=
  (is.filter (·.op.isJump)).foldl
    (fun targets i => match i.target? with
      | some a => targets.insert a
      | none => targets)
    ∅

/-- The address of a target, with the name of the method there if it is asked for. -/
def targetText (name? : Option String) (i : Instruction) : String :=
  let address := "-> " ++ addressText (i.target?.getD 0)
  match name? with
  | some name => address ++ " ; " ++ name
  | none => address

/-- The operands of an instruction. -/
def operandText (debug : Option DebugInfo) (i : Instruction) : String :=
  if i.op = .call then
    targetText (debug.bind (·.methodAt? (i.target?.getD 0))) i
  else if i.op.isJump then targetText none i
  else
    let values := ", ".intercalate (i.operands.map toString)
    if i.op = .getStatic ∨ i.op = .putStatic then
      match debug.bind (·.globals[(i.operands.headD 0).toNat]?) with
      | some name => values ++ " ; " ++ name
      | none => values
    else values

/-- The lines that show one instruction. -/
def instructionText (debug : Option DebugInfo) (targets : Std.TreeSet Int) (i : Instruction) :
    String :=
  let isTarget := targets.contains i.pc
  let methodLine := match debug.bind (·.methodAt? i.pc) with
    | some name => "\n" ++ name ++ ":\n"
    | none => ""
  methodLine ++ (if isTarget then targetLine else "") ++ Text.zeroPadded 4 i.pc ++ " " ++
    (if isTarget then "► " else "  ") ++ Text.spacePadded 12 i.op.name ++
    Text.trimEnd (operandText debug i) ++ "\n"

/-- The listing of an image, with names where debug information is given. -/
def ofImage (i : Image) (debug : Option DebugInfo) : Except ImageError String := do
  let is := (← Instruction.decode i.code.toList).toList
  let targets := jumpTargets is
  return header i ++ String.join (is.map (instructionText debug targets))

end MicroJava.Listing
