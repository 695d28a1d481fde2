import MicroJava.Opcode

/-!
# What can be wrong with an object file

The causes for which a sequence of bytes is no object file, or the code in it cannot be read as a
sequence of instructions.
-/

namespace MicroJava

/-- The number of bytes before the code in an object file. -/
def headerSize : Nat := 14

/-- A cause for refusing an object file or its code. -/
inductive ImageError where
  | truncatedHeader (size : Nat)
  | missingMagic
  | wrongCodeSize (announced : Int) (found : Nat)
  | entryOutsideCode (entry : Int)
  | unknownOpcode (byte : UInt8) (pc : Nat)
  | truncatedInstruction (op : Opcode) (pc : Nat)
  deriving DecidableEq, Inhabited

/-- The wording of a cause. -/
def ImageError.message : ImageError → String
  | truncatedHeader size =>
    "header truncated (" ++ toString size ++ " of " ++ toString headerSize ++ " bytes)"
  | missingMagic => "missing 'MJ' magic"
  | wrongCodeSize announced found =>
    "header announces " ++ toString announced ++ " code bytes, found " ++ toString found
  | entryOutsideCode entry => "entry point " ++ toString entry ++ " outside code"
  | unknownOpcode byte pc => "unknown opcode " ++ toString byte.toNat ++ " at " ++ toString pc
  | truncatedInstruction op pc =>
    op.name ++ " at " ++ toString pc ++ " runs past the end of the code"

end MicroJava
