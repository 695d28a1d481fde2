import MicroJava.CommandLine.Run

/-!
# The command

The program on the files and output channels of the machine.
-/

namespace MicroJava.CommandLine

/-- Why an operation on a file of the machine failed. -/
def FileError.ofMachine : IO.Error → FileError
  | .noFileOrDirectory .. => .notFound
  | .inappropriateType _ 20 _ => .notDirectory
  | .inappropriateType .. => .isDirectory
  | e => .other (toString e)

/-- Access to the files of the machine. -/
def machineAccess : FileAccess IO where
  read path := do
    try
      return .ok (← IO.FS.readBinFile path).data.toList
    catch e => return .error (.ofMachine e)
  write path content := do
    try
      IO.FS.writeBinFile path ⟨content.toArray⟩
      return .ok ()
    catch e => return .error (.ofMachine e)
  isThere path := do
    try
      let _ ← IO.FS.readBinFile path
      return true
    catch e => return FileError.ofMachine e ≠ .notFound

end MicroJava.CommandLine

/-- Runs the program and hands its exit status to the machine. -/
def main (args : List String) : IO UInt32 := do
  let outcome ← MicroJava.CommandLine.run MicroJava.CommandLine.machineAccess args
  IO.print outcome.output
  IO.eprint outcome.errors
  return UInt32.ofNat outcome.status
