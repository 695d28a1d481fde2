import MicroJava.CommandLine.Arguments
import MicroJava.CommandLine.Files
import MicroJava.CommandLine.Path
import MicroJava.Listing
import MicroJava.Text.Style
import MicroJava.Token.Listing

/-!
# The program

`run` does what the arguments ask for. Compiling writes an object file only if there are no
diagnostics; its name is that of the source with another extension unless one is given, and the
debug information goes into a file that differs from the object file in the extension. Listing an
object file uses the debug information given for it, or else that next to it.
-/

namespace MicroJava.CommandLine

/-- The name of the program with its version. -/
def versionText : String := "mjc 0.1.0\n"

/-- How the program is used. -/
def usageText : String :=
  Text.coloured 33 "Usage: mjc <file.mj> [options]" ++ "\n\nRun " ++
    Text.coloured 36 "mjc --help" ++ " for more information\n"

/-- The extension of object files. -/
def objectExtension : String := "obj"

/-- The extension of files with debug information. -/
def debugExtension : String := "dbg"

/-- What ends a run early. -/
inductive Failure where
  | file (e : FileError)
  | image (e : ImageError)
  | debugInfo (e : DebugInfoError)
  | label (e : LabelError)
  deriving DecidableEq, Inhabited

/-- The wording of a failure. -/
def Failure.message : Failure → String
  | file e => "I/O error: " ++ e.message
  | image e => "invalid image: " ++ e.message
  | debugInfo e => "debug info: " ++ e.message
  | label e => e.message

/-- The exit status of a run, and what it wrote to the two output channels. -/
structure Outcome where
  status : Nat
  output : String := ""
  errors : String := ""
  deriving DecidableEq, Inhabited

/-- The exit status for rejected arguments. -/
def rejectedStatus : Nat := 2

/-- A text in the given colour, unless colours are not wanted. -/
def paint (noColor : Bool) (code : Nat) (text : String) : String :=
  if noColor then text else Text.coloured code text

/-- The line that shows a failure. -/
def failureLine (noColor : Bool) (e : Failure) : String :=
  (if noColor then "error:" else Text.bolded (Text.coloured 31 "error:")) ++ " " ++ e.message ++
    "\n"

/-- The lines that show diagnostics. -/
def diagnosticLines (noColor : Bool) (ds : List Diagnostic) : String :=
  String.join (ds.map fun d => paint noColor 91 d.text ++ "\n")

/-- The line that tells the number of diagnostics of a source that was not compiled. -/
def summaryLine (noColor : Bool) (n : Nat) : String :=
  paint noColor 31 (toString n ++ " error(s), no object file written") ++ "\n"

variable {m : Type → Type} [Monad m]

/-- Reads a file. -/
def readFile (files : FileAccess m) (path : String) : ExceptT Failure m Bytes := do
  match ← files.read path with
  | .ok content => return content
  | .error e => throw (.file e)

/-- Reads a file as a text. -/
def readText (files : FileAccess m) (path : String) : ExceptT Failure m String := do
  match String.fromUTF8? ⟨(← readFile files path).toArray⟩ with
  | some text => return text
  | none => throw (.file .invalidText)

/-- Writes a file. -/
def writeFile (files : FileAccess m) (path : String) (content : Bytes) :
    ExceptT Failure m Unit := do
  match ← files.write path content with
  | .ok _ => return ()
  | .error e => throw (.file e)

/-- Shows the tokens of a source. -/
def runTokens (files : FileAccess m) (noColor : Bool) (r : CompileRequest) :
    ExceptT Failure m Outcome := do
  let source := TokenSource.scan (← readText files r.file)
  return {
    status := if source.faults.isEmpty then 0 else 1
    output := Token.listing (!noColor) r.terse (source.readings.map Reading.token)
    errors := diagnosticLines noColor source.faults }

/-- The name of the object file. -/
def CompileRequest.outputPath (r : CompileRequest) : String :=
  r.output.getD (Path.withExtension r.file objectExtension)

/-- Shows the listing of an image. -/
def showListing (i : Image) (d : Option DebugInfo) : ExceptT Failure m Outcome :=
  match Listing.ofImage i d with
  | .ok text => return { status := 0, output := text }
  | .error e => throw (.image e)

/-- Writes what a compilation yielded, and shows the listing of the code if it is asked for. -/
def writeCompilation (files : FileAccess m) (r : CompileRequest) (c : Compilation) :
    ExceptT Failure m Outcome := do
  writeFile files r.outputPath c.image.toBytes
  if r.debugInfo then
    writeFile files (Path.withExtension r.outputPath debugExtension) c.debug.encode
  if r.listing then showListing c.image (some c.debug)
  else return { status := 0 }

/-- Compiles a source. -/
def runCompile (files : FileAccess m) (noColor : Bool) (r : CompileRequest) :
    ExceptT Failure m Outcome := do
  match compile (← readText files r.file) r.minDistance with
  | .error e => throw (.label e)
  | .ok c =>
    if c.isValid then writeCompilation files r c
    else return {
      status := 1
      errors := diagnosticLines noColor c.diagnostics.toList ++
        summaryLine noColor c.diagnostics.size }

/-- The file with the debug information of an object file. -/
def debugPath? (files : FileAccess m) (image : String) (debug : Option String) :
    ExceptT Failure m (Option String) := do
  match debug with
  | some path => return some path
  | none =>
    let path := Path.withExtension image debugExtension
    return if ← files.isThere path then some path else none

/-- Reads a file with debug information. -/
def readDebugInfo (files : FileAccess m) (path : String) : ExceptT Failure m DebugInfo := do
  match DebugInfo.decode (← readFile files path) with
  | .ok d => return d
  | .error e => throw (.debugInfo e)

/-- Shows the listing of an object file. -/
def runDisassemble (files : FileAccess m) (image : String) (debug : Option String) :
    ExceptT Failure m Outcome := do
  match Image.ofBytes (← readFile files image) with
  | .error e => throw (.image e)
  | .ok i =>
    let d ← match ← debugPath? files image debug with
      | some path => some <$> readDebugInfo files path
      | none => pure none
    showListing i d

/-- Does what is asked for. -/
def runRequest (files : FileAccess m) (i : Invocation) : ExceptT Failure m Outcome :=
  match i.request with
  | .usage => return { status := 0, output := usageText }
  | .version => return { status := 0, output := versionText }
  | .compile r => if r.tokens then runTokens files i.noColor r else runCompile files i.noColor r
  | .disassemble image debug => runDisassemble files image debug

/-- Does what the arguments ask for. -/
def run (files : FileAccess m) (args : List String) : m Outcome := do
  match Invocation.ofArguments args with
  | none => return { status := rejectedStatus }
  | some i =>
    match ← (runRequest files i).run with
    | .ok outcome => return outcome
    | .error e => return { status := 1, errors := failureLine i.noColor e }

end MicroJava.CommandLine
