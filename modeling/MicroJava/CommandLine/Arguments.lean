import MicroJava.Compile

/-!
# Arguments of the command line

`Invocation.ofArguments` reads the arguments from the first to the last. The first fault, or the
first request for help or for the version, decides the outcome. An option that takes a value takes
it from the rest of its argument or from the next argument, which must not look like an option. No
option may be given twice. The words `disasm` and `help` begin commands of their own only as the
first argument; `--` makes all arguments after it names of files.
-/

namespace MicroJava.CommandLine

/-- What is asked for when a source is given. -/
structure CompileRequest where
  file : String
  output : Option String := none
  tokens : Bool := false
  terse : Bool := false
  listing : Bool := false
  debugInfo : Bool := false
  minDistance : Nat := defaultDistance
  deriving DecidableEq, Inhabited

/-- What is asked for. -/
inductive Request where
  | usage
  | version
  | compile (r : CompileRequest)
  | disassemble (image : String) (debug : Option String)
  deriving DecidableEq, Inhabited

/-- What is asked for, and whether texts are shown without colours. -/
structure Invocation where
  request : Request
  noColor : Bool := false
  deriving DecidableEq, Inhabited

/-- An option as it is given: its name, and the value in the same argument. -/
inductive Argument where
  | option (name : String) (attached : Option String)
  | plain (value : String)
  | separator
  deriving DecidableEq

/-- Tells options from names. A single dash is a name. -/
def Argument.ofString (s : String) : Argument :=
  match s.toList with
  | '-' :: '-' :: [] => separator
  | '-' :: '-' :: cs =>
    let name := String.ofList (cs.takeWhile (· ≠ '='))
    match cs.dropWhile (· ≠ '=') with
    | [] => option ("--" ++ name) none
    | _ :: value => option ("--" ++ name) (some (String.ofList value))
  | '-' :: c :: [] => option ("-" ++ c.toString) none
  | '-' :: c :: '=' :: cs => option ("-" ++ c.toString) (some (String.ofList cs))
  | '-' :: c :: cs => option ("-" ++ c.toString) (some (String.ofList cs))
  | _ => plain s

/-- A whole number with an optional sign. -/
def integer? (s : String) : Option Int :=
  match s.toList with
  | '-' :: cs => (digits? cs).map fun n => -(n : Int)
  | '+' :: cs => (digits? cs).map fun n => (n : Int)
  | cs => (digits? cs).map fun n => (n : Int)
where
  digits? (cs : List Char) : Option Nat :=
    if cs.isEmpty || !cs.all Char.isDigit then none
    else some (cs.foldl (fun n c => n * 10 + Lexeme.digitValue c) 0)

/-- A distance between diagnostics. -/
def distance? (s : String) : Option Nat :=
  match integer? s with
  | some n => if 0 ≤ n ∧ n ≤ Reporter.maxDistance then some n.toNat else none
  | none => none

/-- A path, which is not empty. -/
def path? (s : String) : Option String :=
  if s = "" then none else some s

/-- The options that were read so far. -/
structure Options where
  file : Option String := none
  output : Option String := none
  tokens : Bool := false
  terse : Bool := false
  listing : Bool := false
  debugInfo : Bool := false
  minDistance : Option Nat := none
  noColor : Bool := false
  deriving DecidableEq, Inhabited

/-- The options of the command that lists an object file. -/
structure ListOptions where
  image : Option String := none
  debug : Option String := none
  noColor : Bool := false
  deriving DecidableEq, Inhabited

namespace Options

/-- The name of the source; there is only one. -/
def setFile (o : Options) (value : String) : Option Options :=
  if o.file.isSome then none else (path? value).map fun file => { o with file := some file }

def setOutput (o : Options) (value : String) : Option Options :=
  if o.output.isSome then none else (path? value).map fun path => { o with output := some path }

def setDistance (o : Options) (value : String) : Option Options :=
  if o.minDistance.isSome then none
  else (distance? value).map fun n => { o with minDistance := some n }

/-- Sets an option without a value. -/
def setFlag (o : Options) (name : String) : Option Options :=
  if name = "--tokens" then if o.tokens then none else some { o with tokens := true }
  else if name = "--terse" then if o.terse then none else some { o with terse := true }
  else if name = "--disasm" then if o.listing then none else some { o with listing := true }
  else if name = "--debug-info" then
    if o.debugInfo then none else some { o with debugInfo := true }
  else if name = "--no-color" then if o.noColor then none else some { o with noColor := true }
  else none

/-- The setter of an option with a value. -/
def setter? (name : String) : Option (Options → String → Option Options) :=
  if name = "-o" ∨ name = "--output" then some setOutput
  else if name = "--min-error-distance" then some setDistance
  else none

/-- What the options ask for together. A terse listing needs a listing of tokens. -/
def invocation? (o : Options) : Option Invocation :=
  if o.terse && !o.tokens then none
  else some
    { noColor := o.noColor
      request := match o.file with
        | none => .usage
        | some file => .compile
          { file, output := o.output, tokens := o.tokens, terse := o.terse, listing := o.listing
            debugInfo := o.debugInfo, minDistance := o.minDistance.getD defaultDistance } }

/-- Reads names of files only. -/
def readNames (o : Options) : List String → Option Invocation
  | [] => o.invocation?
  | name :: rest => (o.setFile name).bind (readNames · rest)

/-- Reads arguments after those that led to the options `o`. -/
def read (o : Options) : List String → Option Invocation
  | [] => o.invocation?
  | arg :: rest =>
    match Argument.ofString arg with
    | .separator => o.readNames rest
    | .plain value => (o.setFile value).bind (read · rest)
    | .option name attached =>
      if name = "-V" ∨ (name = "--version" ∧ attached = none) then some { request := .version }
      else if name = "-h" ∨ (name = "--help" ∧ attached = none) then some { request := .usage }
      else
        match setter? name, attached, rest with
        | some set, some value, rest => (set o value).bind (read · rest)
        | some set, none, next :: rest =>
          match Argument.ofString next with
          | .plain value => (set o value).bind (read · rest)
          | _ => none
        | some _, none, [] => none
        | none, some _, _ => none
        | none, none, rest => (o.setFlag name).bind (read · rest)

end Options

namespace ListOptions

/-- The name of the object file; there is only one. -/
def setImage (o : ListOptions) (value : String) : Option ListOptions :=
  if o.image.isSome then none else (path? value).map fun image => { o with image := some image }

def setDebug (o : ListOptions) (value : String) : Option ListOptions :=
  if o.debug.isSome then none else (path? value).map fun path => { o with debug := some path }

/-- What the options ask for together. -/
def invocation? (o : ListOptions) : Option Invocation :=
  o.image.map fun image => { noColor := o.noColor, request := .disassemble image o.debug }

/-- Reads names of files only. -/
def readNames (o : ListOptions) : List String → Option Invocation
  | [] => o.invocation?
  | name :: rest => (o.setImage name).bind (readNames · rest)

/-- Reads arguments after those that led to the options `o`. -/
def read (o : ListOptions) : List String → Option Invocation
  | [] => o.invocation?
  | arg :: rest =>
    match Argument.ofString arg with
    | .separator => o.readNames rest
    | .plain value => (o.setImage value).bind (read · rest)
    | .option name attached =>
      if name = "-h" ∨ (name = "--help" ∧ attached = none) then some { request := .usage }
      else if name = "--debug" then
        match attached, rest with
        | some value, rest => (o.setDebug value).bind (read · rest)
        | none, next :: rest =>
          match Argument.ofString next with
          | .plain value => (o.setDebug value).bind (read · rest)
          | _ => none
        | none, [] => none
      else if name = "--no-color" ∧ attached = none ∧ o.noColor = false then
        read { o with noColor := true } rest
      else none

end ListOptions

/-- What there is help on: the program, and each of its commands by name. No command has commands of
its own, so a name after that of a command is not known. -/
def helpTopics : List (List String) := [[], ["disasm"], ["help"]]

/-- What the arguments ask for, unless they are rejected. -/
def Invocation.ofArguments : List String → Option Invocation
  | "disasm" :: args => ListOptions.read {} args
  | "help" :: topic => if topic ∈ helpTopics then some { request := .usage } else none
  | args => Options.read {} args

end MicroJava.CommandLine
