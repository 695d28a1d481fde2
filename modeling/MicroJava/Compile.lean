import MicroJava.Compiler.Program
import MicroJava.Token.Scan
import MicroJava.Tree.ReadProgram

/-!
# From text to object file

The tokens of a source are read as a tree, the tree is compiled, and the log of the compilation is
matched with the readings of the source. The outcome always has an image, also for a program with
faults; it is of use only if there are no diagnostics.
-/

namespace MicroJava

/-- The distance between diagnostics unless another one is asked for. -/
def defaultDistance : Nat := 3

/-- What compiling a source yields, with the symbol table at the end. -/
structure Compilation where
  image : Image
  diagnostics : Array Diagnostic
  debug : DebugInfo
  table : SymbolTable
  deriving Inhabited

/-- Whether the image may be used. -/
def Compilation.isValid (c : Compilation) : Bool :=
  c.diagnostics.isEmpty

namespace TokenSource

/-- The state at the end of compiling a source. -/
def compiler (source : TokenSource) : Compiler :=
  ((Tree.Program.read source.tokens).compile.run Compiler.initial).2

/-- The diagnostics of a compilation of a source with the given log. -/
def diagnostics (source : TokenSource) (minDistance : Nat) (log : Array Event) :
    Array Diagnostic :=
  ((Reporter.start minDistance).replay source.last source.readings log.toList).diagnostics

/-- Compiles a source. -/
def compile (source : TokenSource) (minDistance : Nat) : Except LabelError Compilation := do
  let s := source.compiler
  let image ← s.code.toImage
  return { image, diagnostics := source.diagnostics minDistance s.log, debug := s.debug,
           table := s.table }

end TokenSource

/-- Compiles a text. -/
def compile (text : String) (minDistance : Nat) : Except LabelError Compilation :=
  (TokenSource.scan text).compile minDistance

end MicroJava
