import MicroJava.BigEndian
import MicroJava.Bytes
import MicroJava.CommandLine.Arguments
import MicroJava.CommandLine.Files
import MicroJava.CommandLine.Path
import MicroJava.CommandLine.Run
import MicroJava.Compile
import MicroJava.Compiler.Event
import MicroJava.Compiler.Expr
import MicroJava.Compiler.Operand
import MicroJava.Compiler.Program
import MicroJava.Compiler.State
import MicroJava.Compiler.Statement
import MicroJava.DebugInfo
import MicroJava.Diagnostic
import MicroJava.Emitter
import MicroJava.Grammar
import MicroJava.Image
import MicroJava.ImageError
import MicroJava.Instruction
import MicroJava.Item
import MicroJava.Kind
import MicroJava.Listing
import MicroJava.Main
import MicroJava.Message
import MicroJava.Opcode
import MicroJava.Operand
import MicroJava.Position
import MicroJava.Proofs.Acceptance
import MicroJava.Proofs.Allocation
import MicroJava.Proofs.Arrivals
import MicroJava.Proofs.Assembly
import MicroJava.Proofs.Backpatching
import MicroJava.Proofs.Balance
import MicroJava.Proofs.Bodies
import MicroJava.Proofs.Checks
import MicroJava.Proofs.Classes
import MicroJava.Proofs.Clauses
import MicroJava.Proofs.Closed
import MicroJava.Proofs.CodeSteps
import MicroJava.Proofs.CommentDepth
import MicroJava.Proofs.Comments
import MicroJava.Proofs.Completeness
import MicroJava.Proofs.Completion
import MicroJava.Proofs.Control
import MicroJava.Proofs.DebugNames
import MicroJava.Proofs.Declarations
import MicroJava.Proofs.Decoding
import MicroJava.Proofs.Emission
import MicroJava.Proofs.Encoding
import MicroJava.Proofs.Ensures
import MicroJava.Proofs.Entries
import MicroJava.Proofs.Execution
import MicroJava.Proofs.ExpressionCode
import MicroJava.Proofs.ExpressionRuns
import MicroJava.Proofs.FarWays
import MicroJava.Proofs.Fetches
import MicroJava.Proofs.FileLaws
import MicroJava.Proofs.FlowCode
import MicroJava.Proofs.Gaps
import MicroJava.Proofs.Labels
import MicroJava.Proofs.Layout
import MicroJava.Proofs.Limits
import MicroJava.Proofs.ListingText
import MicroJava.Proofs.Listings
import MicroJava.Proofs.Literals
import MicroJava.Proofs.Lookahead
import MicroJava.Proofs.Machine
import MicroJava.Proofs.Meaning
import MicroJava.Proofs.Members
import MicroJava.Proofs.MethodCode
import MicroJava.Proofs.Methods
import MicroJava.Proofs.NameFiles
import MicroJava.Proofs.NameLengths
import MicroJava.Proofs.ObjectFiles
import MicroJava.Proofs.OperandRuns
import MicroJava.Proofs.OutputFiles
import MicroJava.Proofs.Passes
import MicroJava.Proofs.Places
import MicroJava.Proofs.PlainCode
import MicroJava.Proofs.Printing
import MicroJava.Proofs.Programs
import MicroJava.Proofs.Ranges
import MicroJava.Proofs.Recording
import MicroJava.Proofs.References
import MicroJava.Proofs.RenamedCode
import MicroJava.Proofs.RenamedSteps
import MicroJava.Proofs.RenamedTables
import MicroJava.Proofs.Renaming
import MicroJava.Proofs.Reports
import MicroJava.Proofs.Respacing
import MicroJava.Proofs.Runs
import MicroJava.Proofs.ScopeHistory
import MicroJava.Proofs.ScopeStack
import MicroJava.Proofs.ShortCircuit
import MicroJava.Proofs.Sizes
import MicroJava.Proofs.Slots
import MicroJava.Proofs.Soundness
import MicroJava.Proofs.SourceOrder
import MicroJava.Proofs.Spelling
import MicroJava.Proofs.StackCode
import MicroJava.Proofs.StackDepth
import MicroJava.Proofs.StackEffect
import MicroJava.Proofs.StatementCode
import MicroJava.Proofs.StatementRuns
import MicroJava.Proofs.TableHistory
import MicroJava.Proofs.Throttling
import MicroJava.Proofs.TypeChecking
import MicroJava.Proofs.TypeLaws
import MicroJava.Proofs.Typing
import MicroJava.Symbol
import MicroJava.SymbolTable
import MicroJava.Text.Blank
import MicroJava.Text.CodeRange
import MicroJava.Text.Combining
import MicroJava.Text.Padding
import MicroJava.Text.Quoted
import MicroJava.Text.Style
import MicroJava.Text.Unprintable
import MicroJava.Token
import MicroJava.Token.Gap
import MicroJava.Token.Lexeme
import MicroJava.Token.Listing
import MicroJava.Token.Scan
import MicroJava.Tree.Expr
import MicroJava.Tree.Flow
import MicroJava.Tree.Intact
import MicroJava.Tree.Parsed
import MicroJava.Tree.Program
import MicroJava.Tree.ReadExpr
import MicroJava.Tree.ReadProgram
import MicroJava.Tree.ReadStatement
import MicroJava.Tree.Statement
import MicroJava.Ty
import MicroJava.Varint
