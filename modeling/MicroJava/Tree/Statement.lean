import MicroJava.Tree.Expr

/-!
# Trees of statements

As for expressions, every flag tells whether an expected token is there: `opened` and `closed` stand
for brackets or braces, `ended` for a semicolon. `Statement.missing` stands where a statement is
expected and none begins; `Statement.skipped` is a run of tokens inside a block that were passed
over in search of the next statement.
-/

namespace MicroJava.Tree

/-- The operators of assignments. -/
inductive AssignOp where
  | plain
  | plus
  | minus
  | times
  | slash
  | percent
  deriving DecidableEq, Inhabited

/-- The operation between the old and the new value that an assignment operator asks for. -/
def AssignOp.opcode? : AssignOp → Option Opcode
  | plain => none
  | plus => some .add
  | minus => some .sub
  | times => some .mul
  | slash => some .div
  | percent => some .rem

/-- What happens to the designator that a statement begins with. -/
inductive Action where
  | assign (op : AssignOp) (value : Expr)
  | call (arguments : List Expr) (closed : Bool)
  | increment
  | decrement
  | missing
  deriving Inhabited

/-- A statement. The numbers of skipped tokens are counted from zero for a single token. -/
inductive Statement where
  | action (d : Designator) (a : Action) (ended : Bool)
  | ifThen (opened : Bool) (condition : Condition) (closed : Bool) (body : Statement)
  | ifThenElse (opened : Bool) (condition : Condition) (closed : Bool) (body other : Statement)
  | whileDo (opened : Bool) (condition : Condition) (closed : Bool) (body : Statement)
  | leave (ended : Bool)
  | give (value : Option Expr) (ended : Bool)
  | read (opened : Bool) (d : Designator) (closed ended : Bool)
  | print (opened : Bool) (value : Expr) (width : Option (Option Int)) (closed ended : Bool)
  | block (statements : List Statement) (closed : Bool)
  | empty
  | missing
  | skipped (more : Nat)

instance : Inhabited Statement := ⟨.missing⟩

end MicroJava.Tree
