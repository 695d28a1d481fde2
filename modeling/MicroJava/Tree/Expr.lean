import MicroJava.Opcode

/-!
# Trees of expressions

A tree shows how the grammar reads a sequence of tokens. Operators of one rank are applied from the
left to the right, so the left operand of an operator is a tree and the right one is of the next
rank. `**` has the rank of `*` and takes the whole product before it.

A tree is made for any sequence of tokens, also for one that does not follow the grammar. Where a
token is missing the tree has a gap: a name, number or operator that is `none`, a flag that tells
that a closing bracket is not there, or `Factor.missing` where no factor begins.
-/

namespace MicroJava.Tree

/-- The operators of sums. -/
inductive AddOp where
  | plus
  | minus
  deriving DecidableEq, Inhabited

/-- The operators of products. -/
inductive MulOp where
  | times
  | slash
  | percent
  deriving DecidableEq, Inhabited

/-- The operation that an operator of sums asks for. -/
def AddOp.opcode : AddOp → Opcode
  | plus => .add
  | minus => .sub

/-- The operation that an operator of products asks for. -/
def MulOp.opcode : MulOp → Opcode
  | times => .mul
  | slash => .div
  | percent => .rem

mutual

/-- A sum. A leading minus applies to the whole first product. -/
inductive Expr where
  | term (t : Term)
  | neg (t : Term)
  | add (e : Expr) (op : AddOp) (t : Term)

/-- A product. An exponent is a number. -/
inductive Term where
  | factor (f : Factor)
  | mul (t : Term) (op : MulOp) (f : Factor)
  | power (t : Term) (exponent : Option Int)

/-- A factor. `closed` tells whether the bracket that ends it is there. -/
inductive Factor where
  | designator (d : Designator)
  | call (d : Designator) (arguments : List Expr) (closed : Bool)
  | number (value : Int)
  | char (value : Int)
  | newObject (type : Option String)
  | newArray (element : Option String) (size : Expr) (closed : Bool)
  | group (e : Expr) (closed : Bool)
  | missing

/-- A name with the fields and elements selected from it, one after the other. -/
inductive Designator where
  | name (n : Option String)
  | field (d : Designator) (n : Option String)
  | element (d : Designator) (index : Expr) (closed : Bool)

end

instance : Inhabited Factor := ⟨.missing⟩
instance : Inhabited Term := ⟨.factor .missing⟩
instance : Inhabited Expr := ⟨.term (.factor .missing)⟩
instance : Inhabited Designator := ⟨.name none⟩

/-- A comparison of two expressions. -/
structure Comparison where
  left : Expr
  relation : Option Relation
  right : Expr
  deriving Inhabited

/-- Comparisons that must all hold. -/
inductive Conjunction where
  | comparison (c : Comparison)
  | and (cs : Conjunction) (c : Comparison)
  deriving Inhabited

/-- Conjunctions of which one must hold. -/
inductive Condition where
  | conjunction (c : Conjunction)
  | or (cs : Condition) (c : Conjunction)
  deriving Inhabited

end MicroJava.Tree
