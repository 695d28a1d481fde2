import MicroJava.Tree.Statement

/-!
# Trees of programs

Declarations and the program that they make up, with the same kinds of gaps as in the trees of
expressions and statements. `Declaration.skipped` and `Member.skipped` are runs of tokens that were
passed over in search of the next declaration or method, counted from zero for a single token.
-/

namespace MicroJava.Tree

/-- A mention of a type. `array` is there for array types and tells whether the bracket is
closed. -/
structure TypeName where
  name : Option String
  array : Option Bool
  deriving DecidableEq, Inhabited

/-- Variables of one type. -/
structure VariableDecl where
  type : TypeName
  first : Option String
  others : List (Option String)
  ended : Bool
  deriving DecidableEq, Inhabited

/-- The value of a constant. -/
inductive ConstantValue where
  | number (value : Int)
  | char (value : Int)
  | missing
  deriving DecidableEq, Inhabited

/-- A constant. -/
structure ConstantDecl where
  type : TypeName
  name : Option String
  assigned : Bool
  value : ConstantValue
  ended : Bool
  deriving DecidableEq, Inhabited

/-- A class with its fields. -/
structure ClassDecl where
  name : Option String
  opened : Bool
  fields : List VariableDecl
  closed : Bool
  deriving DecidableEq, Inhabited

/-- A declaration before the methods of a program. -/
inductive Declaration where
  | constant (d : ConstantDecl)
  | globals (d : VariableDecl)
  | object (d : ClassDecl)
  | skipped (more : Nat)
  deriving DecidableEq, Inhabited

/-- A formal parameter. -/
structure Parameter where
  type : TypeName
  name : Option String
  deriving DecidableEq, Inhabited

/-- A method. It has no type if it is declared `void`. -/
structure MethodDecl where
  type : Option TypeName
  name : Option String
  opened : Bool
  parameters : List Parameter
  closed : Bool
  locals : List VariableDecl
  bodyOpened : Bool
  body : List Statement
  bodyClosed : Bool
  deriving Inhabited

/-- A method of a program. -/
inductive Member where
  | method (d : MethodDecl)
  | skipped (more : Nat)
  deriving Inhabited

/-- A program. `announced` tells whether it begins with the word for it, and `complete` whether its
closing brace is the last token. -/
structure Program where
  announced : Bool
  name : Option String
  declarations : List Declaration
  opened : Bool
  members : List Member
  closed : Bool
  complete : Bool
  deriving Inhabited

end MicroJava.Tree
