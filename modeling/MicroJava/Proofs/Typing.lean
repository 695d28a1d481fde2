import MicroJava.Proofs.ExpressionCode
import MicroJava.Proofs.TypeLaws

/-!
# The types of expressions

The rules say which expressions have a type and which conditions are well typed, whatever the compiler does:
`Expr.HasType` for the values of expressions, `Designator.IsMethod` for the names that can only be called, and
`Condition.WellTyped` for conditions. They look at the tree and at a symbol table, and ask of the table only what
a name stands for, which fields a class has and which parameters a method has (`SymbolTable.Sees`).

An array type has many numbers, so a type is derived up to `Ty.same`. Which exponents there are is left open.
-/

namespace MicroJava

/-- The types of the parameters of a method, in order of declaration. -/
def SymbolTable.formals (t : SymbolTable) (id : SymbolId) : List Ty :=
  (((t.symbol id).parameters.map t.symbol).map Symbol.type).toList

namespace Tree

/-- A designator that can be called, because it is the name of a method. -/
inductive Designator.IsMethod (t : SymbolTable) : Designator → SymbolId → Prop
  | name {n : String} {id : SymbolId} (hn : t.lookup? n = some id) (hkind : (t.symbol id).kind = .method) :
      IsMethod t (.name (some n)) id

section Rules

variable (t : SymbolTable) (Exponent : Int → Prop)

mutual

/-- A sum is a value of a type. -/
inductive Expr.HasType : Expr → Ty → Prop
  | term {x : Term} {type : Ty} (hx : x.HasType type) : Expr.HasType (.term x) type
  | neg {x : Term} (hx : x.HasType .int) : Expr.HasType (.neg x) .int
  | add {e : Expr} {op : AddOp} {x : Term} (he : e.HasType .int) (hx : x.HasType .int) :
      Expr.HasType (.add e op x) .int

/-- A product is a value of a type. -/
inductive Term.HasType : Term → Ty → Prop
  | factor {f : Factor} {type : Ty} (hf : f.HasType type) : Term.HasType (.factor f) type
  | mul {x : Term} {op : MulOp} {f : Factor} (hx : x.HasType .int) (hf : f.HasType .int) :
      Term.HasType (.mul x op f) .int
  | power {x : Term} {k : Int} (hx : x.HasType .int) (hk : Exponent k) :
      Term.HasType (.power x (some k)) .int

/-- A factor is a value of a type. -/
inductive Factor.HasType : Factor → Ty → Prop
  | designator {d : Designator} {type : Ty} (hd : d.HasType type) : Factor.HasType (.designator d) type
  | call {d : Designator} {id : SymbolId} {arguments : List Expr} (hd : d.IsMethod t id)
      (harguments : ArgumentsFit arguments (t.formals id)) (hvoid : (t.symbol id).type ≠ .void) :
      Factor.HasType (.call d arguments true) (t.symbol id).type
  | number {n : Int} : Factor.HasType (.number n) .int
  | char {n : Int} : Factor.HasType (.char n) .char
  | newObject {n : String} {c : TypeId} (hn : t.type? (some n) = some (.object c)) :
      Factor.HasType (.newObject (some n)) (.object c)
  | newArray {n : String} {element : Ty} {size : Expr} {id : TypeId} (hn : t.type? (some n) = some element)
      (hsize : size.HasType .int) : Factor.HasType (.newArray (some n) size true) (.array id element)
  | group {e : Expr} {type : Ty} (he : e.HasType type) : Factor.HasType (.group e true) type

/-- A designator is a value of a type. -/
inductive Designator.HasType : Designator → Ty → Prop
  | name {n : String} {id : SymbolId} (hn : t.lookup? n = some id)
      (hkind : (t.symbol id).kind = .variable ∨ (t.symbol id).kind = .constant) :
      Designator.HasType (.name (some n)) (t.symbol id).type
  | field {d : Designator} {c : TypeId} {n : String} {id : SymbolId} (hd : d.HasType (.object c))
      (hn : t.field? (.object c) n = some id) : Designator.HasType (.field d (some n)) (t.symbol id).type
  | element {d : Designator} {id : TypeId} {type : Ty} {index : Expr} (hd : d.HasType (.array id type))
      (hindex : index.HasType .int) : Designator.HasType (.element d index true) type

/-- There are as many arguments as parameters, and each may be stored in its parameter. -/
inductive ArgumentsFit : List Expr → List Ty → Prop
  | nil : ArgumentsFit [] []
  | cons {e : Expr} {es : List Expr} {type formal : Ty} {formals : List Ty} (he : e.HasType type)
      (hformal : type.assignable formal = true) (hes : ArgumentsFit es formals) :
      ArgumentsFit (e :: es) (formal :: formals)

end

/-- The operands of a comparison may be compared, references only for equality. -/
inductive Comparison.WellTyped : Comparison → Prop
  | intro {left right : Expr} {r : Relation} {type type' : Ty} (hleft : left.HasType t Exponent type)
      (hright : right.HasType t Exponent type') (hcompatible : type.compatible type' = true)
      (hequality : type.isReference = true ∨ type'.isReference = true → r = .eq ∨ r = .ne) :
      Comparison.WellTyped ⟨left, some r, right⟩

/-- All comparisons of a conjunction are well typed. -/
inductive Conjunction.WellTyped : Conjunction → Prop
  | comparison {c : Comparison} (hc : c.WellTyped t Exponent) : Conjunction.WellTyped (.comparison c)
  | and {cs : Conjunction} {c : Comparison} (hcs : cs.WellTyped) (hc : c.WellTyped t Exponent) :
      Conjunction.WellTyped (.and cs c)

/-- All comparisons of a condition are well typed. -/
inductive Condition.WellTyped : Condition → Prop
  | conjunction {c : Conjunction} (hc : c.WellTyped t Exponent) : Condition.WellTyped (.conjunction c)
  | or {cs : Condition} {c : Conjunction} (hcs : cs.WellTyped) (hc : c.WellTyped t Exponent) :
      Condition.WellTyped (.or cs c)

end Rules

end Tree

end MicroJava
