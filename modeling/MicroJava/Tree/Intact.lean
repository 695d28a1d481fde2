import MicroJava.Tree.Program

/-!
# Trees without gaps

A tree is intact if every token that the grammar asks for is there: no name, number or operator is
`none`, no flag is `false`, nothing is missing, and no tokens were passed over.
-/

namespace MicroJava.Tree

mutual

/-- No token is missing in a sum. -/
def Expr.Intact : Expr → Prop
  | .term t => t.Intact
  | .neg t => t.Intact
  | .add e _ t => e.Intact ∧ t.Intact

/-- No token is missing in a product. -/
def Term.Intact : Term → Prop
  | .factor f => f.Intact
  | .mul t _ f => t.Intact ∧ f.Intact
  | .power t exponent => t.Intact ∧ exponent.isSome

/-- No token is missing in a factor. -/
def Factor.Intact : Factor → Prop
  | .designator d => d.Intact
  | .call d arguments closed => d.Intact ∧ ArgumentsIntact arguments ∧ closed
  | .number _ => True
  | .char _ => True
  | .newObject type => type.isSome
  | .newArray element size closed => element.isSome ∧ size.Intact ∧ closed
  | .group e closed => e.Intact ∧ closed
  | .missing => False

/-- No token is missing in a designator. -/
def Designator.Intact : Designator → Prop
  | .name n => n.isSome
  | .field d n => d.Intact ∧ n.isSome
  | .element d index closed => d.Intact ∧ index.Intact ∧ closed

/-- No token is missing in the arguments of a call. -/
def ArgumentsIntact : List Expr → Prop
  | [] => True
  | e :: es => e.Intact ∧ ArgumentsIntact es

end

/-- No token is missing in a comparison. -/
def Comparison.Intact (c : Comparison) : Prop :=
  c.left.Intact ∧ c.relation.isSome ∧ c.right.Intact

/-- No token is missing in a conjunction. -/
def Conjunction.Intact : Conjunction → Prop
  | .comparison c => c.Intact
  | .and cs c => cs.Intact ∧ c.Intact

/-- No token is missing in a condition. -/
def Condition.Intact : Condition → Prop
  | .conjunction c => c.Intact
  | .or cs c => cs.Intact ∧ c.Intact

/-- No token is missing in what happens to a designator. -/
def Action.Intact : Action → Prop
  | .assign _ value => value.Intact
  | .call arguments closed => ArgumentsIntact arguments ∧ closed
  | .increment => True
  | .decrement => True
  | .missing => False

/-- No token is missing in the condition of a statement and its parentheses. -/
def GuardIntact (opened : Bool) (condition : Condition) (closed : Bool) : Prop :=
  opened ∧ condition.Intact ∧ closed

mutual

/-- No token is missing in a statement, and none was passed over. -/
def Statement.Intact : Statement → Prop
  | .action d a ended => d.Intact ∧ a.Intact ∧ ended
  | .ifThen opened condition closed body => GuardIntact opened condition closed ∧ body.Intact
  | .ifThenElse opened condition closed body other =>
      GuardIntact opened condition closed ∧ body.Intact ∧ other.Intact
  | .whileDo opened condition closed body => GuardIntact opened condition closed ∧ body.Intact
  | .leave ended => ended
  | .give value ended => (∀ e, value = some e → e.Intact) ∧ ended
  | .read opened d closed ended => opened ∧ d.Intact ∧ closed ∧ ended
  | .print opened value width closed ended =>
      opened ∧ value.Intact ∧ width ≠ some none ∧ closed ∧ ended
  | .block statements closed => StatementsIntact statements ∧ closed
  | .empty => True
  | .missing => False
  | .skipped _ => False

/-- No token is missing in statements one after the other, and none was passed over. -/
def StatementsIntact : List Statement → Prop
  | [] => True
  | s :: ss => s.Intact ∧ StatementsIntact ss

end

/-- No token is missing in a mention of a type. -/
def TypeName.Intact (t : TypeName) : Prop :=
  t.name.isSome ∧ t.array ≠ some false

/-- No token is missing in the declaration of variables. -/
def VariableDecl.Intact (d : VariableDecl) : Prop :=
  d.type.Intact ∧ d.first.isSome ∧ (∀ name ∈ d.others, name.isSome) ∧ d.ended

/-- The value of a constant is there. -/
def ConstantValue.Intact (v : ConstantValue) : Prop :=
  v ≠ .missing

/-- No token is missing in the declaration of a constant. -/
def ConstantDecl.Intact (d : ConstantDecl) : Prop :=
  d.type.Intact ∧ d.name.isSome ∧ d.assigned ∧ d.value.Intact ∧ d.ended

/-- No token is missing in a class. -/
def ClassDecl.Intact (d : ClassDecl) : Prop :=
  d.name.isSome ∧ d.opened ∧ (∀ field ∈ d.fields, field.Intact) ∧ d.closed

/-- No token is missing in a declaration, and none was passed over. -/
def Declaration.Intact : Declaration → Prop
  | .constant d => d.Intact
  | .globals d => d.Intact
  | .object d => d.Intact
  | .skipped _ => False

/-- No token is missing in a formal parameter. -/
def Parameter.Intact (p : Parameter) : Prop :=
  p.type.Intact ∧ p.name.isSome

/-- No token is missing in a method. -/
structure MethodDecl.Intact (d : MethodDecl) : Prop where
  type : ∀ t, d.type = some t → t.Intact
  name : d.name.isSome
  opened : d.opened
  parameters : ∀ p ∈ d.parameters, p.Intact
  closed : d.closed
  locals : ∀ v ∈ d.locals, v.Intact
  bodyOpened : d.bodyOpened
  body : StatementsIntact d.body
  bodyClosed : d.bodyClosed

/-- No token is missing in a method of a program, and none was passed over. -/
def Member.Intact : Member → Prop
  | .method d => d.Intact
  | .skipped _ => False

/-- No token is missing in a program, and none is left over. -/
structure Program.Intact (p : Program) : Prop where
  announced : p.announced
  name : p.name.isSome
  declarations : ∀ d ∈ p.declarations, d.Intact
  opened : p.opened
  members : ∀ m ∈ p.members, m.Intact
  closed : p.closed
  complete : p.complete

end MicroJava.Tree
