import MicroJava.Kind
import MicroJava.Text.Quoted

/-!
# What can be wrong with a program

The causes of a diagnostic, grouped by the stage that finds them: forming tokens, following the
grammar, and the rules on names and types. `Message.text` words each of them.
`Message.isLexical` and `Message.isGrammatical` tell the causes of the first two groups from all
others.
-/

namespace MicroJava

/-- A cause of a diagnostic, with what its wording mentions. -/
inductive Message where
  -- forming tokens
  | emptyCharConst
  | missingQuote
  | unknownEscape (c : Char)
  | numberTooBig (digits : String)
  | endInComment
  | endInCharConst
  | lineEndInCharConst
  | invalidChar (c : Char)
  -- following the grammar
  | expected (kind : Kind)
  | invalidDeclaration
  | invalidMethod
  | invalidStatement
  | invalidFactor
  | missingAction
  | missingAssignOp
  | missingRelation
  | missingAddOp
  | missingMulOp
  | missingConstant
  -- names and types
  | duplicateName (name : String)
  | unknownName (name : String)
  | unknownField (name : String)
  | notType
  | notOperand
  | notValue
  | notMethod
  | notObject
  | notClass
  | notArray
  | breakOutsideLoop
  | constantMismatch
  | incompatible
  | onlyEquality
  | notInt
  | notAssignable (what : String)
  | sizeNotInt
  | indexNotInt
  | argumentMismatch
  | tooManyArguments
  | tooFewArguments
  | voidInExpression
  | referenceResult
  | mainNotVoid
  | mainWithParameters
  | missingMethod (name : String)
  | valueInVoid
  | valueMissing
  | resultMismatch
  | unreadable
  | unprintable
  | tooManyGlobals
  | tooManyFields
  | tooManyLocals
  | methodTooLarge
  | exponentTooLarge
  deriving DecidableEq, Inhabited

namespace Message

/-- The wording of a message. -/
def text : Message → String
  | emptyCharConst => "empty character constant"
  | missingQuote => "missing ' at end of character constant"
  | unknownEscape c => "undefined escape character sequence \\" ++ c.toString
  | numberTooBig digits => digits ++ " too big for integer constant"
  | endInComment => "unexpected end of file in comment"
  | endInCharConst => "unexpected end of file in character constant"
  | lineEndInCharConst => "illegal line end in character constant"
  | invalidChar c => "invalid character " ++ Text.quoted c
  | expected kind => kind.describe ++ " expected"
  | invalidDeclaration => "invalid declaration"
  | invalidMethod => "invalid method declaration"
  | invalidStatement => "invalid statement"
  | invalidFactor =>
    "invalid start of factor: identifier, number, character constant, new or \"(\" expected"
  | missingAction => "assignment, method call, increment or decrement expected"
  | missingAssignOp => "assignment operator expected"
  | missingRelation => "relational operator expected"
  | missingAddOp => "additive operator expected"
  | missingMulOp => "multiplicative operator expected"
  | missingConstant => "number or character constant expected"
  | duplicateName name => "duplicate declaration: " ++ name
  | unknownName name => "not found: " ++ name
  | unknownField name => "no such field: " ++ name
  | notType => "type expected"
  | notOperand => "operand expected"
  | notValue => "value expected"
  | notMethod => "called object is not a method"
  | notObject => "designator is not an object of a class type"
  | notClass => "class type expected"
  | notArray => "designator is not an array"
  | breakOutsideLoop => "break is not within a loop"
  | constantMismatch => "value does not match constant type"
  | incompatible => "incompatible types"
  | onlyEquality => "only equality checks (== and !=) allowed for reference types"
  | notInt => "operand(s) must be of type int"
  | notAssignable what => "cannot assign to " ++ what
  | sizeNotInt => "array size must be of type int"
  | indexNotInt => "array index must be of type int"
  | argumentMismatch => "parameter type mismatch"
  | tooManyArguments => "more actual than formal parameters"
  | tooFewArguments => "fewer actual than formal parameters"
  | voidInExpression => "invalid call of void method"
  | referenceResult => "method return type must be void or primitive"
  | mainNotVoid => "method main must be void"
  | mainWithParameters => "method main must not have parameters"
  | missingMethod name => "method not found: " ++ name
  | valueInVoid => "void method must not return a value"
  | valueMissing => "return value expected"
  | resultMismatch => "return type must match method type"
  | unreadable => "can only read int or char values"
  | unprintable => "can only print int or char values"
  | tooManyGlobals => "too many global variables"
  | tooManyFields => "too many fields"
  | tooManyLocals => "too many local variables"
  | methodTooLarge => "method too large: jump distance exceeds 32767 bytes"
  | exponentTooLarge => "exponent too large"

/-- Whether a message says that characters form no token. -/
def isLexical : Message → Bool
  | emptyCharConst | missingQuote | unknownEscape _ | numberTooBig _ | endInComment
  | endInCharConst | lineEndInCharConst | invalidChar _ => true
  | _ => false

/-- Whether a message says that a token sequence does not follow the grammar. -/
def isGrammatical : Message → Bool
  | expected _ | invalidDeclaration | invalidMethod | invalidStatement | invalidFactor
  | missingAction | missingAssignOp | missingRelation | missingAddOp | missingMulOp
  | missingConstant => true
  | _ => false

end Message

end MicroJava
