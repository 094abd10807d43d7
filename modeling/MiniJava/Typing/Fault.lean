import MiniJava.Diagnostic
import MiniJava.Program

/-!
# Faults of typing

The causes for which a program is ill-typed, and their wording.
-/

namespace MiniJava

/-- What a binary operator asks of its operands. -/
inductive OperandRule
  | bothBoolean
  | bothInt
  | sameType
  deriving DecidableEq, Repr

/-- The wording of what an operator asks for. -/
def OperandRule.text : OperandRule → String
  | bothBoolean => "both sides must be of type boolean"
  | bothInt => "both sides must be of type int"
  | sameType => "both sides must have the same type"

/-- A statement that has a condition. -/
inductive Conditional
  | branch
  | loop
  deriving DecidableEq, Repr

/-- The word that the statement begins with. -/
def Conditional.text : Conditional → String
  | branch => "if"
  | loop => "while"

/-- Why a program is ill-typed. -/
inductive TypeFault
  | declaration (name : String) (expected found : Ty)
  | assignment (target : String) (expected found : Ty)
  | element (target : String) (expected found : Ty)
  | valueFromVoid
  | returned (expected found : Ty)
  | missingValue (expected : Ty)
  | missingReturn (method : String)
  | condition (statement : Conditional) (found : Ty)
  | position (found : Ty)
  | notIndexable (target : String) (found : Ty)
  | operand (op : UnaryOp) (expected found : Ty)
  | operands (op : BinaryOp) (rule : OperandRule) (left right : Ty)
  | arraySize (found : Ty)
  | arrayElement (found : Ty)
  | argumentCount (method : String) (expected found : Nat)
  /-- Arguments are numbered from one. -/
  | argument (number : Nat) (method : String) (expected found : Ty)
  deriving DecidableEq, Repr

namespace TypeFault

/-- The wording of a fault. -/
def message : TypeFault → String
  | declaration name expected found =>
    s!"types do not match for declaration of {name}: expected {expected.text}, found {found.text}"
  | assignment target expected found =>
    s!"types do not match for assignment to {target}: expected {expected.text}, found {found.text}"
  | element target expected found =>
    s!"types do not match for element of {target}: expected {expected.text}, found {found.text}"
  | valueFromVoid => "return expression not allowed in a void method"
  | returned expected found =>
    s!"return type mismatch: expected {expected.text}, found {found.text}"
  | missingValue expected => s!"missing return value of type {expected.text}"
  | missingReturn method => s!"missing return statement in method {method}"
  | condition statement found =>
    s!"{statement.text} condition must be of type boolean, found {found.text}"
  | position found => s!"index expression must be of type int, found {found.text}"
  | notIndexable target found => s!"{target} has type {found.text} and cannot be indexed"
  | operand op expected found =>
    s!"operator {op.text} requires {expected.text}, found {found.text}"
  | operands op rule left right =>
    s!"for {op.text}, {rule.text} (found {left.text} and {right.text})"
  | arraySize found => s!"array size must be of type int, found {found.text}"
  | arrayElement found => s!"array element type must be int or a class, found {found.text}"
  | argumentCount method expected found =>
    s!"method {method} expects {expected} argument(s), found {found}"
  | argument number method expected found =>
    s!"argument {number} of {method}: expected {expected.text}, found {found.text}"

/-- The report on a fault. -/
def diagnostic (fault : Located TypeFault) : Diagnostic :=
  ⟨.typing, fault.value.message, some fault.span⟩

end TypeFault

end MiniJava
