/-!
# Types

The types that a program can write, and two more that only arise in checking: the
type of `null`, and the type of an expression that is already reported. The
erroneous type goes with every other type, so one mistake is reported once.
-/

namespace MiniJava

/-- A type of the language. -/
inductive Ty
  | int
  | boolean
  | void
  | null
  /-- The type of an expression that has been reported. -/
  | error
  | object (className : String)
  | array (element : Ty)
  deriving DecidableEq, Repr, Inhabited

namespace Ty

/-- How a type is written. -/
def text : Ty → String
  | int => "int"
  | boolean => "boolean"
  | void => "void"
  | null => "null"
  | error => "<error>"
  | object className => className
  | array element => element.text ++ "[]"

/-- Whether a value of type `value` may be stored where `target` is expected. -/
def assignable : (target value : Ty) → Bool
  | error, _ => true
  | _, error => true
  | object _, null => true
  | array _, null => true
  | array target, array value => assignable target value
  | target, value => target = value

@[simp]
theorem assignable_self (t : Ty) : t.assignable t = true := by
  induction t with
  | array element ih => simpa [assignable] using ih
  | _ => simp [assignable]

/-- Whether values of the two types may be compared for equality. -/
def comparable (a b : Ty) : Bool :=
  a ≠ void && b ≠ void && (a.assignable b || b.assignable a)

/-- The class that a type is built from, if any: arrays are stripped. -/
def className? : Ty → Option String
  | object className => some className
  | array element => element.className?
  | _ => none

end Ty

end MiniJava
