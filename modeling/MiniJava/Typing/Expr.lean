import MiniJava.ClassTable
import MiniJava.ScopeStack
import MiniJava.Typing.Fault

/-!
# Types of expressions

Inference gives a type to every expression, together with the faults found inside
it, in the order in which its parts are visited. An expression that is at fault
has the erroneous type, which fits everywhere, so nothing around it is reported
for the same reason. A reference that names nothing has the erroneous type and no
fault: that is for identification to report.
-/

namespace MiniJava.Typing

/-- What expressions are typed against. -/
structure Env where
  table : ClassTable
  className : String
  locals : ScopeStack Ty

/-- What a reference names, as far as types go. -/
inductive Entity
  | value (type : Ty)
  | classNamed (name : String)
  | method (entry : MethodEntry)
  deriving DecidableEq, Repr

/-- The class in which a member of an entity is looked for. -/
def Entity.className? : Entity → Option String
  | value (.object name) | classNamed name => some name
  | _ => none

/-- A type and the faults found on the way to it. -/
structure Typed where
  type : Ty
  faults : List (Located TypeFault)
  deriving Repr

/-- One fault, unless all is well. -/
def faultUnless (ok : Bool) (fault : TypeFault) (span : Span) : List (Located TypeFault) :=
  if ok then [] else [⟨fault, span⟩]

/-- Whether an operator that works on `expected` takes an operand of this type. -/
def takesOperand (expected type : Ty) : Bool :=
  expected.assignable type && type ≠ .null

/-- The type of the operand of a unary operator, which is that of its result. -/
def operandType : UnaryOp → Ty
  | .not => .boolean
  | .neg => .int

/-- What a binary operator asks of its operands. -/
def operandRule : BinaryOp → OperandRule
  | .or | .and => .bothBoolean
  | .less | .lessEq | .greater | .greaterEq | .add | .sub | .mul | .div => .bothInt
  | .equal | .notEqual => .sameType

/-- The type of the result of a binary operator. -/
def resultType : BinaryOp → Ty
  | .add | .sub | .mul | .div => .int
  | .or | .and | .less | .lessEq | .greater | .greaterEq | .equal | .notEqual => .boolean

/-- Whether operands of these types keep the rule. -/
def keepsRule (left right : Ty) : OperandRule → Bool
  | .bothBoolean => takesOperand .boolean left && takesOperand .boolean right
  | .bothInt => takesOperand .int left && takesOperand .int right
  | .sameType => left.comparable right

/-- The type of a literal. -/
def literalType : Literal → Ty
  | .int _ => .int
  | .bool _ => .boolean
  | .null => .null

/-- The faults of arguments against the types of the parameters, from the
argument with the given number on. -/
def argumentFaults (method : String) :
    Nat → List Ty → List (Located Ty) → List (Located TypeFault)
  | n, param :: params, arg :: args =>
    faultUnless (param.assignable arg.value) (.argument n method param arg.value) arg.span ++
      argumentFaults method (n + 1) params args
  | _, _, _ => []

namespace Env

/-- A member of a class. -/
def member? (env : Env) (className name : String) : Option Entity :=
  match env.table.field? className name with
  | some f => some (.value f.type)
  | none => (env.table.method? className name).map .method

/-- What a plain name names: a local, a member of the current class, or a class. -/
def name? (env : Env) (name : String) : Option Entity :=
  match env.locals.lookup name with
  | some type => some (.value type)
  | none =>
    match env.member? env.className name with
    | some entity => some entity
    | none => if env.table.contains name then some (.classNamed name) else none

/-- What a reference names. -/
def entity? (env : Env) : Ref → Option Entity
  | .this _ => some (.value (.object env.className))
  | .name _ text => env.name? text
  | .member _ base field => do
    let entity ← env.entity? base
    let className ← entity.className?
    env.member? className field.value

/-- The type of a reference as a value. -/
def valueType (env : Env) (r : Ref) : Ty :=
  match env.entity? r with
  | some (.value type) => type
  | _ => .error

/-- The type of an element, given that of the position. -/
def elementType (env : Env) (target : Ref) (span : Span) (position : Typed) : Typed :=
  let faults := position.faults ++
    faultUnless (Ty.int.assignable position.type) (.position position.type) span
  match env.valueType target with
  | .array element => ⟨element, faults⟩
  | .error => ⟨.error, faults⟩
  | other => ⟨.error, faults ++ [⟨.notIndexable target.text other, target.span⟩]⟩

/-- The type of a call, given those of the arguments and the faults in them. -/
def callType (env : Env) (method : Ref) (args : List (Located Ty))
    (faults : List (Located TypeFault)) : Typed :=
  match env.entity? method with
  | some (.method entry) =>
    if entry.params.length = args.length then
      ⟨entry.returns, faults ++ argumentFaults method.text 1 entry.params args⟩
    else
      ⟨entry.returns, faults ++
        [⟨.argumentCount method.text entry.params.length args.length, method.span⟩]⟩
  | _ => ⟨.error, faults⟩

mutual

/-- The type of an expression. -/
def infer (env : Env) : Expr → Typed
  | .literal _ value => ⟨literalType value, []⟩
  | .unary span op operand =>
    let t := env.infer operand
    let expected := operandType op
    if takesOperand expected t.type then ⟨expected, t.faults⟩
    else ⟨.error, t.faults ++ [⟨.operand op expected t.type, span⟩]⟩
  | .binary span op left right =>
    let l := env.infer left
    let r := env.infer right
    let rule := operandRule op
    if keepsRule l.type r.type rule then ⟨resultType op, l.faults ++ r.faults⟩
    else ⟨.error, l.faults ++ r.faults ++ [⟨.operands op rule l.type r.type, span⟩]⟩
  | .ref target => ⟨env.valueType target, []⟩
  | .index _ target position => env.elementType target position.span (env.infer position)
  | .call _ method args =>
    let (types, faults) := env.inferArgs args
    env.callType method types faults
  | .newObject _ className => ⟨.object className.value, []⟩
  | .newArray _ element size =>
    let t := env.infer size
    let faults := t.faults ++ faultUnless (Ty.int.assignable t.type) (.arraySize t.type) size.span
    match element.value with
    | .int | .object _ => ⟨.array element.value, faults⟩
    | other => ⟨.error, faults ++ [⟨.arrayElement other, element.span⟩]⟩

/-- The types of arguments, and all faults in them. -/
def inferArgs (env : Env) : List Expr → List (Located Ty) × List (Located TypeFault)
  | [] => ([], [])
  | e :: es =>
    let t := env.infer e
    let (types, faults) := env.inferArgs es
    (⟨t.type, e.span⟩ :: types, t.faults ++ faults)

end

end Env

end MiniJava.Typing
