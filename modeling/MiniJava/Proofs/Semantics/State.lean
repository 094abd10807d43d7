import MiniJava.Lowering.Program
import MiniJava.Proofs.Resolution.ScopeMap
import MiniJava.Proofs.Results
import MiniJava.Typing.Expr

/-!
# What programs compute with

The meaning of programs, without any machine: values, objects and arrays on a heap
that only grows, static fields, and what has been printed. A reference is first
located and then read or written, since the target of an assignment is located before
its new value is computed.

Computations that the language leaves undefined end in a `Stop` that names the cause.
-/

namespace MiniJava

namespace Semantics

/-- A value. Objects and arrays are known by their place on the heap. -/
inductive Value
  | int (v : Int64)
  | bool (b : Bool)
  | null
  | ref (place : Nat)
  deriving DecidableEq, Repr

/-- Why a computation ends without a result. -/
inductive Stop
  | divisionByZero
  | divisionOverflow
  | nullAccess
  | indexOutOfRange
  | negativeSize
  | missingResult
  /-- The bound on nested calls or on the rounds of a loop was reached. -/
  | outOfFuel
  /-- An operation that does not fit its operands. -/
  | stuck
  deriving DecidableEq, Repr

/-- The result of a computation. -/
abbrev Result (α : Type) := Except Stop α

/-- What is found at a place of the heap. -/
inductive Block
  | object (className : String) (fields : String → Value)
  | array (elements : List Value)

/-- What a program has computed so far. -/
structure State where
  heap : List Block
  /-- The static fields by class and name. -/
  statics : String → String → Value
  /-- The numbers that were printed. -/
  output : List Int64

/-- What a field or an element of a type holds at first. -/
def initialValue : Ty → Value
  | .int => .int 0
  | .boolean => .bool false
  | _ => .null

/-- What the fields of a class hold at first. -/
def initialFields (table : ClassTable) (className name : String) : Value :=
  (table.field? className name).elim .null (initialValue ·.type)

/-- The state in which a program begins. -/
def State.initial (table : ClassTable) : State := ⟨[], initialFields table, []⟩

/-- Replaces the value that a name has. -/
def setField (fields : String → Value) (name : String) (v : Value) : String → Value := fun other =>
  if other = name then v else fields other

namespace State

/-- Puts a block on the heap. -/
def allocate (st : State) (block : Block) : Value × State :=
  (.ref st.heap.length, { st with heap := st.heap ++ [block] })

/-- Sets a static field. -/
def setStatic (st : State) (className name : String) (v : Value) : State :=
  { st with statics := fun c => if c = className then setField (st.statics c) name v
                                else st.statics c }

/-- Replaces what is found at a place of the heap. -/
def setBlock (st : State) (place : Nat) (block : Block) : State :=
  { st with heap := st.heap.set place block }

end State

/-! ## References -/

/-- A parameter or a local variable. -/
structure Var where
  type : Ty
  value : Value

/-- The surroundings of a running body. -/
structure Site where
  table : ClassTable
  className : String
  /-- The receiver, unless the method is static. -/
  receiver? : Option Nat

/-- What a reference leads to. -/
inductive Place
  | receiver
  | variable (name : String)
  | static (className name : String)
  | field (place : Nat) (className name : String)
  deriving DecidableEq, Repr

/-- The object that a value stands for. -/
def Value.object : Value → Result Nat
  | .ref place => .ok place
  | .null => .error .nullAccess
  | .int _ | .bool _ => .error .stuck

theorem Value.object_eq_ok {v : Value} {place : Nat} (h : v.object = .ok place) :
    v = .ref place := by
  cases v <;> cases h
  rfl

namespace Site

/-- The receiver as a value. -/
def receiver (site : Site) : Result Value :=
  match site.receiver? with
  | some place => .ok (.ref place)
  | none => .error .stuck

/-- The class in which the members of a reference are looked for, by the declared types. -/
def classOf? (site : Site) (vars : ScopeStack Var) (r : Ref) : Option String :=
  (Typing.Env.entity? ⟨site.table, site.className, vars.map (·.type)⟩ r).bind (·.className?)

/-- Where a field is. The object is computed only if the field belongs to it. -/
def fieldPlace (site : Site) (className name : String) (object : Result Value) : Result Place :=
  match site.table.field? className name with
  | none => .error .stuck
  | some f =>
    if f.isStatic then .ok (.static className name)
    else do return .field (← (← object).object) className name

/-- A field is a static one, or belongs to an object. -/
theorem fieldPlace_eq_ok {site : Site} {className name : String} {object : Result Value}
    {place : Place} (h : site.fieldPlace className name object = .ok place) :
    ∃ f, site.table.field? className name = some f ∧
      ((f.isStatic = true ∧ place = .static className name) ∨
        (f.isStatic = false ∧ ∃ o, object = .ok (.ref o) ∧ place = .field o className name)) := by
  unfold fieldPlace at h
  split at h
  next => cases h
  next f hf =>
    refine ⟨f, hf, ?_⟩
    split at h
    next hs =>
      cases h
      exact .inl ⟨hs, rfl⟩
    next hs =>
      obtain ⟨_, hv, o, ho, ⟨⟩⟩ := bind₂_eq_ok.mp h
      exact .inr ⟨by simpa using hs, o, Value.object_eq_ok ho ▸ hv, rfl⟩

/-- The value at a place. -/
def read (site : Site) (vars : ScopeStack Var) (st : State) : Place → Result Value
  | .receiver => site.receiver
  | .variable name =>
    match vars.lookup name with
    | some v => .ok v.value
    | none => .error .stuck
  | .static className name => .ok (st.statics className name)
  | .field place className name =>
    match st.heap[place]? with
    | some (.object found fields) => if found = className then .ok (fields name) else .error .stuck
    | _ => .error .stuck

/-- Where a reference leads. -/
def locate (site : Site) (vars : ScopeStack Var) (st : State) : Ref → Result Place
  | .this _ => .ok .receiver
  | .name _ text =>
    if (vars.lookup text).isSome then .ok (.variable text)
    else site.fieldPlace site.className text site.receiver
  | .member _ base field =>
    match site.classOf? vars base with
    | none => .error .stuck
    | some className => site.fieldPlace className field.value
        (site.locate vars st base >>= site.read vars st)

/-- The value of a reference. -/
def readRef (site : Site) (vars : ScopeStack Var) (st : State) (r : Ref) : Result Value :=
  site.locate vars st r >>= site.read vars st

/-- Puts a value at a place. -/
def write (vars : ScopeStack Var) (st : State) (v : Value) :
    Place → Result (ScopeStack Var × State)
  | .receiver => .error .stuck
  | .variable name =>
    match vars.lookup name with
    | some var => .ok (vars.set name ⟨var.type, v⟩, st)
    | none => .error .stuck
  | .static className name => .ok (vars, st.setStatic className name v)
  | .field place className name =>
    match st.heap[place]? with
    | some (.object found fields) =>
      if found = className then
        .ok (vars, st.setBlock place (.object className (setField fields name v)))
      else .error .stuck
    | _ => .error .stuck

end Site

/-! ## Elements -/

/-- The array that a value stands for, and the number of the element that another one stands
for. -/
def elementAt (st : State) : Value → Value → Result (Nat × List Value × Nat)
  | .ref place, .int i =>
    match st.heap[place]? with
    | some (.array elements) =>
      if 0 ≤ i.toInt ∧ i.toInt < elements.length then .ok (place, elements, i.toInt.toNat)
      else .error .indexOutOfRange
    | _ => .error .stuck
  | .null, .int _ => .error .nullAccess
  | _, _ => .error .stuck

/-- An element that is found is one of an array. -/
theorem elementAt_eq_ok {st : State} {array position : Value} {place i : Nat}
    {elements : List Value} (h : elementAt st array position = .ok (place, elements, i)) :
    array = .ref place ∧ st.heap[place]? = some (.array elements) ∧ i < elements.length ∧
      ∃ index : Int64, position = .int index ∧ index.toInt = i := by
  unfold elementAt at h
  split at h
  next index =>
    split at h
    next hblock =>
      split at h
      next =>
        cases h
        exact ⟨rfl, hblock, by omega, index, rfl, by omega⟩
      next => cases h
    next => cases h
  next => cases h
  next => cases h

/-- The value of an element. -/
def readElement (st : State) (array position : Value) : Result Value := do
  let (_, elements, i) ← elementAt st array position
  match elements[i]? with
  | some v => .ok v
  | none => .error .stuck

theorem readElement_eq_ok {st : State} {array position v : Value}
    (h : readElement st array position = .ok v) :
    ∃ place elements i, elementAt st array position = .ok (place, elements, i) ∧
      elements[i]? = some v := by
  obtain ⟨⟨place, elements, i⟩, hat, h⟩ := bind_eq_ok.mp h
  refine ⟨place, elements, i, hat, ?_⟩
  dsimp only at h
  split at h
  next hfound => cases h; exact hfound
  next => cases h

/-- Sets an element. -/
def writeElement (st : State) (array position v : Value) : Result State := do
  let (place, elements, i) ← elementAt st array position
  return st.setBlock place (.array (elements.set i v))

/-! ## Operators -/

/-- The value of a literal. -/
def literalValue : Literal → Value
  | .int v => .int v.toInt64
  | .bool b => .bool b
  | .null => .null

/-- The value of a unary operator. -/
def unaryValue : UnaryOp → Value → Result Value
  | .neg, .int v => .ok (.int (-v))
  | .not, .bool b => .ok (.bool !b)
  | _, _ => .error .stuck

/-- Whether two values are the same. Objects and arrays are the same only as themselves. -/
def sameValue : Value → Value → Result Bool
  | .int a, .int b => .ok (a = b)
  | .bool a, .bool b => .ok (a = b)
  | .null, .null => .ok true
  | .null, .ref _ | .ref _, .null => .ok false
  | .ref a, .ref b => .ok (a = b)
  | _, _ => .error .stuck

/-- A quotient, rounded towards zero. -/
def quotient (a b : Int64) : Result Int64 :=
  if b = 0 then .error .divisionByZero
  else if a = Int64.minValue ∧ b = -1 then .error .divisionOverflow
  else .ok (Int64.ofInt (a.toInt.tdiv b.toInt))

/-- The value of a binary operator. -/
def binaryValue : BinaryOp → Value → Value → Result Value
  | .add, .int a, .int b => .ok (.int (a + b))
  | .sub, .int a, .int b => .ok (.int (a - b))
  | .mul, .int a, .int b => .ok (.int (a * b))
  | .div, .int a, .int b => do return .int (← quotient a b)
  | .less, .int a, .int b => .ok (.bool (a < b))
  | .lessEq, .int a, .int b => .ok (.bool (a ≤ b))
  | .greater, .int a, .int b => .ok (.bool (b < a))
  | .greaterEq, .int a, .int b => .ok (.bool (b ≤ a))
  | .and, .bool a, .bool b => .ok (.bool (a && b))
  | .or, .bool a, .bool b => .ok (.bool (a || b))
  | .equal, a, b => do return .bool (← sameValue a b)
  | .notEqual, a, b => do return .bool !(← sameValue a b)
  | _, _, _ => .error .stuck

end Semantics

end MiniJava
