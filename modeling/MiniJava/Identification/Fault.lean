import MiniJava.Diagnostic
import MiniJava.Ty

/-!
# Faults of identification

The causes for which the names of a program cannot be identified, and their
wording.
-/

namespace MiniJava

/-- What a member is. -/
inductive MemberSort
  | field
  | method
  deriving DecidableEq, Repr

/-- How a report names a sort of member. -/
def MemberSort.text : MemberSort → String
  | field => "field"
  | method => "method"

/-- Why the names of a program cannot be identified. -/
inductive ScopeFault
  /-- A declaration of a name that its scope already has. -/
  | redeclared (name : String)
  | undeclaredClass (name : String)
  /-- A declaration that is itself the body of a branch or a loop. -/
  | bareDeclaration
  | thisInStatic
  | ownInitializer (name : String)
  /-- An instance member used by its plain name in a static method. -/
  | instanceInStatic (sort : MemberSort) (name : String)
  | notFound (name : String)
  | memberNotFound (name className : String)
  /-- A member of something that is no object. -/
  | noMembers (base : String) (type : Ty) (name : String)
  | privateMember (name className : String)
  /-- An instance member reached through the name of its class. -/
  | instanceThroughClass (name className : String)
  | callOfThis
  | notMethod (reference : String)
  | assignToThis
  | classAsValue (reference : String)
  | methodAsValue (reference : String)
  deriving DecidableEq, Repr

namespace ScopeFault

/-- The wording of a fault. -/
def message : ScopeFault → String
  | redeclared name => s!"{name} already exists in this scope"
  | undeclaredClass name => s!"undeclared class: {name}"
  | bareDeclaration => "solitary variable declaration statement not permitted here"
  | thisInStatic => "this cannot be used in a static method"
  | ownInitializer name => s!"variable {name} cannot be used in its own initializer"
  | instanceInStatic sort name =>
    s!"non-static {sort.text} {name} cannot be referenced from a static context"
  | notFound name => s!"declaration not found: {name}"
  | memberNotFound name className => s!"declaration not found: {name} in class {className}"
  | noMembers base type name => s!"{base} has type {type.text}, which has no member {name}"
  | privateMember name className => s!"{name} is private in class {className}"
  | instanceThroughClass name className =>
    s!"non-static member {name} cannot be accessed through class {className}"
  | callOfThis => "this is not allowed as a method call"
  | notMethod reference => s!"{reference} is not a method"
  | assignToThis => "cannot assign to this"
  | classAsValue reference => s!"class {reference} cannot be used as a value"
  | methodAsValue reference => s!"method {reference} cannot be used as a value"

/-- The report on a fault. -/
def diagnostic (fault : Located ScopeFault) : Diagnostic :=
  ⟨.identification, fault.value.message, some fault.span⟩

end ScopeFault

end MiniJava
