import MiniJava.Diagnostic

/-!
# Faults of code generation

Code can be asked for without identifying names or checking types first. The
causes for which none can be generated, and their wording.
-/

namespace MiniJava

/-- Why no code can be generated. -/
inductive CodegenFault
  | noMain
  | duplicateMain
  | callOfThis
  | unknownMethod (reference : String)
  | thisInStatic
  | notField (reference : String)
  | noStaticSlot (className field : String)
  | noLayout (className field : String)
  | notObject (reference : String)
  | notAssignable (reference : String)
  | noCode (className method : String)
  | unresolvedBranch (index : Nat)
  deriving DecidableEq, Repr

/-- The wording of a fault. -/
def CodegenFault.message : CodegenFault → String
  | noMain => "no valid main method found"
  | duplicateMain => "duplicate main methods found"
  | callOfThis => "this is not a method"
  | unknownMethod reference => s!"unknown method {reference}"
  | thisInStatic => "this used in a static method"
  | notField reference => s!"{reference} is not a field"
  | noStaticSlot className field => s!"no static slot for {className}.{field}"
  | noLayout className field => s!"no layout for {className}.{field}"
  | notObject reference => s!"{reference} does not refer to an object"
  | notAssignable reference => s!"cannot assign to {reference}"
  | noCode className method => s!"no code generated for method {className}.{method}"
  | unresolvedBranch index => s!"unresolved branch at instruction {index}"

/-- A fault, and the place it points at if it has one. -/
structure CodegenError where
  fault : CodegenFault
  span : Option Span
  deriving DecidableEq, Repr

namespace CodegenError

/-- The report on a fault. -/
def diagnostic (e : CodegenError) : Diagnostic :=
  ⟨.codegen, e.fault.message, e.span⟩

end CodegenError

end MiniJava
