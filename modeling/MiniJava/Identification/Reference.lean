import MiniJava.ClassTable
import MiniJava.ScopeStack

/-!
# Identification of references

A plain name is looked for among the locals from the inside out, then among the
members of the current class, then among the classes. A qualified name follows
the declared types, one member at a time. What is found must be visible, and of
the right sort for the place where the reference stands.
-/

namespace MiniJava

/-- What is known of a parameter or a local variable. -/
structure LocalVar where
  type : Ty
  /-- False while the initializer of the variable is being read. -/
  isReady : Bool
  deriving DecidableEq, Repr

/-- What a reference stands for. -/
inductive Referent
  | this
  | variable (type : Ty)
  | field (type : Ty)
  | method
  | classNamed (name : String)
  deriving DecidableEq, Repr

namespace Identification

/-- The surroundings of a method body. -/
structure Site where
  table : ClassTable
  className : String
  isStatic : Bool

/-- The result of a step of identification. -/
abbrev Result (α : Type) := Except (Located ScopeFault) α

/-- A class type must name a class. -/
def checkType (table : ClassTable) (type : Located Ty) : Result Unit :=
  match type.value.className? with
  | some name =>
    if table.contains name then .ok () else .error ⟨.undeclaredClass name, type.span⟩
  | none => .ok ()

/-- Binds a name in the innermost scope. -/
def declare (locals : ScopeStack LocalVar) (name : Ident) (v : LocalVar) :
    Result (ScopeStack LocalVar) :=
  match locals.define? name.value v with
  | some locals => .ok locals
  | none => .error ⟨.redeclared name.value, name.span⟩

namespace Site

/-- What a plain name stands for. -/
def resolveName (site : Site) (locals : ScopeStack LocalVar) (span : Span) (name : String) :
    Result Referent :=
  match locals.lookup name with
  | some v =>
    if v.isReady then .ok (.variable v.type) else .error ⟨.ownInitializer name, span⟩
  | none =>
    match site.table.field? site.className name with
    | some f =>
      if site.isStatic && !f.isStatic then .error ⟨.instanceInStatic .field name, span⟩
      else .ok (.field f.type)
    | none =>
      match site.table.method? site.className name with
      | some m =>
        if site.isStatic && !m.isStatic then .error ⟨.instanceInStatic .method name, span⟩
        else .ok .method
      | none =>
        if site.table.contains name then .ok (.classNamed name)
        else .error ⟨.notFound name, span⟩

/-- Whether a member may be used here. Privacy is looked at first. -/
def checkAccess (site : Site) (className : String) (throughClass : Bool) (name : Ident)
    (owner : String) (isPrivate isStatic : Bool) : Result Unit :=
  if isPrivate && owner ≠ site.className then
    .error ⟨.privateMember name.value className, name.span⟩
  else if throughClass && !isStatic then
    .error ⟨.instanceThroughClass name.value className, name.span⟩
  else .ok ()

/-- What a member of a class stands for. -/
def resolveMember (site : Site) (className : String) (throughClass : Bool) (name : Ident) :
    Result Referent :=
  match site.table.field? className name.value with
  | some f => do
    site.checkAccess className throughClass name f.owner f.isPrivate f.isStatic
    return .field f.type
  | none =>
    match site.table.method? className name.value with
    | some m => do
      site.checkAccess className throughClass name m.owner m.isPrivate m.isStatic
      return .method
    | none => .error ⟨.memberNotFound name.value className, name.span⟩

/-- The class in which a member of this base is looked for, and whether the base
is that class itself. -/
def memberContext (site : Site) (base : Ref) (member : Ident) :
    Referent → Result (String × Bool)
  | .this => .ok (site.className, false)
  | .variable (.object name) | .field (.object name) => .ok (name, false)
  | .variable type | .field type =>
    .error ⟨.noMembers base.text type member.value, member.span⟩
  | .classNamed name => .ok (name, true)
  | .method => .error ⟨.methodAsValue base.text, base.span⟩

/-- What a reference stands for. -/
def resolve (site : Site) (locals : ScopeStack LocalVar) : Ref → Result Referent
  | .this span => if site.isStatic then .error ⟨.thisInStatic, span⟩ else .ok .this
  | .name span text => site.resolveName locals span text
  | .member _ base field => do
    let referent ← site.resolve locals base
    let (className, throughClass) ← site.memberContext base field referent
    site.resolveMember className throughClass field

/-- A reference whose value is read. -/
def checkValue (site : Site) (locals : ScopeStack LocalVar) (r : Ref) : Result Unit := do
  match (← site.resolve locals r) with
  | .this | .variable _ | .field _ => .ok ()
  | .classNamed _ => .error ⟨.classAsValue r.text, r.span⟩
  | .method => .error ⟨.methodAsValue r.text, r.span⟩

/-- A reference that is assigned to. -/
def checkTarget (site : Site) (locals : ScopeStack LocalVar) (r : Ref) : Result Unit := do
  match (← site.resolve locals r) with
  | .variable _ | .field _ => .ok ()
  | .this => .error ⟨.assignToThis, r.span⟩
  | .classNamed _ => .error ⟨.classAsValue r.text, r.span⟩
  | .method => .error ⟨.methodAsValue r.text, r.span⟩

/-- A reference that is called. -/
def checkCallee (site : Site) (locals : ScopeStack LocalVar) (r : Ref) : Result Unit := do
  match (← site.resolve locals r) with
  | .method => .ok ()
  | .this => .error ⟨.callOfThis, r.span⟩
  | _ => .error ⟨.notMethod r.text, r.span⟩

end Site

end Identification

end MiniJava
