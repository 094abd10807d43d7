import MiniJava.Identification.Fault
import MiniJava.Program

/-!
# The classes of a program

A `ClassTable` holds what the rest of the compiler needs to know of every class:
three built-in ones, then those of the program in their order. Building it refuses
a class name or a member name that is already taken. An object has one word for
each of its instance fields, in the order of their declarations.
-/

namespace MiniJava

/-- What is known of a field. -/
structure FieldEntry where
  type : Ty
  isPrivate : Bool
  isStatic : Bool
  owner : String
  /-- The range of its name. -/
  span : Span
  deriving DecidableEq, Repr

/-- What is known of a method. -/
structure MethodEntry where
  params : List Ty
  returns : Ty
  isPrivate : Bool
  isStatic : Bool
  owner : String
  /-- The range of its name. -/
  span : Span
  deriving DecidableEq, Repr

/-- The bytes that one value takes up. -/
def wordSize : Nat := 8

/-- The members of a class by name, in the order of their declarations. -/
structure ClassEntry where
  fields : List (String × FieldEntry)
  methods : List (String × MethodEntry)
  deriving Repr

namespace ClassEntry

/-- The instance fields in order: the words of an object. -/
def instanceFields (c : ClassEntry) : List (String × FieldEntry) :=
  c.fields.filter (!·.2.isStatic)

/-- The bytes that an object takes up. -/
def instanceSize (c : ClassEntry) : Nat :=
  wordSize * c.instanceFields.length

/-- The byte offset of an instance field inside an object. -/
def fieldOffset? (c : ClassEntry) (name : String) : Option Nat :=
  (c.instanceFields.findIdx? (·.1 = name)).map (wordSize * ·)

end ClassEntry

/-- The first name of a list that is among those seen or occurs earlier in it. -/
def firstRepeated? (seen : List String) : List Ident → Option Ident
  | [] => none
  | name :: names =>
    if name.value ∈ seen then some name else firstRepeated? (name.value :: seen) names

namespace FieldEntry

/-- What a declaration says of its field. -/
def ofDecl (f : FieldDecl) : FieldEntry :=
  ⟨f.type.value, f.isPrivate, f.isStatic, f.owner, f.name.span⟩

end FieldEntry

namespace MethodEntry

/-- What a declaration says of its method. -/
def ofDecl (m : MethodDecl) : MethodEntry :=
  ⟨m.params.map (·.type.value), m.returns.value, m.isPrivate, m.isStatic, m.owner, m.name.span⟩

end MethodEntry

namespace ClassEntry

/-- The members of a class. Fields and methods share one space of names. -/
def ofDecl (c : ClassDecl) : Except (Located ScopeFault) ClassEntry :=
  match firstRepeated? [] (c.fields.map (·.name) ++ c.methods.map (·.name)) with
  | some name => .error ⟨.redeclared name.value, name.span⟩
  | none => .ok
    ⟨c.fields.map fun f => (f.name.value, FieldEntry.ofDecl f),
     c.methods.map fun m => (m.name.value, MethodEntry.ofDecl m)⟩

end ClassEntry

/-- The classes by name: the built-in ones, then those of a program in order. -/
structure ClassTable where
  classes : List (String × ClassEntry)
  deriving Repr

namespace ClassTable

/-- The class of texts. -/
def stringClass : String := "String"

/-- The class of what can print. No program can write its name. -/
def printStreamClass : String := "_PrintStream"

/-- The class that holds the standard output. -/
def systemClass : String := "System"

/-- The one method that prints. -/
def printMethod : String := "println"

/-- The field that holds the standard output. -/
def outField : String := "out"

/-- The classes that every program has. -/
def builtin : ClassTable where
  classes :=
    [(stringClass, ⟨[], []⟩), (printStreamClass, ⟨[], [(printMethod,
        ⟨[.int], .void, false, false, printStreamClass, Span.builtin⟩)]⟩),
     (systemClass, ⟨[(outField,
        ⟨.object printStreamClass, false, true, systemClass, Span.builtin⟩)], []⟩)]

/-- The class with this name. -/
def class? (t : ClassTable) (name : String) : Option ClassEntry :=
  t.classes.lookup name

/-- Whether there is a class with this name. -/
def contains (t : ClassTable) (name : String) : Bool :=
  (t.class? name).isSome

/-- The field of a class. -/
def field? (t : ClassTable) (className name : String) : Option FieldEntry :=
  (t.class? className).bind (·.fields.lookup name)

/-- The method of a class. -/
def method? (t : ClassTable) (className name : String) : Option MethodEntry :=
  (t.class? className).bind (·.methods.lookup name)

/-- Adds a class of the program behind the others. -/
def declare (t : ClassTable) (c : ClassDecl) : Except (Located ScopeFault) ClassTable :=
  if t.contains c.name.value then .error ⟨.redeclared c.name.value, c.name.span⟩
  else do
    let entry ← ClassEntry.ofDecl c
    return ⟨t.classes ++ [(c.name.value, entry)]⟩

/-- The table of a program. -/
def ofProgram (p : Program) : Except (Located ScopeFault) ClassTable :=
  p.classes.foldlM declare builtin

end ClassTable

end MiniJava
