import MiniJava.Lowering.Frame

/-!
# Lowering of references

A reference to a variable or a field puts its address on the stack, and the
receiver puts its value there. Reading a reference turns an address into the value
that it holds.
-/

namespace MiniJava.Lowering

/-- What the code of a reference leaves on the stack. -/
inductive Top
  | address
  | value
  deriving DecidableEq, Repr

/-- Turns the address on the stack into the value that it holds. -/
def readAddress : LabelledCode :=
  Instr.ops [.popReg .rax, .load .rax ⟨.rax, 0⟩, .pushReg .rax]

/-- The code that reads what another piece of code has left. -/
def readTop : LabelledCode × Top → LabelledCode
  | (code, .address) => code ++ readAddress
  | (code, .value) => code

/-- The class of the objects of this type, which is the type of a reference. -/
def classOfType (r : Ref) : Ty → Result String
  | .object name => .ok name
  | _ => failAt (.notObject r.text) r.span

namespace Site

/-- The type that a name has as an object or a class that is named. -/
def typeOfName (site : Site) (slots : ScopeStack Slot) (name : String) : Ty :=
  match slots.lookup name with
  | some slot => slot.type
  | none =>
    match site.table.field? site.className name with
    | some f => f.type
    | none => if site.table.contains name then .object name else .error

/-- The class in which the members of a reference are looked for: that of its
declared type, or the one that it names. -/
def classOf (site : Site) (slots : ScopeStack Slot) : Ref → Result String
  | .this _ => .ok site.className
  | .name span text => classOfType (.name span text) (site.typeOfName slots text)
  | .member span base field => do
    let className ← site.classOf slots base
    classOfType (.member span base field)
      ((site.table.field? className field.value).elim .error (·.type))

/-- Puts the receiver on the stack, for the sake of a reference at this place. -/
def receiverCode (site : Site) (span : Span) : Result LabelledCode :=
  match site.receiver? with
  | some offset => .ok (Instr.ops [.pushMem (memAt .rbp offset)])
  | none => failAt .thisInStatic span

/-- Puts the address of a field on the stack. The code for the object is used if
the field belongs to an object. -/
def fieldCode (site : Site) (r : Ref) (className name : String)
    (object : Result LabelledCode) : Result LabelledCode :=
  match site.table.field? className name with
  | none => failAt (.notField r.text) r.span
  | some f =>
    if f.isStatic then
      match site.statics.displacement? className name with
      | none => failAt (.noStaticSlot className name) r.span
      | some disp => .ok (Instr.ops [.lea .rax (memAt .r15 disp), .pushReg .rax])
    else
      match (site.table.class? className).bind (·.fieldOffset? name) with
      | none => failAt (.noLayout className name) r.span
      | some offset => do
        let code ← object
        return code ++ Instr.ops [.popReg .rax, .lea .rax (memAt .rax offset), .pushReg .rax]

/-- Puts the address of a variable or a field, or the receiver, on the stack. -/
def refCode (site : Site) (slots : ScopeStack Slot) : Ref → Result (LabelledCode × Top)
  | .this span => do
    return (← site.receiverCode span, .value)
  | .name span text =>
    match slots.lookup text with
    | some slot => .ok (Instr.ops [.lea .rax (memAt .rbp slot.offset), .pushReg .rax], .address)
    | none => do
      return (← site.fieldCode (.name span text) site.className text (site.receiverCode span),
        .address)
  | .member span base field => do
    let className ← site.classOf slots base
    let code ← site.fieldCode (.member span base field) className field.value
      (readTop <$> site.refCode slots base)
    return (code, .address)

/-- Puts the value of a reference on the stack. -/
def valueCode (site : Site) (slots : ScopeStack Slot) (r : Ref) : Result LabelledCode :=
  readTop <$> site.refCode slots r

/-- Puts the address of a reference that is assigned to on the stack. -/
def targetCode (site : Site) (slots : ScopeStack Slot) (r : Ref) : Result LabelledCode := do
  match (← site.refCode slots r) with
  | (code, .address) => return code
  | (_, .value) => failAt (.notAssignable r.text) r.span

end Site

end MiniJava.Lowering
