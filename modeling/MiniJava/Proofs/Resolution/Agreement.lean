import MiniJava.Identification.Reference
import MiniJava.Proofs.Lowering.Targets
import MiniJava.Proofs.Resolution.ScopeMap
import MiniJava.Proofs.Resolution.TableOf
import MiniJava.Typing.Body

/-!
# One meaning for every reference

Three phases of the compiler look up names, each with code and scopes of its own:
identification, typing and lowering. This file shows that they find the same thing.

`Body` is a method body as the three phases see it, and `SameVariables` is all that
their scopes must have in common: a variable that is ready for identification has
the same type in the other two, and what is no variable for identification is none
for them either. While a variable is being initialized, only identification knows
it already, so nothing is said of it.

> `denotes_of_resolve`: by induction on the reference, whatever identification
> takes it for, typing takes it for the same, and lowering puts the address of that
> same field or variable on the stack, or the receiver, or calls that same method,
> or goes on in that same class.
-/

namespace MiniJava

open Lowering (memAt)

/-- A method body with what the phases know of its method. -/
structure Body where
  table : ClassTable
  statics : Lowering.StaticArea
  className : String
  isStatic : Bool
  returns : Ty
  /-- The number of parameters. -/
  arity : Nat

namespace Body

/-- The body of a method of a program with the given classes. -/
def ofMethod (t : ClassTable) (p : Program) (className : String) (m : MethodDecl) : Body :=
  ⟨t, .ofProgram p, className, m.isStatic, m.returns.value, m.params.length⟩

/-- The body as identification sees it. -/
def naming (b : Body) : Identification.Site := ⟨b.table, b.className, b.isStatic⟩

/-- The body as typing sees it. -/
def typing (b : Body) : Typing.Site := ⟨b.table, b.className, b.returns⟩

/-- The body as lowering sees it. -/
def lowering (b : Body) : Lowering.Site :=
  ⟨b.table, b.statics, b.className,
    if b.isStatic then none else some (Lowering.receiverOffset b.arity)⟩

@[simp] theorem naming_isStatic (b : Body) : b.naming.isStatic = b.isStatic := rfl
@[simp] theorem typing_table (b : Body) : b.typing.table = b.table := rfl
@[simp] theorem typing_className (b : Body) : b.typing.className = b.className := rfl
@[simp] theorem lowering_table (b : Body) : b.lowering.table = b.table := rfl
@[simp] theorem lowering_className (b : Body) : b.lowering.className = b.className := rfl

/-- Every static field of the classes has a word. -/
def StaticsPlaced (b : Body) : Prop :=
  ∀ className name f, b.table.field? className name = some f → f.isStatic = true →
    ∃ disp, b.statics.displacement? className name = some disp

end Body

/-- Scopes of three phases that hold the same variables. Of a variable that is being
initialized nothing is said. -/
structure SameVariables (locals : ScopeStack LocalVar) (types : ScopeStack Ty)
    (slots : ScopeStack Lowering.Slot) : Prop where
  ready : ∀ name v, locals.lookup name = some v → v.isReady = true →
    types.lookup name = some v.type ∧ ∃ slot, slots.lookup name = some slot ∧ slot.type = v.type
  absent : ∀ name, locals.lookup name = none →
    types.lookup name = none ∧ slots.lookup name = none

/-! ## What each phase takes a reference for -/

namespace Identification.Site

/-- The class and the name under which identification looks for a member. -/
def memberOf? (site : Site) (locals : ScopeStack LocalVar) : Ref → Option (String × String)
  | .this _ => none
  | .name _ text => some (site.className, text)
  | .member _ base field =>
    match site.resolve locals base >>= site.memberContext base field with
    | .ok (className, _) => some (className, field.value)
    | .error _ => none

end Identification.Site

namespace Lowering.Site

/-- The code for the object to which an instance field of a reference belongs. -/
def objectCode (site : Site) (slots : ScopeStack Slot) : Ref → Result LabelledCode
  | .this span => site.receiverCode span
  | .name span _ => site.receiverCode span
  | .member _ base _ => site.valueCode slots base

/-- The code of a reference puts the address of this field of this class on the stack. -/
def AddressesField (site : Site) (slots : ScopeStack Slot) (r : Ref) (className name : String) :
    Prop :=
  ∃ f code, site.table.field? className name = some f ∧
    site.refCode slots r = .ok (code, .address) ∧
    ((f.isStatic = true ∧ ∃ disp, site.statics.displacement? className name = some disp ∧
        code = Instr.ops [.lea .rax (memAt .r15 disp), .pushReg .rax]) ∨
      (f.isStatic = false ∧ ∃ (offset : Nat) (object : LabelledCode),
        (site.table.class? className).bind (·.fieldOffset? name) = some offset ∧
        site.objectCode slots r = .ok object ∧
        code = object ++ Instr.ops [.popReg .rax, .lea .rax (memAt .rax offset), .pushReg .rax]))

/-- The code of a reference puts the receiver on the stack. -/
def PushesReceiver (site : Site) (slots : ScopeStack Slot) (r : Ref) : Prop :=
  ∃ offset, site.receiver? = some offset ∧
    site.refCode slots r = .ok (Instr.ops [.pushMem (memAt .rbp offset)], .value)

/-- The code of a reference puts the address of a variable in this slot on the stack. -/
def AddressesSlot (site : Site) (slots : ScopeStack Slot) (r : Ref) (slot : Slot) : Prop :=
  (∃ span name, r = .name span name ∧ slots.lookup name = some slot) ∧
    site.refCode slots r =
      .ok (Instr.ops [.lea .rax (memAt .rbp slot.offset), .pushReg .rax], .address)

/-- A call of a reference goes to the method with this entry in this class. -/
def CallsMethod (site : Site) (slots : ScopeStack Slot) (r : Ref) (className name : String)
    (m : MethodEntry) : Prop :=
  site.table.method? className name = some m ∧
  ∃ callee, site.callee slots r = .ok callee ∧
    if m.owner = ClassTable.printStreamClass ∧ name = ClassTable.printMethod then
      callee = ⟨.printLine, [], 0⟩
    else if m.isStatic then callee = ⟨.method m.owner name, [], 0⟩
    else callee.label = .method m.owner name ∧ callee.receiverWords = 1 ∧
      site.objectCode slots r = .ok callee.receiver

end Lowering.Site

namespace Body

/-- Typing and lowering take a reference for what identification takes it for. -/
def Denotes (b : Body) (locals : ScopeStack LocalVar) (types : ScopeStack Ty)
    (slots : ScopeStack Lowering.Slot) (r : Ref) : Referent → Prop
  | .this =>
    (b.typing.env types).entity? r = some (.value (.object b.className)) ∧
      b.lowering.PushesReceiver slots r
  | .variable type =>
    (b.typing.env types).entity? r = some (.value type) ∧
      ∃ slot, b.lowering.AddressesSlot slots r slot ∧ slot.type = type
  | .field type =>
    (b.typing.env types).entity? r = some (.value type) ∧
      ∃ className name f, b.naming.memberOf? locals r = some (className, name) ∧
        b.table.field? className name = some f ∧ f.type = type ∧
        b.lowering.AddressesField slots r className name
  | .method =>
    ∃ className name m, b.naming.memberOf? locals r = some (className, name) ∧
      (b.typing.env types).entity? r = some (.method m) ∧
      b.lowering.CallsMethod slots r className name m
  | .classNamed name =>
    (b.typing.env types).entity? r = some (.classNamed name) ∧
      b.lowering.classOf slots r = .ok name

/-- Typing and lowering look for the members of a reference in the class in which
identification looks for them. -/
def Continues (b : Body) (types : ScopeStack Ty) (slots : ScopeStack Lowering.Slot) (r : Ref)
    (className : String) : Prop :=
  ((b.typing.env types).entity? r).bind (·.className?) = some className ∧
    b.lowering.classOf slots r = .ok className

end Body

/-! ## Fields and methods of a class -/

variable {className name : String} {f : FieldEntry} {m : MethodEntry}

/-- An instance field has a place in the objects of its class. -/
theorem ClassTable.exists_fieldOffset {t : ClassTable} (h : t.field? className name = some f)
    (hs : f.isStatic = false) :
    ∃ offset, (t.class? className).bind (·.fieldOffset? name) = some offset := by
  obtain ⟨entry, hc, hl⟩ := Option.bind_eq_some_iff.mp h
  have hmem : (name, f) ∈ entry.instanceFields := by
    simp [ClassEntry.instanceFields, mem_of_lookup hl, hs]
  obtain ⟨k, hk⟩ : ∃ k, entry.instanceFields.findIdx? (·.1 = name) = some k := by
    rw [← Option.isSome_iff_exists, List.findIdx?_isSome, List.any_eq_true]
    exact ⟨_, hmem, by simp⟩
  exact ⟨wordSize * k, by simp [hc, ClassEntry.fieldOffset?, hk]⟩

namespace Lowering.Site

variable (site : Site) (r : Ref) {className name : String}

/-- The address of a field can be computed if that of its object can, and of a static
field in any case. -/
theorem exists_fieldCode {object : Result LabelledCode}
    (hf : site.table.field? className name = some f)
    (hstatic : f.isStatic = true → ∃ disp, site.statics.displacement? className name = some disp)
    (hobject : f.isStatic = false → ∃ code, object = .ok code) :
    ∃ code, site.fieldCode r className name object = .ok code := by
  cases hs : f.isStatic with
  | true =>
    obtain ⟨_, hdisp⟩ := hstatic hs
    exact ⟨_, by simp only [fieldCode, hf, hs, hdisp]; rfl⟩
  | false =>
    obtain ⟨_, hoffset⟩ := ClassTable.exists_fieldOffset hf hs
    obtain ⟨_, rfl⟩ := hobject hs
    exact ⟨_, by simp only [fieldCode, hf, hs, hoffset]; rfl⟩

/-- A method can be called if its receiver can be computed; one without a receiver in
any case. -/
theorem calleeIn_cases {receiver : Result LabelledCode}
    (hm : site.table.method? className name = some m) (hreceiver : m.isStatic = false →
      ¬ (m.owner = ClassTable.printStreamClass ∧ name = ClassTable.printMethod) →
      ∃ code, receiver = .ok code) :
    ∃ callee, site.calleeIn r className name receiver = .ok callee ∧
      if m.owner = ClassTable.printStreamClass ∧ name = ClassTable.printMethod then
        callee = ⟨.printLine, [], 0⟩
      else if m.isStatic then callee = ⟨.method m.owner name, [], 0⟩
      else callee.label = .method m.owner name ∧ callee.receiverWords = 1 ∧
        receiver = .ok callee.receiver := by
  simp only [calleeIn, hm, Bool.and_eq_true, decide_eq_true_eq]
  split
  next hprint => exact ⟨_, rfl, rfl⟩
  next hprint =>
    split
    next hs => exact ⟨_, rfl, rfl⟩
    next hs =>
      obtain ⟨_, rfl⟩ := hreceiver (by simpa using hs) hprint
      exact ⟨_, rfl, rfl, rfl, rfl⟩

end Lowering.Site

/-! ## References -/

section

variable {b : Body} {locals : ScopeStack LocalVar} {types : ScopeStack Ty}
  {slots : ScopeStack Lowering.Slot}

/-- The receiver can be put on the stack in every method that has one. -/
theorem receiverCode_of_not_static (h : b.isStatic = false) (span : Span) :
    b.lowering.receiverCode span =
      .ok (Instr.ops [.pushMem (memAt .rbp (Lowering.receiverOffset b.arity))]) := by
  simp [Lowering.Site.receiverCode, Body.lowering, h]

variable {ref : Referent} {throughClass : Bool} {field : Ident} {span : Span} {base : Ref}

/-- What typing takes a name for that is no variable. -/
theorem entity?_name_of_absent (h : types.lookup name = none) :
    (b.typing.env types).entity? (.name span name) =
      ((b.typing.env types).member? b.className name).or
        (if b.table.contains name then some (.classNamed name) else none) := by
  simp only [Typing.Env.entity?, Typing.Env.name?, Typing.Site.env, h, Body.typing_className,
    Body.typing_table]
  split
  next he => rw [he]; rfl
  next he => rw [he]; rfl

theorem entity?_name_of_own {entity : Typing.Entity} (h : types.lookup name = none)
    (hm : (b.typing.env types).member? b.className name = some entity) :
    (b.typing.env types).entity? (.name span name) = some entity := by
  rw [entity?_name_of_absent h, hm]
  rfl

theorem member?_of_field (h : b.table.field? className name = some f) :
    (b.typing.env types).member? className name = some (.value f.type) := by
  simp [Typing.Env.member?, Typing.Site.env, h]

theorem member?_of_method (hf : b.table.field? className name = none)
    (h : b.table.method? className name = some m) :
    (b.typing.env types).member? className name = some (.method m) := by
  simp [Typing.Env.member?, Typing.Site.env, hf, h]

/-- An instance member of the current class can be named only where there is a receiver. -/
theorem exists_receiverCode {isStatic : Bool} (hallowed : ¬ (b.isStatic && !isStatic) = true)
    (hs : isStatic = false) (span : Span) : ∃ code, b.lowering.receiverCode span = .ok code := by
  have hb : b.isStatic = false := by simpa [hs] using hallowed
  exact ⟨_, receiverCode_of_not_static hb span⟩

theorem denotes_variable (hsame : SameVariables locals types slots) (span : Span) {v : LocalVar}
    (hv : locals.lookup name = some v) (hready : v.isReady = true) :
    b.Denotes locals types slots (.name span name) (.variable v.type) ∧
      ∀ className, v.type = .object className →
        b.Continues types slots (.name span name) className := by
  obtain ⟨htype, slot, hslot, hslotType⟩ := hsame.ready name v hv hready
  have hentity : (b.typing.env types).entity? (.name span name) = some (.value v.type) := by
    simp [Typing.Env.entity?, Typing.Env.name?, Typing.Site.env, htype]
  refine ⟨⟨hentity, slot, ⟨⟨span, name, rfl, hslot⟩, ?_⟩, hslotType⟩, ?_⟩
  · simp [Lowering.Site.refCode, hslot]
  · intro _ ht
    refine ⟨by rw [hentity, ht]; rfl, ?_⟩
    simp [Lowering.Site.classOf, Lowering.Site.typeOfName, hslot, hslotType, ht,
      Lowering.classOfType]

theorem denotes_ownField (hstatics : b.StaticsPlaced) (hsame : SameVariables locals types slots)
    (span : Span) (hnone : locals.lookup name = none)
    (hf : b.table.field? b.className name = some f)
    (hallowed : ¬ (b.isStatic && !f.isStatic) = true) :
    b.Denotes locals types slots (.name span name) (.field f.type) ∧
      ∀ className, f.type = .object className →
        b.Continues types slots (.name span name) className := by
  obtain ⟨htype, hslot⟩ := hsame.absent name hnone
  have hentity : (b.typing.env types).entity? (.name span name) = some (.value f.type) :=
    entity?_name_of_own htype (member?_of_field hf)
  obtain ⟨code, hcode⟩ := b.lowering.exists_fieldCode (.name span name) hf
    (hstatics _ _ f hf) (fun hs => exists_receiverCode hallowed hs span)
  obtain ⟨g, hg, hshape⟩ := Lowering.Site.fieldCode_eq_ok hcode
  refine ⟨⟨hentity, b.className, name, f, rfl, hf, rfl, g, code, hg, ?_, hshape⟩, ?_⟩
  · simp only [Lowering.Site.refCode, hslot, Body.lowering_className, hcode]
    rfl
  · intro _ ht
    refine ⟨by rw [hentity, ht]; rfl, ?_⟩
    simp [Lowering.Site.classOf, Lowering.Site.typeOfName, hslot, hf, ht, Lowering.classOfType]

theorem denotes_ownMethod (hsame : SameVariables locals types slots) (span : Span)
    (hnone : locals.lookup name = none) (hf : b.table.field? b.className name = none)
    (hm : b.table.method? b.className name = some m)
    (hallowed : ¬ (b.isStatic && !m.isStatic) = true) :
    b.Denotes locals types slots (.name span name) .method := by
  have hentity : (b.typing.env types).entity? (.name span name) = some (.method m) :=
    entity?_name_of_own (hsame.absent name hnone).1 (member?_of_method hf hm)
  have hcallee := b.lowering.calleeIn_cases (.name span name) hm
    (fun hs _ => exists_receiverCode hallowed hs span)
  exact ⟨b.className, name, m, rfl, hentity, hm, hcallee⟩

theorem denotes_classNamed (hsame : SameVariables locals types slots) (span : Span)
    (hnone : locals.lookup name = none) (hf : b.table.field? b.className name = none)
    (hm : b.table.method? b.className name = none) (hc : b.table.contains name = true) :
    b.Denotes locals types slots (.name span name) (.classNamed name) := by
  obtain ⟨htype, hslot⟩ := hsame.absent name hnone
  constructor
  · rw [entity?_name_of_absent htype, if_pos hc]
    simp [Typing.Env.member?, Typing.Site.env, hf, hm]
  · simp [Lowering.Site.classOf, Lowering.Site.typeOfName, hslot, hf, hc, Lowering.classOfType]

/-- Where the members of a reference are looked for, if it has any. -/
def Body.ContinuesFrom (b : Body) (types : ScopeStack Ty) (slots : ScopeStack Lowering.Slot)
    (r : Ref) (ref : Referent) : Prop :=
  ∀ field className throughClass,
    b.naming.memberContext r field ref = .ok (className, throughClass) →
      b.Continues types slots r className

/-- A value has members if it is an object, and they are those of its class. -/
theorem memberContext_value {site : Identification.Site} {r : Ref} {type : Ty}
    (href : ref = .variable type ∨ ref = .field type)
    (h : site.memberContext r field ref = .ok (className, throughClass)) :
    type = .object className ∧ throughClass = false := by
  rcases href with rfl | rfl <;> cases type <;> cases h <;> exact ⟨rfl, rfl⟩

/-- The passes agree on a name. -/
theorem denotes_name (hstatics : b.StaticsPlaced) (hsame : SameVariables locals types slots)
    (h : b.naming.resolveName locals span name = .ok ref) :
    b.Denotes locals types slots (.name span name) ref ∧
      b.ContinuesFrom types slots (.name span name) ref := by
  unfold Identification.Site.resolveName at h
  split at h
  next hv =>
    split at h
    next hready =>
      cases h
      obtain ⟨hd, hc⟩ := denotes_variable (b := b) hsame span hv hready
      -- Only what has an object type has members, and then it continues with that class.
      exact ⟨hd, fun _ c _ hctx => hc c (memberContext_value (.inl rfl) hctx).1⟩
    next => cases h
  next hnone =>
    split at h
    next hf =>
      split at h
      next => cases h
      next hallowed =>
        cases h
        obtain ⟨hd, hc⟩ := denotes_ownField hstatics hsame span hnone hf hallowed
        exact ⟨hd, fun _ c _ hctx => hc c (memberContext_value (.inr rfl) hctx).1⟩
    next hf =>
      split at h
      next hm =>
        split at h
        next => cases h
        next hallowed =>
          cases h
          exact ⟨denotes_ownMethod hsame span hnone hf hm hallowed, fun _ _ _ hctx => nomatch hctx⟩
      next hm =>
        split at h
        next hcontains =>
          cases h
          have hd := denotes_classNamed (b := b) hsame span hnone hf hm hcontains
          refine ⟨hd, ?_⟩
          rintro _ _ _ ⟨⟩
          exact ⟨by rw [hd.1]; rfl, hd.2⟩
        next => cases h

/-! ## Members -/

/-- The receiver, a variable or a field. -/
def Referent.isValue : Referent → Bool
  | .this | .variable _ | .field _ => true
  | .method | .classNamed _ => false

/-- A reference that stands for a value has one for lowering. -/
theorem exists_valueCode {r : Ref} (h : b.Denotes locals types slots r ref)
    (hvalue : ref.isValue = true) : ∃ code, b.lowering.valueCode slots r = .ok code := by
  cases ref with
  | this =>
    obtain ⟨-, _, -, hcode⟩ := h
    exact ⟨_, by rw [Lowering.Site.valueCode, hcode]; rfl⟩
  | «variable» =>
    obtain ⟨-, _, ⟨-, hcode⟩, -⟩ := h
    exact ⟨_, by rw [Lowering.Site.valueCode, hcode]; rfl⟩
  | field =>
    obtain ⟨-, _, _, _, -, -, -, _, _, -, hcode, -⟩ := h
    exact ⟨_, by rw [Lowering.Site.valueCode, hcode]; rfl⟩
  | method | classNamed => cases hvalue

/-- What is reached through the name of a class is static. -/
theorem checkAccess_eq_ok {site : Identification.Site} {owner : String} {name : Ident}
    {isPrivate isStatic : Bool}
    (h : site.checkAccess className throughClass name owner isPrivate isStatic = .ok ())
    (hs : isStatic = false) : throughClass = false := by
  unfold Identification.Site.checkAccess at h
  split at h
  next => cases h
  next =>
    split at h
    next => cases h
    next hthrough => simpa [hs] using hthrough

theorem entity?_member (span : Span) (field : Ident) (h : b.Continues types slots base className) :
    (b.typing.env types).entity? (.member span base field) =
      (b.typing.env types).member? className field.value := by
  obtain ⟨entity, hentity, hclass⟩ := Option.bind_eq_some_iff.mp h.1
  simp [Typing.Env.entity?, hentity, hclass]

theorem memberOf?_member (span : Span) (h : b.naming.resolve locals base = .ok ref)
    (hctx : b.naming.memberContext base field ref = .ok (className, throughClass)) :
    b.naming.memberOf? locals (.member span base field) = some (className, field.value) := by
  have hbind : (b.naming.resolve locals base >>= b.naming.memberContext base field) =
      .ok (className, throughClass) := by
    rw [h]
    exact hctx
  simp only [Identification.Site.memberOf?, hbind]

/-- They agree on a member if they do on what it belongs to. -/
theorem denotes_member (hstatics : b.StaticsPlaced) (span : Span) {baseRef : Referent}
    (hbase : b.naming.resolve locals base = .ok baseRef)
    (hdenotes : b.Denotes locals types slots base baseRef)
    (hctx : b.naming.memberContext base field baseRef = .ok (className, throughClass))
    (hcont : b.Continues types slots base className)
    (h : b.naming.resolveMember className throughClass field = .ok ref) :
    b.Denotes locals types slots (.member span base field) ref ∧
      b.ContinuesFrom types slots (.member span base field) ref := by
  have hmemberOf := memberOf?_member span hbase hctx
  have hentity := entity?_member span field hcont
  -- A member that is not static is used through a value, and that value has code.
  have hobject : throughClass = false → ∃ code, b.lowering.valueCode slots base = .ok code := by
    rintro rfl
    refine exists_valueCode hdenotes ?_
    cases baseRef with
    | this | «variable» | field => rfl
    | method | classNamed => cases hctx
  unfold Identification.Site.resolveMember at h
  split at h
  next f hf =>
    obtain ⟨⟨⟩, haccess, ⟨⟩⟩ := bind_eq_ok.mp h
    rw [member?_of_field hf] at hentity
    obtain ⟨code, hcode⟩ := b.lowering.exists_fieldCode (.member span base field) hf
      (hstatics _ _ f hf) (fun hs => hobject (checkAccess_eq_ok haccess hs))
    obtain ⟨g, hg, hshape⟩ := Lowering.Site.fieldCode_eq_ok hcode
    refine ⟨⟨hentity, className, field.value, f, hmemberOf, hf, rfl, g, code, hg, ?_, hshape⟩, ?_⟩
    · exact bind₂_eq_ok.mpr ⟨className, hcont.2, code, hcode, rfl⟩
    · intro _ _ _ hctx'
      have htype := (memberContext_value (.inr rfl) hctx').1
      refine ⟨by rw [hentity, htype]; rfl, ?_⟩
      refine bind_eq_ok.mpr ⟨className, hcont.2, ?_⟩
      rw [show b.lowering.table.field? className field.value = some f from hf, Option.elim, htype]
      rfl
  next hf =>
    split at h
    next m hm =>
      obtain ⟨⟨⟩, haccess, ⟨⟩⟩ := bind_eq_ok.mp h
      rw [member?_of_method hf hm] at hentity
      obtain ⟨callee, hcallee, hshape⟩ := b.lowering.calleeIn_cases (.member span base field) hm
        (fun hs _ => hobject (checkAccess_eq_ok haccess hs))
      refine ⟨⟨className, field.value, m, hmemberOf, hentity, hm, callee, ?_, hshape⟩,
        fun _ _ _ hctx' => nomatch hctx'⟩
      exact bind_eq_ok.mpr ⟨className, hcont.2, hcallee⟩
    next => cases h

/-- Whatever identification takes a reference for, the other phases take it for the same. -/
theorem denotes_of_resolve (hstatics : b.StaticsPlaced) (hsame : SameVariables locals types slots)
    {r : Ref} (h : b.naming.resolve locals r = .ok ref) :
    b.Denotes locals types slots r ref ∧ b.ContinuesFrom types slots r ref := by
  induction r generalizing ref with
  | this span =>
    rw [Identification.Site.resolve, Body.naming_isStatic] at h
    cases hs : b.isStatic with
    | true => rw [hs] at h; cases h
    | false =>
      rw [hs] at h
      cases h
      -- The receiver is in the frame of a method that is not static.
      refine ⟨⟨rfl, Lowering.receiverOffset b.arity, by simp [Body.lowering, hs], ?_⟩, ?_⟩
      · exact bind_eq_ok.mpr ⟨_, receiverCode_of_not_static hs span, rfl⟩
      · rintro _ _ _ ⟨⟩
        exact ⟨rfl, rfl⟩
  | name => exact denotes_name hstatics hsame h
  | member span _ _ ih =>
    obtain ⟨_, hbase, ⟨_, _⟩, hctx, h⟩ := bind₂_eq_ok.mp h
    obtain ⟨hdenotes, hcont⟩ := ih hbase
    exact denotes_member hstatics span hbase hdenotes hctx (hcont _ _ _ hctx) h

end

end MiniJava
