import MiniJava.Proofs.Resolution.Lockstep
import MiniJava.Proofs.Scoping.References
import MiniJava.Proofs.Typing.Rules

/-!
# Inferred types

Inference gives a type to every expression, also to one that is at fault, and the erroneous type
goes with everything. If no fault is found, nothing of that has happened: the type is the one that
the rules give to the expression (`infer_eq_iff`).

From the rules to inference nothing is needed (`infer_of_hasType`). For the other direction
identification is needed, as a reference that stands for nothing has the erroneous type without any
fault, and that no type of the program is itself erroneous (`Program.TypesWritten`).
-/

namespace MiniJava

open List

/-! ## Types -/

variable {target a b : Ty}

namespace Ty

/-- The types that an expression can have. -/
def IsProper (t : Ty) : Prop := t.IsWritten ∨ t = null ∨ t = void

theorem IsWritten.element {t : Ty} (h : (array t).IsWritten) : t.IsWritten := by
  cases h with
  | intArray => exact .int
  | objectArray className => exact .object className

theorem assignable_of_fits {value : Ty} (h : value.Fits target) :
    target.assignable value = true := by
  rcases h with rfl | ⟨rfl, htarget⟩
  · exact assignable_self value
  · cases target with
    | object | array => rfl
    | int | boolean | void | null | error => cases htarget

/-- Without erroneous types, what can be stored somewhere is what fits there. -/
theorem assignable_iff {value : Ty} (htarget : target.IsProper) (hvalue : value.IsProper) :
    target.assignable value = true ↔ value.Fits target := by
  refine ⟨?_, assignable_of_fits⟩
  intro h
  rcases htarget with htarget | rfl | rfl <;> rcases hvalue with hvalue | rfl | rfl
  · cases htarget <;> cases hvalue <;> simp_all [assignable, Fits]
  · cases htarget <;> simp_all [assignable, Fits, IsReference]
  · cases htarget <;> cases h
  · cases hvalue <;> cases h
  · exact .inl rfl
  · cases h
  · cases hvalue <;> cases h
  · cases h
  · exact .inl rfl

theorem IsReference.ne_void {t : Ty} (h : t.IsReference) : t ≠ void := by
  rintro rfl
  exact h

theorem comparable_of_comparable (h : a.Comparable b) : a.comparable b = true := by
  simp only [comparable, Bool.and_eq_true, Bool.or_eq_true, decide_eq_true_eq]
  rcases h with ⟨rfl, hvoid⟩ | ⟨rfl, href⟩ | ⟨href, rfl⟩
  · exact ⟨⟨hvoid, hvoid⟩, .inl (assignable_self a)⟩
  · exact ⟨⟨nofun, href.ne_void⟩, .inr (assignable_of_fits (.inr ⟨rfl, href⟩))⟩
  · exact ⟨⟨href.ne_void, nofun⟩, .inl (assignable_of_fits (.inr ⟨rfl, href⟩))⟩

theorem comparable_iff (ha : a.IsProper) (hb : b.IsProper) :
    a.comparable b = true ↔ a.Comparable b := by
  refine ⟨?_, comparable_of_comparable⟩
  simp only [comparable, Bool.and_eq_true, Bool.or_eq_true, decide_eq_true_eq, assignable_iff ha hb,
    assignable_iff hb ha]
  rintro ⟨⟨hvoid, -⟩, (rfl | ⟨rfl, href⟩) | (rfl | ⟨rfl, href⟩)⟩
  · exact .inl ⟨rfl, hvoid⟩
  · exact .inr (.inr ⟨href, rfl⟩)
  · exact .inl ⟨rfl, hvoid⟩
  · exact .inr (.inl ⟨rfl, href⟩)

end Ty

namespace Typing

theorem faultUnless_eq_nil_iff {ok : Bool} {fault : TypeFault} {span : Span} :
    faultUnless ok fault span = [] ↔ ok = true := by
  cases ok <;> simp [faultUnless]

variable {r : Ref} {type : Ty} {d : Denoted} {e : Expr}

theorem takesOperand_iff {expected : Ty} (hexpected : expected = .int ∨ expected = .boolean)
    (htype : type.IsProper) : takesOperand expected type = true ↔ type = expected := by
  have hproper : expected.IsProper := by
    rcases hexpected with rfl | rfl
    · exact .inl .int
    · exact .inl .boolean
  have hplain : ¬ expected.IsReference ∧ expected ≠ .null := by
    rcases hexpected with rfl | rfl <;> exact ⟨id, nofun⟩
  simp only [takesOperand, Bool.and_eq_true, decide_eq_true_eq, Ty.assignable_iff hproper htype,
    Ty.Fits, hplain.1, and_false, or_false]
  constructor
  · exact And.left
  · rintro rfl
    exact ⟨rfl, hplain.2⟩

theorem keepsRule_of_operates {op : BinaryOp} {result : Ty} (h : Operates op a b result) :
    keepsRule a b (operandRule op) = true ∧ resultType op = result := by
  cases h with
  | logical hop =>
    rcases mem_pair.mp hop with rfl | rfl <;> exact ⟨rfl, rfl⟩
  | order hop | arithmetic hop =>
    simp only [mem_cons, not_mem_nil, or_false] at hop
    rcases hop with rfl | rfl | rfl | rfl <;> exact ⟨rfl, rfl⟩
  | equality hop hcomparable =>
    have hkeeps := Ty.comparable_of_comparable hcomparable
    rcases mem_pair.mp hop with rfl | rfl <;> exact ⟨hkeeps, rfl⟩

/-- Operands of proper types that pass the check of an operator are those that it works on. -/
theorem operates_of_keepsRule {op : BinaryOp} (ha : a.IsProper) (hb : b.IsProper)
    (h : keepsRule a b (operandRule op) = true) : Operates op a b (resultType op) := by
  have hbool := fun {t : Ty} (h : t.IsProper) => takesOperand_iff (.inr rfl) h
  have hint := fun {t : Ty} (h : t.IsProper) => takesOperand_iff (.inl rfl) h
  cases op with
  | or | and =>
    simp only [operandRule, keepsRule, Bool.and_eq_true, hbool ha, hbool hb] at h
    obtain ⟨rfl, rfl⟩ := h
    exact .logical (by decide)
  | less | lessEq | greater | greaterEq =>
    simp only [operandRule, keepsRule, Bool.and_eq_true, hint ha, hint hb] at h
    obtain ⟨rfl, rfl⟩ := h
    exact .order (by decide)
  | add | sub | mul | div =>
    simp only [operandRule, keepsRule, Bool.and_eq_true, hint ha, hint hb] at h
    obtain ⟨rfl, rfl⟩ := h
    exact .arithmetic (by decide)
  | equal | notEqual => exact .equality (by decide) ((Ty.comparable_iff ha hb).mp h)

/-! ## References -/

/-- What an entity stands for by the rules. -/
def Entity.denoted : Entity → Denoted
  | value type => .value type
  | classNamed name => .classNamed name
  | method entry => .method entry.params entry.returns

theorem Entity.className?_denoted (entity : Entity) :
    entity.denoted.className? = entity.className? := by
  cases entity with
  | value type => cases type <;> rfl
  | classNamed | method => rfl

/-- The context of the rules that belongs to an environment. -/
def Env.context (env : Env) (p : Program) : Context := ⟨p, env.className, env.locals.bindings⟩

section

variable {env : Env} {p : Program} (ht : env.table.IsTableOf p)
include ht

/-- The rules find the member that the table has. -/
theorem memberDenotes_iff {className name : String} :
    MemberDenotes p className name d ↔
      ∃ entity, env.member? className name = some entity ∧ entity.denoted = d := by
  unfold Env.member?
  constructor
  · intro h
    cases h with
    | out => exact ⟨_, by rw [ht.field?_out], rfl⟩
    | print => exact ⟨_, by rw [ht.field?_of_method? ht.method?_print, ht.method?_print]; rfl, rfl⟩
    | field hc hf => exact ⟨_, by rw [ht.field?_of_mem hc hf], rfl⟩
    | method hc hm =>
      have hmethod := ht.method?_of_mem hc hm
      exact ⟨_, by rw [ht.field?_of_method? hmethod, hmethod]; rfl, rfl⟩
  · rintro ⟨_, hmember, rfl⟩
    split at hmember
    next hf =>
      cases hmember
      rcases ht.field?_cases hf with ⟨rfl, rfl, rfl⟩ | ⟨c, hc, rfl, d, hd, rfl, rfl⟩
      · exact .out
      · exact .field hc hd
    next =>
      obtain ⟨_, he, rfl⟩ := Option.map_eq_some_iff.mp hmember
      rcases ht.method?_cases he with ⟨rfl, rfl, rfl⟩ | ⟨_, hc, rfl, _, hd, rfl, rfl⟩
      · exact .print
      · exact .method hc hd

/-- A reference stands for what is found in the table and the scopes. -/
theorem denotes_iff (r : Ref) :
    (env.context p).Denotes r d ↔ ∃ entity, env.entity? r = some entity ∧ entity.denoted = d := by
  induction r generalizing d with
  | this =>
    constructor
    · intro h
      cases h
      exact ⟨_, rfl, rfl⟩
    · rintro ⟨_, ⟨⟩, rfl⟩
      exact .this
  | name _ text =>
    -- Both rules look for a variable, then for a member of the own class, then for a class.
    have hvars : (env.context p).vars.lookup text = env.locals.lookup text :=
      ScopeStack.lookup_bindings env.locals text
    rw [Env.entity?, Env.name?]
    constructor
    · intro h
      cases h with
      | bound hvar =>
        rw [hvars] at hvar
        exact ⟨_, by rw [hvar], rfl⟩
      | own hvar hmember =>
        rw [hvars] at hvar
        obtain ⟨entity, hentity, rfl⟩ := (memberDenotes_iff ht).mp hmember
        replace hentity : env.member? env.className text = some entity := hentity
        refine ⟨entity, ?_, rfl⟩
        rw [hvar]
        dsimp only
        rw [hentity]
      | classNamed hvar hmember hclass =>
        rw [hvars] at hvar
        have hnone : env.member? env.className text = none := by
          by_contra hsome
          obtain ⟨entity, hentity⟩ := Option.ne_none_iff_exists'.mp hsome
          exact hmember _ ((memberDenotes_iff ht).mpr ⟨entity, hentity, rfl⟩)
        refine ⟨.classNamed text, ?_, rfl⟩
        rw [hvar]
        dsimp only
        rw [hnone]
        exact if_pos (ht.contains_iff.mpr hclass)
    · rintro ⟨entity, h, rfl⟩
      split at h
      next hvar =>
        cases h
        exact .bound (hvars.trans hvar)
      next hvar =>
        split at h
        next hmember =>
          cases h
          exact .own (hvars.trans hvar) ((memberDenotes_iff ht).mpr ⟨_, hmember, rfl⟩)
        next hmember =>
          split at h
          next hclass =>
            cases h
            refine .classNamed (hvars.trans hvar) ?_ (ht.contains_iff.mp hclass)
            intro _ hd
            obtain ⟨_, hentity, -⟩ := (memberDenotes_iff ht).mp hd
            cases hmember.symm.trans hentity
          next => cases h
  | member _ _ _ ih =>
    constructor
    · intro h
      cases h with
      | member hbase hclass hmember =>
        obtain ⟨_, hinner, rfl⟩ := ih.mp hbase
        obtain ⟨entity, hentity, rfl⟩ := (memberDenotes_iff ht).mp hmember
        rw [Entity.className?_denoted] at hclass
        refine ⟨entity, ?_, rfl⟩
        rw [Env.entity?, hinner]
        simp only [Option.bind_eq_bind, Option.bind_some, hclass, hentity]
    · rintro ⟨entity, h, rfl⟩
      rw [Env.entity?] at h
      obtain ⟨inner, hinner, h⟩ := Option.bind_eq_some_iff.mp h
      obtain ⟨className, hclass, h⟩ := Option.bind_eq_some_iff.mp h
      refine .member (ih.mpr ⟨inner, hinner, rfl⟩) ?_ ((memberDenotes_iff ht).mpr ⟨_, h, rfl⟩)
      rw [Entity.className?_denoted]
      exact hclass

/-- A reference stands for a value of the type that is found. -/
theorem denotes_value_iff :
    (env.context p).Denotes r (.value type) ↔ env.entity? r = some (.value type) := by
  rw [denotes_iff ht]
  constructor
  · rintro ⟨entity, hentity, heq⟩
    cases entity with
    | value => cases heq; exact hentity
    | classNamed | method => cases heq
  · intro h
    exact ⟨_, h, rfl⟩

theorem denotes_method_iff {params : List Ty} {returns : Ty} :
    (env.context p).Denotes r (.method params returns) ↔
      ∃ entry, env.entity? r = some (.method entry) ∧ entry.params = params ∧
        entry.returns = returns := by
  rw [denotes_iff ht]
  constructor
  · rintro ⟨entity, hentity, heq⟩
    cases entity with
    | method entry => cases heq; exact ⟨entry, hentity, rfl, rfl⟩
    | value | classNamed => cases heq
  · rintro ⟨_, hentity, rfl, rfl⟩
    exact ⟨_, hentity, rfl⟩

end

/-! ## From the rules to inference -/

/-- Arguments that fit raise no faults. -/
theorem argumentFaults_eq_nil {method : String} {n : Nat} {params : List Ty}
    {args : List (Located Ty)} (h : List.Forall₂
      (fun param arg => arg.value.Fits param) params args) :
    argumentFaults method n params args = [] := by
  induction h generalizing n with
  | nil => rfl
  | cons hfits _ ih =>
    rw [argumentFaults, ih, append_nil, faultUnless_eq_nil_iff]
    exact Ty.assignable_of_fits hfits

mutual

/-- An expression that has a type is given this type, without any fault. -/
theorem infer_of_hasType {env : Env} {p : Program} (ht : env.table.IsTableOf p)
    (e : Expr) {type : Ty} (h : HasType (env.context p) e type) : env.infer e = ⟨type, []⟩ := by
  cases h with
  | int | bool | null => rfl
  | not h | neg h =>
    rw [Env.infer, infer_of_hasType ht _ h]
    rfl
  | binary hleft hright hop =>
    obtain ⟨hkeeps, rfl⟩ := keepsRule_of_operates hop
    rw [Env.infer, infer_of_hasType ht _ hleft, infer_of_hasType ht _ hright]
    exact if_pos hkeeps
  | ref h => rw [Env.infer, Env.valueType, (denotes_value_iff ht).mp h]
  | index htarget hposition =>
    rw [Env.infer, infer_of_hasType ht _ hposition, Env.elementType, Env.valueType,
      (denotes_value_iff ht).mp htarget]
    rfl
  | call hmethod hargs =>
    obtain ⟨_, hentry, rfl, rfl⟩ := (denotes_method_iff ht).mp hmethod
    obtain ⟨types, htypes, hfit⟩ := inferArgs_of_argsFit ht _ hargs
    rw [Env.infer, htypes]
    show env.callType _ types [] = _
    rw [Env.callType, hentry]
    dsimp only
    rw [if_pos hfit.length_eq, argumentFaults_eq_nil hfit]
    rfl
  | newObject => rfl
  | newArray helement hsize =>
    rw [Env.infer, infer_of_hasType ht _ hsize]
    -- The rule allows arrays of numbers and of objects.
    rcases helement with helement | ⟨_, helement⟩
    · rw [helement]
      rfl
    · rw [helement]
      rfl

theorem inferArgs_of_argsFit {env : Env} {p : Program} (ht : env.table.IsTableOf p) (es : List Expr)
    {params : List Ty} (h : ArgsFit (env.context p) es params) :
    ∃ types, env.inferArgs es = (types, []) ∧
      List.Forall₂ (fun param arg => arg.value.Fits param) params types := by
  cases h with
  | nil => exact ⟨[], rfl, .nil⟩
  | cons he hfits hes =>
    obtain ⟨_, htypes, hfit⟩ := inferArgs_of_argsFit ht _ hes
    rw [Env.inferArgs, infer_of_hasType ht _ he, htypes]
    exact ⟨_, rfl, .cons hfits hfit⟩

end

/-! ## From inference to the rules -/

/-- All types of what a reference stands for can be written. -/
def Denoted.IsWritten : Denoted → Prop
  | value type => type.IsWritten
  | method params returns =>
    (∀ param ∈ params, param.IsWritten) ∧ (returns = .void ∨ returns.IsWritten)
  | classNamed _ => True

/-- All variables in scope have types that can be written. -/
def Context.VarsWritten (Γ : Context) : Prop := ∀ binding ∈ Γ.vars, binding.2.IsWritten

theorem memberDenotes_written {p : Program} (hp : p.TypesWritten) {className name : String}
    (h : MemberDenotes p className name d) : d.IsWritten := by
  cases h with
  | out => exact .object _
  | print => exact ⟨forall_mem_singleton.mpr .int, .inl rfl⟩
  | field hc hf => exact hp.fields _ hc _ hf
  | method hc hm => exact ⟨forall_mem_map.mpr (hp.params _ hc _ hm), hp.returns _ hc _ hm⟩

section

variable {Γ : Context} (hp : Γ.program.TypesWritten) (hvars : Γ.VarsWritten)
include hp hvars

theorem denotes_written (h : Γ.Denotes r d) : d.IsWritten := by
  cases h with
  | this => exact .object _
  | bound hvar => exact hvars _ (mem_of_lookup hvar)
  | own _ hmember | member _ _ hmember => exact memberDenotes_written hp hmember
  | classNamed => trivial

/-- No expression has the erroneous type. -/
theorem isProper_of_hasType (h : HasType Γ e type) : type.IsProper := by
  cases h with
  | int | neg => exact .inl .int
  | bool | not => exact .inl .boolean
  | null => exact .inr (.inl rfl)
  | binary _ _ hop =>
    cases hop with
    | logical | order | equality => exact .inl .boolean
    | arithmetic => exact .inl .int
  | ref h => exact .inl (denotes_written hp hvars h)
  | index htarget =>
    have harray : (Ty.array type).IsWritten := denotes_written hp hvars htarget
    exact .inl harray.element
  | call hmethod =>
    exact (denotes_written hp hvars hmethod).2.elim (fun h => .inr (.inr h)) .inl
  | newObject => exact .inl (.object _)
  | newArray helement =>
    rcases helement with helement | ⟨_, helement⟩
    · rw [helement]
      exact .inl .intArray
    · rw [helement]
      exact .inl (.objectArray _)

end

/-- A method body of a program that has been identified and whose types can be written. -/
structure IsBodyOf (b : Body) (p : Program) : Prop where
  table : b.table.IsTableOf p
  statics : b.StaticsPlaced
  program : p.TypesWritten
  returns : b.returns = .void ∨ b.returns.IsWritten

/-- A place in such a body, with the variables that identification and typing hold there. -/
structure AcceptedAt (p : Program) (b : Body) (locals : ScopeStack LocalVar)
    (types : ScopeStack Ty) (slots : ScopeStack Lowering.Slot) : Prop extends IsBodyOf b p where
  same : SameVariables locals types slots
  vars : ((b.typing.env types).context p).VarsWritten

namespace AcceptedAt

variable {p : Program} {b : Body} {locals : ScopeStack LocalVar} {types : ScopeStack Ty}
  {slots : ScopeStack Lowering.Slot} (hat : AcceptedAt p b locals types slots)
include hat

theorem isProper (h : HasType ((b.typing.env types).context p) e type) :
    type.IsProper :=
  isProper_of_hasType hat.program hat.vars h

theorem exists_value_of_checkValue (h : b.naming.checkValue locals r = .ok ()) :
    ∃ type, (b.typing.env types).entity? r = some (.value type) := by
  obtain ⟨referent, hresolve, h⟩ := bind_eq_ok.mp h
  have hdenotes := (denotes_of_resolve hat.statics hat.same hresolve).1
  cases referent with
  | this | «variable» | field => exact ⟨_, hdenotes.1⟩
  | method | classNamed => cases h

theorem exists_value_of_checkTarget (h : b.naming.checkTarget locals r = .ok ()) :
    ∃ type, (b.typing.env types).entity? r = some (.value type) := by
  obtain ⟨referent, hresolve, h⟩ := bind_eq_ok.mp h
  have hdenotes := (denotes_of_resolve hat.statics hat.same hresolve).1
  cases referent with
  | «variable» | field => exact ⟨_, hdenotes.1⟩
  | this | method | classNamed => cases h

theorem exists_method_of_checkCallee (h : b.naming.checkCallee locals r = .ok ()) :
    ∃ entry, (b.typing.env types).entity? r = some (.method entry) := by
  obtain ⟨referent, hresolve, h⟩ := bind_eq_ok.mp h
  have hdenotes := (denotes_of_resolve hat.statics hat.same hresolve).1
  cases referent with
  | method =>
    obtain ⟨_, _, entry, -, hentity, -⟩ := hdenotes
    exact ⟨entry, hentity⟩
  | this | «variable» | field | classNamed => cases h

/-- An element of an array, at a position that is a number. -/
theorem elementType_faults (h : b.naming.checkValue locals r = .ok ()) {span : Span} {t : Typed}
    (hproper : t.faults = [] → t.type.IsProper)
    (hfaults : ((b.typing.env types).elementType r span t).faults = []) :
    t.faults = [] ∧ t.type = .int ∧ ((b.typing.env types).context p).Denotes r
      (.value (.array ((b.typing.env types).elementType r span t).type)) := by
  obtain ⟨target, htarget⟩ := hat.exists_value_of_checkValue h
  have hvalue : (b.typing.env types).valueType r = target := by
    rw [Env.valueType, htarget]
  have hdenotes := (denotes_value_iff hat.table).mpr htarget
  have hwritten : target.IsWritten := denotes_written hat.program hat.vars hdenotes
  unfold Env.elementType at hfaults ⊢
  rw [hvalue] at hfaults ⊢
  have hposition : t.faults ++ faultUnless (Ty.int.assignable t.type) (.position t.type) span = [] →
      t.faults = [] ∧ t.type = .int := by
    intro h
    obtain ⟨hnil, hok⟩ := append_eq_nil_iff.mp h
    refine ⟨hnil, ?_⟩
    rw [faultUnless_eq_nil_iff, Ty.assignable_iff (.inl .int) (hproper hnil)] at hok
    exact hok.resolve_right fun h => h.2
  cases hwritten with
  | int | boolean | object =>
    -- What is not an array is reported as such.
    obtain ⟨-, hnil⟩ := append_eq_nil_iff.mp hfaults
    cases hnil
  | intArray | objectArray =>
    obtain ⟨hnil, hint⟩ := hposition hfaults
    exact ⟨hnil, hint, hdenotes⟩

/-- A call of a method with as many arguments as parameters. -/
theorem callType_faults {method : Ref} (h : b.naming.checkCallee locals method = .ok ())
    {args : List (Located Ty)} {faults : List (Located TypeFault)}
    (hfaults : ((b.typing.env types).callType method args faults).faults = []) :
    ∃ params, ((b.typing.env types).context p).Denotes method
        (.method params ((b.typing.env types).callType method args faults).type) ∧
      (∀ param ∈ params, param.IsWritten) ∧ params.length = args.length ∧ faults = [] ∧
      argumentFaults method.text 1 params args = [] := by
  obtain ⟨entry, hentry⟩ := hat.exists_method_of_checkCallee h
  have hdenotes := (denotes_method_iff hat.table).mpr ⟨entry, hentry, rfl, rfl⟩
  rw [Env.callType, hentry] at hfaults ⊢
  dsimp only at hfaults ⊢
  split at hfaults
  next hcount =>
    obtain ⟨hnil, hargs⟩ := append_eq_nil_iff.mp hfaults
    rw [if_pos hcount]
    exact ⟨entry.params, hdenotes, (denotes_written hat.program hat.vars hdenotes).1, hcount, hnil,
      hargs⟩
  next =>
    obtain ⟨-, hnil⟩ := append_eq_nil_iff.mp hfaults
    cases hnil

end AcceptedAt

mutual

/-- An expression in which no fault is found has the type that is inferred. -/
theorem hasType_of_infer {p : Program} {b : Body} {locals : ScopeStack LocalVar}
    {types : ScopeStack Ty} {slots : ScopeStack Lowering.Slot}
    (hat : AcceptedAt p b locals types slots) (e : Expr)
    (h : b.naming.checkExpr locals e = .ok ())
    (hfaults : ((b.typing.env types).infer e).faults = []) :
    HasType ((b.typing.env types).context p) e ((b.typing.env types).infer e).type := by
  cases e with
  | literal _ value =>
    cases value with
    | int => exact .int
    | bool => exact .bool
    | null => exact .null
  | unary _ op operand =>
    have ih := hasType_of_infer hat operand h
    rw [Env.infer] at hfaults ⊢
    split at hfaults
    next htakes =>
      rw [if_pos htakes]
      -- The operand is of the type that is wanted, since no other proper type is taken.
      have hoperand := ih hfaults
      have hproper := hat.isProper hoperand
      cases op with
      | not =>
        rw [operandType, takesOperand_iff (.inr rfl) hproper] at htakes
        rw [htakes] at hoperand
        exact .not hoperand
      | neg =>
        rw [operandType, takesOperand_iff (.inl rfl) hproper] at htakes
        rw [htakes] at hoperand
        exact .neg hoperand
    next => exact absurd hfaults (append_ne_nil_of_right_ne_nil _ nofun)
  | binary _ _ left right =>
    obtain ⟨hcheckLeft, hcheckRight⟩ := check_bind_eq_ok.mp h
    have ihLeft := hasType_of_infer hat left hcheckLeft
    have ihRight := hasType_of_infer hat right hcheckRight
    rw [Env.infer] at hfaults ⊢
    split at hfaults
    next hkeeps =>
      rw [if_pos hkeeps]
      obtain ⟨hnilLeft, hnilRight⟩ := append_eq_nil_iff.mp hfaults
      have hleft := ihLeft hnilLeft
      have hright := ihRight hnilRight
      exact .binary hleft hright
        (operates_of_keepsRule (hat.isProper hleft) (hat.isProper hright) hkeeps)
    next => exact absurd hfaults (append_ne_nil_of_right_ne_nil _ nofun)
  | ref =>
    obtain ⟨_, htype⟩ := hat.exists_value_of_checkValue h
    rw [Env.infer, Env.valueType, htype]
    exact .ref ((denotes_value_iff hat.table).mpr htype)
  | index _ _ position =>
    obtain ⟨hcheckTarget, hcheckPosition⟩ := check_bind_eq_ok.mp h
    have ih := hasType_of_infer hat position hcheckPosition
    rw [Env.infer] at hfaults ⊢
    obtain ⟨hnil, hint, hdenotes⟩ :=
      hat.elementType_faults hcheckTarget (fun hnil => hat.isProper (ih hnil)) hfaults
    exact .index hdenotes (hint ▸ ih hnil)
  | call _ _ args =>
    obtain ⟨hcheckMethod, hcheckArgs⟩ := check_bind_eq_ok.mp h
    rw [Env.infer] at hfaults ⊢
    obtain ⟨_, hdenotes, hwritten, hcount, hnil, hargs⟩ := hat.callType_faults hcheckMethod hfaults
    exact .call hdenotes (argsFit_of_inferArgs hat args hcheckArgs hwritten hnil hcount hargs)
  | newObject => exact .newObject
  | newArray span element size =>
    obtain ⟨-, hcheckSize⟩ := check_bind_eq_ok.mp h
    have ih := hasType_of_infer hat size hcheckSize
    -- The size is a number, whatever becomes of the element type.
    have hsize : ∀ fault span, ((b.typing.env types).infer size).faults ++
        faultUnless (Ty.int.assignable ((b.typing.env types).infer size).type) fault span = [] →
        HasType ((b.typing.env types).context p) size .int := by
      intro _ _ hnil
      obtain ⟨hnil, hok⟩ := append_eq_nil_iff.mp hnil
      have htype := ih hnil
      rw [faultUnless_eq_nil_iff, Ty.assignable_iff (.inl .int) (hat.isProper htype)] at hok
      exact hok.resolve_right (fun h => h.2) ▸ htype
    rw [Env.infer] at hfaults ⊢
    obtain ⟨element, _⟩ := element
    cases element with
    | int => exact .newArray (.inl rfl) (hsize _ _ hfaults)
    | object className => exact .newArray (.inr ⟨className, rfl⟩) (hsize _ _ hfaults)
    | boolean | void | null | error | array =>
      obtain ⟨-, hnil⟩ := append_eq_nil_iff.mp hfaults
      cases hnil

/-- Arguments without faults fit the parameters. -/
theorem argsFit_of_inferArgs {p : Program} {b : Body} {locals : ScopeStack LocalVar}
    {types : ScopeStack Ty} {slots : ScopeStack Lowering.Slot}
    (hat : AcceptedAt p b locals types slots) (es : List Expr)
    (h : b.naming.checkExprs locals es = .ok ()) {params : List Ty}
    (hwritten : ∀ param ∈ params, param.IsWritten)
    (hfaults : ((b.typing.env types).inferArgs es).2 = [])
    (hcount : params.length = ((b.typing.env types).inferArgs es).1.length) {method : String}
    {n : Nat} (hargs : argumentFaults method n params ((b.typing.env types).inferArgs es).1 = []) :
    ArgsFit ((b.typing.env types).context p) es params := by
  cases es with
  | nil =>
    cases length_eq_zero_iff.mp hcount
    exact .nil
  | cons e es =>
    obtain ⟨hcheck, hchecks⟩ := check_bind_eq_ok.mp h
    have ih := hasType_of_infer hat e hcheck
    rw [Env.inferArgs] at hfaults hcount hargs
    dsimp only at hfaults hcount hargs
    cases params with
    | nil => cases hcount
    | cons =>
      obtain ⟨hparam, hparams⟩ := forall_mem_cons.mp hwritten
      obtain ⟨hnil, hnils⟩ := append_eq_nil_iff.mp hfaults
      obtain ⟨hfits, hrest⟩ := append_eq_nil_iff.mp hargs
      have he := ih hnil
      rw [faultUnless_eq_nil_iff, Ty.assignable_iff (.inl hparam) (hat.isProper he)] at hfits
      exact .cons he hfits
        (argsFit_of_inferArgs hat es hchecks hparams hnils (Nat.succ.inj hcount) hrest)

end

section

variable {p : Program} {b : Body} {locals : ScopeStack LocalVar} {types : ScopeStack Ty}
  {slots : ScopeStack Lowering.Slot} (hat : AcceptedAt p b locals types slots)
include hat

/-- The rules give a type to an expression if and only if it is inferred without a fault. -/
theorem infer_eq_iff (h : b.naming.checkExpr locals e = .ok ()) :
    (b.typing.env types).infer e = ⟨type, []⟩ ↔
      HasType ((b.typing.env types).context p) e type := by
  constructor
  · intro hinfer
    have htype := hasType_of_infer hat e h (by rw [hinfer])
    rw [hinfer] at htype
    exact htype
  · exact infer_of_hasType hat.table e

/-- An expression fits a target if nothing is at fault in it and its type can be stored there. -/
theorem exprFits_iff (h : b.naming.checkExpr locals e = .ok ()) (htarget : target.IsWritten) :
    ExprFits ((b.typing.env types).context p) e target ↔
      ((b.typing.env types).infer e).faults = [] ∧
        target.assignable ((b.typing.env types).infer e).type = true := by
  constructor
  · rintro ⟨_, htype, hfits⟩
    rw [infer_of_hasType hat.table e htype]
    exact ⟨rfl, Ty.assignable_of_fits hfits⟩
  · rintro ⟨hnil, hassignable⟩
    have htype := hasType_of_infer hat e h hnil
    exact ⟨_, htype, (Ty.assignable_iff (.inl htarget) (hat.isProper htype)).mp hassignable⟩

end

end Typing

end MiniJava
