import MiniJava.Proofs.Resolution.Lockstep

/-!
# Every reference of a body

The references of a method body, each with the scopes that the three phases hold
where it stands. The scopes are those that the phases compute: `Body.occurrences`
walks through a statement and calls the phases themselves to get from one
statement to the next.

> `phases_agree`: in a program that identification accepts, the walk reaches every
> reference that is written in a body, and at each of them, and at each reference
> that stands in front of a dot in it, the three phases find one and the same
> thing.
-/

namespace MiniJava

open List

/-- What a reference is used for. -/
inductive Use
  | value
  | target
  | indexed
  | callee
  deriving DecidableEq, Repr

/-- What may stand in a place of this use. -/
def Use.allows : Use → Referent → Bool
  | value, ref | indexed, ref => ref.isValue
  | target, .variable _ | target, .field _ => true
  | callee, .method => true
  | target, _ | callee, _ => false

/-! ## The references of a body -/

mutual

/-- The references of an expression, each with its use. -/
def Expr.refs : Expr → List (Use × Ref)
  | literal _ _ | newObject _ _ => []
  | unary _ _ operand => operand.refs
  | binary _ _ left right => left.refs ++ right.refs
  | ref target => [(.value, target)]
  | index _ target position => (.indexed, target) :: position.refs
  | call _ method args => (.callee, method) :: Expr.allRefs args
  | newArray _ _ size => size.refs

/-- The references of expressions in turn. -/
def Expr.allRefs : List Expr → List (Use × Ref)
  | [] => []
  | e :: es => e.refs ++ Expr.allRefs es

end

mutual

/-- The references of a statement, each with its use. -/
def Stmt.refs : Stmt → List (Use × Ref)
  | block _ body => Stmt.allRefs body
  | declare _ _ _ init => init.refs
  | assign _ target value => (.target, target) :: value.refs
  | assignIndex _ target position value =>
    (.indexed, target) :: (position.refs ++ value.refs)
  | call _ method args => (.callee, method) :: Expr.allRefs args
  | ret _ none => []
  | ret _ (some value) => value.refs
  | ifThen _ test thenBranch => test.refs ++ thenBranch.refs
  | ifThenElse _ test thenBranch elseBranch => test.refs ++ (thenBranch.refs ++ elseBranch.refs)
  | loop _ test body => test.refs ++ body.refs

/-- The references of statements in turn. -/
def Stmt.allRefs : List Stmt → List (Use × Ref)
  | [] => []
  | s :: ss => s.refs ++ Stmt.allRefs ss

end

/-- A reference where it stands. -/
structure Occurrence where
  use : Use
  ref : Ref
  scopes : Scopes

namespace Scopes

/-- References that all stand at the same scopes. -/
def occurrences (s : Scopes) (refs : List (Use × Ref)) : List Occurrence :=
  refs.map fun (use, ref) => ⟨use, ref, s⟩

theorem occurrences_cons (s : Scopes) (use : Use) (r : Ref) (refs : List (Use × Ref)) :
    s.occurrences ((use, r) :: refs) = ⟨use, r, s⟩ :: s.occurrences refs := rfl

theorem occurrences_append (s : Scopes) (refs others : List (Use × Ref)) :
    s.occurrences (refs ++ others) = s.occurrences refs ++ s.occurrences others :=
  map_append

end Scopes

namespace Body

/-- The scopes behind a statement whose code begins at an index, and the index at
which the code behind it begins. -/
def advance (b : Body) (start : Nat) (s : Scopes) (st : Stmt) : Option (Nat × Scopes) := do
  let locals ← (b.naming.checkStmt s.locals st).toOption
  let (code, frame) ← (b.lowering.stmtCode start s.frame st).toOption
  return (start + code.length, ⟨locals, (b.typing.checkStmt s.types st).1, frame⟩)

/-- The index at which the code behind a condition and its branch begins. -/
def afterCondition (b : Body) (start : Nat) (s : Scopes) (test : Expr) : Option Nat := do
  let condition ← (b.lowering.conditionCode s.frame.slots test).toOption
  return start + condition.length + 1

mutual

/-- The references of a statement whose code begins at an index. -/
def occurrences (b : Body) (start : Nat) (s : Scopes) : Stmt → Option (List Occurrence)
  | .block _ body => b.allOccurrences start s.push body
  | .declare _ type name init => do
    let during ← (Identification.declare s.locals name ⟨type.value, false⟩).toOption
    return Scopes.occurrences { s with locals := during } init.refs
  | .ifThen _ test thenBranch => do
    let thenStart ← b.afterCondition start s test
    let inner ← b.occurrences thenStart s thenBranch
    return s.occurrences test.refs ++ inner
  | .ifThenElse _ test thenBranch elseBranch => do
    let thenStart ← b.afterCondition start s test
    let first ← b.occurrences thenStart s thenBranch
    let (stop, s') ← b.advance thenStart s thenBranch
    -- One more instruction leads from the end of the first branch around the second.
    let second ← b.occurrences (stop + 1) s' elseBranch
    return s.occurrences test.refs ++ (first ++ second)
  | .loop _ test body => do
    let bodyStart ← b.afterCondition start s test
    let inner ← b.occurrences bodyStart s body
    return s.occurrences test.refs ++ inner
  | .assign span target value => some (s.occurrences (Stmt.assign span target value).refs)
  | .assignIndex span target position value =>
    some (s.occurrences (Stmt.assignIndex span target position value).refs)
  | .call span method args => some (s.occurrences (Stmt.call span method args).refs)
  | .ret span value => some (s.occurrences (Stmt.ret span value).refs)

/-- The references of statements in turn. -/
def allOccurrences (b : Body) (start : Nat) (s : Scopes) : List Stmt → Option (List Occurrence)
  | [] => some []
  | st :: ss => do
    let first ← b.occurrences start s st
    let (stop, s') ← b.advance start s st
    let others ← b.allOccurrences stop s' ss
    return first ++ others

end

/-- The references of a method whose code begins at an index. -/
def occurrencesOf (b : Body) (start : Nat) (m : MethodDecl) : Option (List Occurrence) := do
  let locals ←
    (m.params.foldlM (Identification.declareParam b.table) ScopeStack.empty.push).toOption
  b.allOccurrences (start + (Routine.enter : LabelledCode).length)
    (.ofParams locals m.params) m.body

end Body

/-! ## Agreement -/

/-- A reference, what stands in front of its last dot, and so on to its first name. -/
def Ref.parts : Ref → List Ref
  | this span => [this span]
  | name span text => [name span text]
  | member span base field => member span base field :: base.parts

/-- The phases agree on a reference where it stands. -/
structure Body.AgreesAt (b : Body) (o : Occurrence) : Prop where
  /-- The reference stands for something that fits its use. -/
  fits : ∃ referent, b.naming.resolve o.scopes.locals o.ref = .ok referent ∧
    o.use.allows referent = true
  /-- Every part of it stands for the same in all phases. -/
  same : ∀ part ∈ o.ref.parts, ∀ referent,
    b.naming.resolve o.scopes.locals part = .ok referent ↔
      b.Denotes o.scopes.locals o.scopes.types o.scopes.frame.slots part referent
  /-- Every part in front of a dot has its members looked for in the same class. -/
  continues : ∀ span base field, Ref.member span base field ∈ o.ref.parts →
    ∃ className throughClass,
      b.naming.resolve o.scopes.locals base >>= b.naming.memberContext base field =
        .ok (className, throughClass) ∧
      b.Continues o.scopes.types o.scopes.frame.slots base className

section

variable {b : Body} {locals : ScopeStack LocalVar} {slots : ScopeStack Lowering.Slot} {r : Ref}
  {s : Scopes}

/-- The address of a field is never computed the way that of a variable is. -/
theorem not_addressesSlot_of_addressesField {site : Lowering.Site} {className name : String}
    (hf : site.AddressesField slots r className name) (slot : Lowering.Slot) :
    ¬ site.AddressesSlot slots r slot := by
  rintro ⟨-, hslot⟩
  obtain ⟨_, _, -, hcode, hshape⟩ := hf
  rw [hcode] at hslot
  simp only [Except.ok.injEq, Prod.mk.injEq, and_true] at hslot
  rcases hshape with ⟨-, _, -, rfl⟩ | ⟨-, _, _, -, -, rfl⟩
  · simp [Instr.ops, Lowering.memAt] at hslot
  · have hlength := congrArg List.length hslot
    simp [Instr.ops] at hlength

/-- What a reference stands for, as far as typing and lowering can tell: typing tells values,
methods and classes apart, and lowering tells the values apart. -/
def Body.referent? (b : Body) (types : ScopeStack Ty) (slots : ScopeStack Lowering.Slot)
    (r : Ref) : Option Referent :=
  match (b.typing.env types).entity? r, b.lowering.refCode slots r with
  | some (.method _), _ => some .method
  | some (.classNamed name), _ => some (.classNamed name)
  | some (.value _), .ok (_, .value) => some .this
  | some (.value type), .ok (_, .address) =>
    match r with
    | .name _ text => some (if (slots.lookup text).isSome then .variable type else .field type)
    | _ => some (.field type)
  | _, _ => none

/-- What a reference denotes can be told from its type and its code. -/
theorem referent?_of_denotes {types : ScopeStack Ty} {x : Referent}
    (h : b.Denotes locals types slots r x) : b.referent? types slots r = some x := by
  cases x with
  | this =>
    obtain ⟨hentity, _, -, hcode⟩ := h
    simp [Body.referent?, hentity, hcode]
  | «variable» =>
    obtain ⟨hentity, _, ⟨⟨_, _, rfl, hslot⟩, hcode⟩, -⟩ := h
    simp [Body.referent?, hentity, hcode, hslot]
  | field =>
    obtain ⟨hentity, _, _, _, -, -, -, hfield⟩ := h
    -- A field has no slot of the frame, so it is not taken for a variable.
    obtain ⟨_, _, -, hcode, -⟩ := id hfield
    simp only [Body.referent?, hentity, hcode]
    split
    next span name =>
      cases hslot : slots.lookup name with
      | none => rfl
      | some slot =>
        refine absurd ⟨⟨span, name, rfl, hslot⟩, ?_⟩
          (not_addressesSlot_of_addressesField hfield slot)
        simp [Lowering.Site.refCode, hslot]
    next => rfl
  | method =>
    obtain ⟨_, _, _, -, hentity, -⟩ := h
    simp [Body.referent?, hentity]
  | classNamed => simp [Body.referent?, h.1]

/-- A reference cannot stand for two things. -/
theorem denotes_unique {types : ScopeStack Ty} {x y : Referent}
    (hx : b.Denotes locals types slots r x) (hy : b.Denotes locals types slots r y) : x = y := by
  have hsome := referent?_of_denotes hx
  rw [referent?_of_denotes hy] at hsome
  exact (Option.some.inj hsome).symm

/-- If a reference stands for something, then so does every part of it. -/
theorem exists_resolve_of_mem_parts {site : Identification.Site} {part : Ref}
    (hpart : part ∈ r.parts) {referent : Referent} (h : site.resolve locals r = .ok referent) :
    ∃ x, site.resolve locals part = .ok x := by
  induction r generalizing referent with
  | this span | name span text =>
    rw [Ref.parts, mem_singleton] at hpart
    exact ⟨referent, hpart ▸ h⟩
  | member _ _ _ ih =>
    rcases mem_cons.mp hpart with rfl | hpart
    · exact ⟨referent, h⟩
    · obtain ⟨_, hbase, -⟩ := bind_eq_ok.mp h
      exact ih hpart hbase

theorem agreesAt_of_resolve (hstatics : b.StaticsPlaced) {o : Occurrence}
    (hsame : SameVariables o.scopes.locals o.scopes.types o.scopes.frame.slots)
    {referent : Referent} (h : b.naming.resolve o.scopes.locals o.ref = .ok referent)
    (hfits : o.use.allows referent = true) : b.AgreesAt o := by
  refine ⟨⟨referent, h, hfits⟩, ?_, ?_⟩
  · intro _ hpart _
    constructor
    · intro hx
      exact (denotes_of_resolve hstatics hsame hx).1
    · intro hx
      obtain ⟨_, hy⟩ := exists_resolve_of_mem_parts hpart h
      rw [denotes_unique hx (denotes_of_resolve hstatics hsame hy).1]
      exact hy
  · intro _ _ _ hpart
    obtain ⟨_, hx⟩ := exists_resolve_of_mem_parts hpart h
    obtain ⟨baseRef, hbase, ⟨className, throughClass⟩, hctx, -⟩ := bind₂_eq_ok.mp hx
    refine ⟨className, throughClass, bind_eq_ok.mpr ⟨baseRef, hbase, hctx⟩, ?_⟩
    exact (denotes_of_resolve hstatics hsame hbase).2 _ _ _ hctx

/-! ## Expressions -/

section

variable {s : Scopes} (hstatics : b.StaticsPlaced)
  (hsame : SameVariables s.locals s.types s.frame.slots)
include hstatics hsame

theorem agreesAt_of_checkValue {use : Use} (huse : ∀ ref, use.allows ref = ref.isValue)
    (h : b.naming.checkValue s.locals r = .ok ()) : b.AgreesAt ⟨use, r, s⟩ := by
  obtain ⟨ref, href, h⟩ := bind_eq_ok.mp h
  apply agreesAt_of_resolve hstatics hsame href
  rw [huse]
  cases ref with
  | this | «variable» | field => rfl
  | method | classNamed => cases h

theorem agreesAt_of_checkTarget (h : b.naming.checkTarget s.locals r = .ok ()) :
    b.AgreesAt ⟨.target, r, s⟩ := by
  obtain ⟨ref, href, h⟩ := bind_eq_ok.mp h
  apply agreesAt_of_resolve hstatics hsame href
  cases ref with
  | «variable» | field => rfl
  | this | method | classNamed => cases h

theorem agreesAt_of_checkCallee (h : b.naming.checkCallee s.locals r = .ok ()) :
    b.AgreesAt ⟨.callee, r, s⟩ := by
  obtain ⟨ref, href, h⟩ := bind_eq_ok.mp h
  apply agreesAt_of_resolve hstatics hsame href
  cases ref with
  | method => rfl
  | this | «variable» | field | classNamed => cases h

end

mutual

theorem agreesAt_of_checkExpr {s : Scopes} (hstatics : b.StaticsPlaced)
    (hsame : SameVariables s.locals s.types s.frame.slots) (e : Expr)
    (h : b.naming.checkExpr s.locals e = .ok ()) :
    ∀ o ∈ s.occurrences e.refs, b.AgreesAt o := by
  cases e with
  | literal | newObject => exact nofun
  | unary _ _ operand => exact agreesAt_of_checkExpr hstatics hsame operand h
  | binary _ _ left right =>
    obtain ⟨⟨⟩, hleft, hright⟩ := bind_eq_ok.mp h
    rw [Expr.refs, Scopes.occurrences_append, forall_mem_append]
    exact ⟨agreesAt_of_checkExpr hstatics hsame left hleft,
      agreesAt_of_checkExpr hstatics hsame right hright⟩
  | ref =>
    rw [Expr.refs, Scopes.occurrences_cons, forall_mem_cons]
    exact ⟨agreesAt_of_checkValue hstatics hsame (fun _ => rfl) h, nofun⟩
  | index _ _ position =>
    obtain ⟨⟨⟩, htarget, hposition⟩ := bind_eq_ok.mp h
    rw [Expr.refs, Scopes.occurrences_cons, forall_mem_cons]
    exact ⟨agreesAt_of_checkValue hstatics hsame (fun _ => rfl) htarget,
      agreesAt_of_checkExpr hstatics hsame position hposition⟩
  | call _ _ args =>
    obtain ⟨⟨⟩, hmethod, hargs⟩ := bind_eq_ok.mp h
    rw [Expr.refs, Scopes.occurrences_cons, forall_mem_cons]
    exact ⟨agreesAt_of_checkCallee hstatics hsame hmethod,
      agreesAt_of_checkExprs hstatics hsame args hargs⟩
  | newArray _ _ size =>
    obtain ⟨⟨⟩, -, hsize⟩ := bind_eq_ok.mp h
    exact agreesAt_of_checkExpr hstatics hsame size hsize

theorem agreesAt_of_checkExprs {s : Scopes} (hstatics : b.StaticsPlaced)
    (hsame : SameVariables s.locals s.types s.frame.slots) (es : List Expr)
    (h : b.naming.checkExprs s.locals es = .ok ()) :
    ∀ o ∈ s.occurrences (Expr.allRefs es), b.AgreesAt o := by
  cases es with
  | nil => exact nofun
  | cons e es =>
    obtain ⟨⟨⟩, he, hes⟩ := bind_eq_ok.mp h
    rw [Expr.allRefs, Scopes.occurrences_append, forall_mem_append]
    exact ⟨agreesAt_of_checkExpr hstatics hsame e he, agreesAt_of_checkExprs hstatics hsame es hes⟩

end

/-! ## Statements -/

/-- The walk has found these references, and the phases agree on each. -/
def Body.AgreesOn (b : Body) (found : Option (List Occurrence)) (refs : List (Use × Ref)) : Prop :=
  ∃ os, found = some os ∧ os.map (fun o => (o.use, o.ref)) = refs ∧ ∀ o ∈ os, b.AgreesAt o

theorem agreesOn_occurrences {refs : List (Use × Ref)}
    (h : ∀ o ∈ s.occurrences refs, b.AgreesAt o) : b.AgreesOn (some (s.occurrences refs)) refs := by
  refine ⟨_, rfl, ?_, h⟩
  simp [Scopes.occurrences, map_map, Function.comp_def]

theorem agreesOn_append {found others : Option (List Occurrence)}
    {refs otherRefs : List (Use × Ref)} (h : b.AgreesOn found refs)
    (hothers : b.AgreesOn others otherRefs) :
    b.AgreesOn (do return (← found) ++ (← others)) (refs ++ otherRefs) := by
  obtain ⟨_, rfl, hrefs, hagree⟩ := h
  obtain ⟨_, rfl, hrefs', hagree'⟩ := hothers
  refine ⟨_, rfl, ?_, ?_⟩
  · rw [map_append, hrefs, hrefs']
  · exact forall_mem_append.mpr ⟨hagree, hagree'⟩

theorem advance_eq_some {start : Nat} {st : Stmt} (h : b.naming.checkStmt s.locals st = .ok locals)
    {code : LabelledCode} {frame : Lowering.Frame}
    (hcode : b.lowering.stmtCode start s.frame st = .ok (code, frame)) :
    b.advance start s st =
      some (start + code.length, ⟨locals, (b.typing.checkStmt s.types st).1, frame⟩) := by
  simp [Body.advance, h, hcode, Except.toOption]

theorem exists_afterCondition (hstatics : b.StaticsPlaced) (hs : s.Aligned) {test : Expr}
    (h : b.naming.checkExpr s.locals test = .ok ()) (start : Nat) :
    ∃ stop, b.afterCondition start s test = some stop := by
  obtain ⟨condition, hcondition⟩ := exists_conditionCode hstatics hs h
  exact ⟨start + condition.length + 1, by simp [Body.afterCondition, hcondition, Except.toOption]⟩

mutual

/-- The passes agree on all that an accepted statement refers to. -/
theorem agreesOn_of_checkStmt (hstatics : b.StaticsPlaced) {s : Scopes} (hs : s.Aligned)
    (st : Stmt) {locals : ScopeStack LocalVar} (h : b.naming.checkStmt s.locals st = .ok locals)
    (start : Nat) : b.AgreesOn (b.occurrences start s st) st.refs := by
  have hsame := Scopes.sameVariables_of_aligned hs
  cases st with
  | block _ body =>
    obtain ⟨_, hinner, -⟩ := bind_eq_ok.mp h
    exact agreesOn_of_checkStmts hstatics (Scopes.aligned_push hs) body hinner start
  | declare _ _ _ init =>
    obtain ⟨⟨⟩, -, during, hduring, ⟨⟩, hinit, -⟩ := bind₃_eq_ok.mp h
    simp only [Body.occurrences, hduring]
    exact agreesOn_occurrences (agreesAt_of_checkExpr hstatics
      (s := { s with locals := during }) (Scopes.sameVariables_during hs hduring) init hinit)
  | assign _ _ value =>
    obtain ⟨⟨⟩, htarget, ⟨⟩, hvalue, -⟩ := bind₂_eq_ok.mp h
    refine agreesOn_occurrences (forall_mem_cons.mpr ⟨?_, ?_⟩)
    · exact agreesAt_of_checkTarget hstatics hsame htarget
    · exact agreesAt_of_checkExpr hstatics hsame value hvalue
  | assignIndex _ _ position value =>
    obtain ⟨⟨⟩, htarget, ⟨⟩, hposition, ⟨⟩, hvalue, -⟩ := bind₃_eq_ok.mp h
    refine agreesOn_occurrences (forall_mem_cons.mpr ⟨?_, ?_⟩)
    · exact agreesAt_of_checkValue hstatics hsame (fun _ => rfl) htarget
    · rw [← Scopes.occurrences, Scopes.occurrences_append, forall_mem_append]
      exact ⟨agreesAt_of_checkExpr hstatics hsame position hposition,
        agreesAt_of_checkExpr hstatics hsame value hvalue⟩
  | call _ _ args =>
    obtain ⟨⟨⟩, hmethod, ⟨⟩, hargs, -⟩ := bind₂_eq_ok.mp h
    refine agreesOn_occurrences (forall_mem_cons.mpr ⟨?_, ?_⟩)
    · exact agreesAt_of_checkCallee hstatics hsame hmethod
    · exact agreesAt_of_checkExprs hstatics hsame args hargs
  | ret _ value =>
    cases value with
    | none => exact agreesOn_occurrences nofun
    | some value =>
      obtain ⟨⟨⟩, hvalue, -⟩ := bind_eq_ok.mp h
      exact agreesOn_occurrences (agreesAt_of_checkExpr hstatics hsame value hvalue)
  | ifThen _ test thenBranch =>
    obtain ⟨⟨⟩, htest, ⟨⟩, -, hthen⟩ := bind₂_eq_ok.mp h
    obtain ⟨thenStart, hstart⟩ := exists_afterCondition hstatics hs htest start
    simp only [Body.occurrences, hstart]
    exact agreesOn_append (agreesOn_occurrences (agreesAt_of_checkExpr hstatics hsame test htest))
      (agreesOn_of_checkStmt hstatics hs thenBranch hthen thenStart)
  | ifThenElse _ test thenBranch elseBranch =>
    obtain ⟨⟨⟩, htest, ⟨⟩, -, _, hthen, h⟩ := bind₃_eq_ok.mp h
    obtain ⟨⟨⟩, -, helse⟩ := bind_eq_ok.mp h
    obtain ⟨thenStart, hstart⟩ := exists_afterCondition hstatics hs htest start
    -- The second branch begins behind the code of the first.
    obtain ⟨code, _, hcode, haligned⟩ := exists_stmtCode hstatics hs thenBranch hthen thenStart
    have hfirst := agreesOn_of_checkStmt hstatics hs thenBranch hthen thenStart
    have hsecond := agreesOn_of_checkStmt hstatics haligned elseBranch helse
      (thenStart + code.length + 1)
    have hall := agreesOn_append
      (agreesOn_occurrences (agreesAt_of_checkExpr hstatics hsame test htest))
      (agreesOn_append hfirst hsecond)
    obtain ⟨_, hfound, -⟩ := hfirst
    simpa [Body.occurrences, Stmt.refs, hstart, hfound, advance_eq_some hthen hcode,
      Option.bind_assoc] using hall
  | loop _ test body =>
    obtain ⟨⟨⟩, htest, ⟨⟩, -, hbody⟩ := bind₂_eq_ok.mp h
    obtain ⟨bodyStart, hstart⟩ := exists_afterCondition hstatics hs htest start
    simp only [Body.occurrences, hstart]
    exact agreesOn_append (agreesOn_occurrences (agreesAt_of_checkExpr hstatics hsame test htest))
      (agreesOn_of_checkStmt hstatics hs body hbody bodyStart)

theorem agreesOn_of_checkStmts (hstatics : b.StaticsPlaced) {s : Scopes} (hs : s.Aligned)
    (ss : List Stmt) {locals : ScopeStack LocalVar}
    (h : b.naming.checkStmts s.locals ss = .ok locals) (start : Nat) :
    b.AgreesOn (b.allOccurrences start s ss) (Stmt.allRefs ss) := by
  cases ss with
  | nil => exact ⟨[], rfl, rfl, nofun⟩
  | cons st ss =>
    obtain ⟨_, hst, hss⟩ := bind_eq_ok.mp h
    obtain ⟨_, _, hcode, haligned⟩ := exists_stmtCode hstatics hs st hst start
    simp only [Body.allOccurrences, advance_eq_some hst hcode]
    exact agreesOn_append (agreesOn_of_checkStmt hstatics hs st hst start)
      (agreesOn_of_checkStmts hstatics haligned ss hss _)

end

end

/-! ## Programs -/

/-- In a program that identification accepts, the three phases agree on every reference
of every body. -/
theorem phases_agree {p : Program} {table : ClassTable} (h : identify p = .ok table)
    {c : ClassDecl} (hc : c ∈ p.classes) {m : MethodDecl} (hm : m ∈ c.methods) (start : Nat) :
    ∃ os, (Body.ofMethod table p c.name.value m).occurrencesOf start m = some os ∧
      os.map (fun o => (o.use, o.ref)) = Stmt.allRefs m.body ∧
      ∀ o ∈ os, (Body.ofMethod table p c.name.value m).AgreesAt o := by
  obtain ⟨_, _, hparams, haligned, hbody⟩ := checkStmts_of_identify h hc hm
  obtain ⟨os, hos, hrest⟩ := agreesOn_of_checkStmts
    (staticsPlaced_ofMethod (isTableOf_of_identify h) c.name.value m) haligned m.body hbody
    (start + (Routine.enter : LabelledCode).length)
  refine ⟨os, ?_, hrest⟩
  simp only [Body.occurrencesOf, Body.ofMethod, hparams]
  exact hos

/-- A method whose parameter hides a field, which is still reached through the receiver and
through the name of the class. -/
def hidingMethod : MethodDecl where
  span := Span.builtin
  isPrivate := false
  isStatic := false
  returns := ⟨.int, Span.builtin⟩
  name := ⟨"add", Span.builtin⟩
  owner := "Counter"
  params := [⟨Span.builtin, ⟨.int, Span.builtin⟩, ⟨"total", Span.builtin⟩⟩]
  body :=
    [.assign Span.builtin
      (.member Span.builtin (.this Span.builtin) ⟨"total", Span.builtin⟩)
      (.binary Span.builtin .add (.ref (.name Span.builtin "total"))
        (.ref (.member Span.builtin
          (.member Span.builtin (.name Span.builtin "Counter") ⟨"last", Span.builtin⟩)
          ⟨"total", Span.builtin⟩))),
     .ret Span.builtin (some (.call Span.builtin (.name Span.builtin "add")
      [.ref (.name Span.builtin "total")]))]

/-- The class of this method, with an instance field and a static one. -/
def hidingClass : ClassDecl where
  span := Span.builtin
  name := ⟨"Counter", Span.builtin⟩
  fields :=
    [⟨Span.builtin, false, false, ⟨.int, Span.builtin⟩, ⟨"total", Span.builtin⟩, "Counter"⟩,
     ⟨Span.builtin, true, true, ⟨.object "Counter", Span.builtin⟩, ⟨"last", Span.builtin⟩,
      "Counter"⟩]
  methods := [hidingMethod]

theorem phases_agree_hidingClass :
    ∃ table, identify ⟨[hidingClass]⟩ = .ok table ∧
      ∃ os, (Body.ofMethod table ⟨[hidingClass]⟩ "Counter" hidingMethod).occurrencesOf 0
          hidingMethod = some os ∧
        os.map (fun o => (o.use, o.ref)) = Stmt.allRefs hidingMethod.body ∧
        ∀ o ∈ os, (Body.ofMethod table ⟨[hidingClass]⟩ "Counter" hidingMethod).AgreesAt o := by
  refine ⟨_, rfl, ?_⟩
  exact phases_agree (c := hidingClass) rfl mem_cons_self mem_cons_self 0

end MiniJava
