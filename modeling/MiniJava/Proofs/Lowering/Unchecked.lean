import MiniJava.Proofs.Lowering.OnePass
import MiniJava.Proofs.Lowering.StackDiscipline
import MiniJava.Proofs.Resolution.Occurrences

/-!
# Lowering without identification

Code can be asked for a program that was never identified, with a table of classes that belongs to
another program and with any method as the main method. Lowering then gives code or one of the
faults that it is meant to give: a fault of a reference that is read, assigned to or called in the
body of a method, or a call of a method that has no code (`lower_of_any_table`).
-/

namespace MiniJava

open List

/-! ## Faults of a chain of steps -/

section

variable {ε α β : Type} {P Q : ε → Prop}

/-- A step ends in no other faults than these. -/
def FailsOnly (P : ε → Prop) (x : Except ε α) : Prop := ∀ e, x = .error e → P e

namespace FailsOnly

theorem ok (a : α) : FailsOnly P (.ok a : Except ε α) := nofun

theorem error {e : ε} (h : P e) : FailsOnly P (.error e : Except ε α) := by
  intro _ he
  cases he
  exact h

theorem bind {x : Except ε α} {f : α → Except ε β} (hx : FailsOnly P x)
    (hf : ∀ a, x = .ok a → FailsOnly P (f a)) : FailsOnly P (x >>= f) := by
  intro e he
  rcases bind_eq_error.mp he with he | ⟨a, ha, he⟩
  · exact hx e he
  · exact hf a ha e he

theorem map {x : Except ε α} (hx : FailsOnly P x) (f : α → β) : FailsOnly P (f <$> x) :=
  fun e he => hx e (map_eq_error_iff.mp he)

theorem mono {x : Except ε α} (hx : FailsOnly P x) (h : ∀ e, P e → Q e) : FailsOnly Q x :=
  fun e he => h e (hx e he)

end FailsOnly

end

/-! ## References that are refused -/

/-- The references of a statement, apart from those of the statements inside of it. -/
def Stmt.ownRefs : Stmt → List (Use × Ref)
  | .block _ _ => []
  | .declare _ _ _ init => init.refs
  | .assign _ target value => (.target, target) :: value.refs
  | .assignIndex _ target position value => (.indexed, target) :: (position.refs ++ value.refs)
  | .call _ method args => (.callee, method) :: Expr.allRefs args
  | .ret _ none => []
  | .ret _ (some value) => value.refs
  | .ifThen _ test _ | .ifThenElse _ test _ _ | .loop _ test _ => test.refs

namespace Lowering

namespace Site

/-- A reference cannot be lowered for its use, with these variables in scope. -/
def Refuses (site : Site) (slots : ScopeStack Slot) (e : CodegenError) : Use × Ref → Prop
  | (.value, r) | (.indexed, r) => site.valueCode slots r = .error e
  | (.target, r) => site.targetCode slots r = .error e
  | (.callee, r) => site.callee slots r = .error e

/-- The fault is that of one of these references. -/
def RefusesOne (site : Site) (slots : ScopeStack Slot) (refs : List (Use × Ref))
    (e : CodegenError) : Prop :=
  ∃ ref ∈ refs, site.Refuses slots e ref

theorem RefusesOne.mono {site : Site} {slots : ScopeStack Slot} {refs others : List (Use × Ref)}
    (h : refs ⊆ others) (e : CodegenError) (he : site.RefusesOne slots refs e) :
    site.RefusesOne slots others e := by
  obtain ⟨ref, hmem, hrefuses⟩ := he
  exact ⟨ref, h hmem, hrefuses⟩

section

variable (site : Site) (slots : ScopeStack Slot)

mutual

/-- An expression fails to be lowered only because of one of its references. -/
theorem failsOnly_exprCode (e : Expr) :
    FailsOnly (site.RefusesOne slots e.refs) (site.exprCode slots e) := by
  cases e with
  | literal | newObject =>
    rw [exprCode]
    exact .ok _
  | unary span op operand | newArray span element operand =>
    rw [exprCode, Expr.refs]
    exact (failsOnly_exprCode operand).bind fun _ _ => .ok _
  | binary _ _ left right =>
    rw [exprCode, Expr.refs]
    refine ((failsOnly_exprCode left).mono (.mono (subset_append_left _ _))).bind fun _ _ => ?_
    refine ((failsOnly_exprCode right).mono (.mono (subset_append_right _ _))).bind fun _ _ =>
      ?_
    exact .ok _
  | ref =>
    rw [exprCode, Expr.refs]
    exact fun _ he => ⟨_, mem_cons_self, he⟩
  | index _ _ position =>
    rw [exprCode, Expr.refs]
    refine FailsOnly.bind (fun _ he => ⟨_, mem_cons_self, he⟩) fun _ _ => ?_
    refine ((failsOnly_exprCode position).mono (.mono (subset_cons_self _ _))).bind fun _ _ =>
      ?_
    exact .ok _
  | call _ _ args =>
    rw [exprCode, Expr.refs]
    refine FailsOnly.bind (fun _ he => ⟨_, mem_cons_self, he⟩) fun _ _ => ?_
    refine ((failsOnly_argsCode args).mono (.mono (subset_cons_self _ _))).bind fun _ _ => ?_
    exact .ok _

theorem failsOnly_argsCode (args : List Expr) :
    FailsOnly (site.RefusesOne slots (Expr.allRefs args)) (site.argsCode slots args) := by
  cases args with
  | nil =>
    rw [argsCode]
    exact .ok _
  | cons e es =>
    rw [argsCode, Expr.allRefs]
    refine ((failsOnly_exprCode e).mono (.mono (subset_append_left _ _))).bind fun _ _ => ?_
    refine ((failsOnly_argsCode es).mono (.mono (subset_append_right _ _))).bind fun _ _ => ?_
    exact .ok _

end

theorem failsOnly_conditionCode (test : Expr) :
    FailsOnly (site.RefusesOne slots test.refs) (site.conditionCode slots test) :=
  (failsOnly_exprCode site slots test).bind fun _ _ => .ok _

theorem failsOnly_callCode (method : Ref) (args : List Expr) :
    FailsOnly (site.RefusesOne slots ((.callee, method) :: Expr.allRefs args))
      (site.callCode slots method args) := by
  refine FailsOnly.bind (fun _ he => ⟨_, mem_cons_self, he⟩) fun _ _ => ?_
  refine ((failsOnly_argsCode site slots args).mono (.mono (subset_cons_self _ _))).bind
    fun _ _ => ?_
  exact .ok _

end

/-! ## Faults of statements and methods -/

/-- One of the statements to which lowering comes has a reference that is refused, with the
variables that are in scope there. -/
def RefusesAt (site : Site) (reached : Nat → Frame → Stmt → Prop) (e : CodegenError) : Prop :=
  ∃ k f t, reached k f t ∧ site.RefusesOne f.slots t.ownRefs e

theorem RefusesAt.mono {site : Site} {reached others : Nat → Frame → Stmt → Prop}
    (h : ∀ {k f t}, reached k f t → others k f t) (e : CodegenError)
    (he : site.RefusesAt reached e) : site.RefusesAt others e := by
  obtain ⟨k, f, t, hin, hrefuses⟩ := he
  exact ⟨k, f, t, h hin, hrefuses⟩

section

variable (site : Site)

mutual

/-- A statement fails to be lowered only because of a reference of its own or of a statement inside
of it. -/
theorem failsOnly_stmtCode (start : Nat) (frame : Frame) (s : Stmt) :
    FailsOnly (site.RefusesAt (InStmt site start frame s)) (site.stmtCode start frame s) := by
  have hself : ∀ e, site.RefusesOne frame.slots s.ownRefs e →
      site.RefusesAt (InStmt site start frame s) e :=
    fun e he => ⟨start, frame, s, .self, he⟩
  cases s with
  | block _ body =>
    rw [stmtCode]
    exact ((failsOnly_stmtsCode start _ body).mono (.mono .block)).bind fun _ _ => .ok _
  | declare _ _ _ init =>
    rw [stmtCode]
    exact ((failsOnly_exprCode site frame.slots init).mono hself).bind fun _ _ => .ok _
  | assign _ _ value =>
    rw [stmtCode]
    refine FailsOnly.bind (fun e he => hself e ⟨_, mem_cons_self, he⟩) fun _ _ => ?_
    refine (((failsOnly_exprCode site frame.slots value).mono
      (.mono (subset_cons_self _ _))).mono hself).bind fun _ _ => ?_
    exact .ok _
  | assignIndex span target position value =>
    rw [stmtCode]
    have hposition : position.refs ⊆ (Stmt.assignIndex span target position value).ownRefs :=
      fun _ h => mem_cons_of_mem _ (mem_append_left _ h)
    have hvalue : value.refs ⊆ (Stmt.assignIndex span target position value).ownRefs :=
      fun _ h => mem_cons_of_mem _ (mem_append_right _ h)
    refine FailsOnly.bind (fun e he => hself e ⟨_, mem_cons_self, he⟩) fun _ _ => ?_
    refine (((failsOnly_exprCode site frame.slots position).mono (.mono hposition)).mono hself).bind
      fun _ _ => ?_
    refine (((failsOnly_exprCode site frame.slots value).mono (.mono hvalue)).mono hself).bind
      fun _ _ => ?_
    exact .ok _
  | call _ method args =>
    rw [stmtCode]
    exact ((failsOnly_callCode site frame.slots method args).mono hself).bind fun _ _ => .ok _
  | ret _ value =>
    cases value with
    | none =>
      rw [stmtCode]
      exact .ok _
    | some value =>
      rw [stmtCode]
      exact ((failsOnly_exprCode site frame.slots value).mono hself).bind fun _ _ => .ok _
  | ifThen _ test thenBranch =>
    rw [stmtCode]
    refine ((failsOnly_conditionCode site frame.slots test).mono hself).bind fun condition hc => ?_
    exact ((failsOnly_stmtCode _ frame thenBranch).mono (.mono (.ifThen hc))).bind fun _ _ => .ok _
  | ifThenElse _ test thenBranch elseBranch =>
    -- The second branch is lowered with the frame that the first one has left.
    rw [stmtCode]
    refine ((failsOnly_conditionCode site frame.slots test).mono hself).bind fun condition hc => ?_
    refine ((failsOnly_stmtCode _ frame thenBranch).mono (.mono (.thenBranch hc))).bind
      fun out hthen => ?_
    exact ((failsOnly_stmtCode _ out.2 elseBranch).mono (.mono (.elseBranch hc hthen))).bind
      fun _ _ => .ok _
  | loop _ test body =>
    rw [stmtCode]
    refine ((failsOnly_conditionCode site frame.slots test).mono hself).bind fun condition hc => ?_
    exact ((failsOnly_stmtCode _ frame body).mono (.mono (.loop hc))).bind fun _ _ => .ok _

theorem failsOnly_stmtsCode (start : Nat) (frame : Frame) (ss : List Stmt) :
    FailsOnly (site.RefusesAt (InStmts site start frame ss)) (site.stmtsCode start frame ss) := by
  cases ss with
  | nil =>
    rw [stmtsCode]
    exact .ok _
  | cons s ss =>
    rw [stmtsCode]
    refine ((failsOnly_stmtCode start frame s).mono (.mono .head)).bind fun out hfirst => ?_
    exact ((failsOnly_stmtsCode _ out.2 ss).mono (.mono (.tail hfirst))).bind fun _ _ => .ok _

end

end

end Site

/-- A reference in the body of a method is the reason why there is no code. -/
def RefusedInBody (table : ClassTable) (p : Program) (method : String × MethodDecl)
    (e : CodegenError) : Prop :=
  ∃ start k f t,
    InStmts (Body.ofMethod table p method.1 method.2).lowering start
      (Frame.ofParams method.2.params) method.2.body k f t ∧
    (Body.ofMethod table p method.1 method.2).lowering.RefusesOne f.slots t.ownRefs e

theorem failsOnly_methodsCode (table : ClassTable) (p : Program) (start : Nat)
    (methods : List (String × MethodDecl)) :
    FailsOnly (fun e => ∃ method ∈ methods, RefusedInBody table p method e)
      (methodsCode table (.ofProgram p) start methods) := by
  induction methods generalizing start with
  | nil => exact .ok _
  | cons method _ ih =>
    rw [methodsCode]
    refine FailsOnly.bind ?_ fun code _ => FailsOnly.bind ?_ fun _ _ => .ok _
    · refine FailsOnly.bind ?_ fun _ _ => .ok _
      refine ((Body.ofMethod table p method.1 method.2).lowering.failsOnly_stmtsCode _ _ _).mono ?_
      intro e he
      obtain ⟨k, f, t, hin, he⟩ := he
      exact ⟨method, mem_cons_self, _, k, f, t, hin, he⟩
    · refine (ih (start + code.length)).mono ?_
      intro _ he
      obtain ⟨other, hmem, he⟩ := he
      exact ⟨other, mem_cons_of_mem method hmem, he⟩

/-! ## The kinds of faults -/

end Lowering

/-- The faults that the body of a method can have. -/
def CodegenFault.isOfBody : CodegenFault → Bool
  | .callOfThis | .unknownMethod _ | .thisInStatic | .notField _ | .noStaticSlot _ _
  | .noLayout _ _ | .notObject _ | .notAssignable _ => true
  | .noMain | .duplicateMain | .noCode _ _ | .unresolvedBranch _ => false

namespace Lowering

/-- A fault of a body, with its place in the source. -/
def PointsIntoBody (e : CodegenError) : Prop := e.fault.isOfBody = true ∧ e.span.isSome

theorem failsOnly_failAt {α : Type} {fault : CodegenFault} (h : fault.isOfBody = true)
    (span : Span) : FailsOnly PointsIntoBody (failAt fault span : Result α) :=
  .error ⟨h, rfl⟩

namespace Site

variable (site : Site) (slots : ScopeStack Slot)

theorem pointsIntoBody_classOfType (r : Ref) (type : Ty) :
    FailsOnly PointsIntoBody (classOfType r type) := by
  cases type with
  | object name => exact .ok name
  | _ => exact failsOnly_failAt rfl r.span

theorem pointsIntoBody_classOf (r : Ref) : FailsOnly PointsIntoBody (site.classOf slots r) := by
  induction r with
  | this => exact .ok _
  | name => exact pointsIntoBody_classOfType _ _
  | member _ _ _ ih =>
    rw [classOf]
    exact ih.bind fun _ _ => pointsIntoBody_classOfType _ _

theorem pointsIntoBody_receiverCode (span : Span) :
    FailsOnly PointsIntoBody (site.receiverCode span) := by
  unfold receiverCode
  split
  · exact .ok _
  · exact failsOnly_failAt rfl span

theorem pointsIntoBody_fieldCode (r : Ref) (className name : String)
    {object : Result LabelledCode} (h : FailsOnly PointsIntoBody object) :
    FailsOnly PointsIntoBody (site.fieldCode r className name object) := by
  unfold fieldCode
  split
  · exact failsOnly_failAt rfl r.span
  · split
    · split
      · exact failsOnly_failAt rfl r.span
      · exact .ok _
    · split
      · exact failsOnly_failAt rfl r.span
      · exact h.bind fun _ _ => .ok _

theorem pointsIntoBody_refCode (r : Ref) : FailsOnly PointsIntoBody (site.refCode slots r) := by
  induction r with
  | this span =>
    rw [refCode]
    exact (site.pointsIntoBody_receiverCode span).bind fun _ _ => .ok _
  | name span =>
    rw [refCode]
    split
    · exact .ok _
    · exact (site.pointsIntoBody_fieldCode _ _ _ (site.pointsIntoBody_receiverCode span)).bind
        fun _ _ => .ok _
  | member _ base _ ih =>
    rw [refCode]
    refine (site.pointsIntoBody_classOf slots base).bind fun _ _ => ?_
    exact (site.pointsIntoBody_fieldCode _ _ _ (ih.map readTop)).bind fun _ _ => .ok _

theorem pointsIntoBody_valueCode (r : Ref) : FailsOnly PointsIntoBody (site.valueCode slots r) :=
  (site.pointsIntoBody_refCode slots r).map readTop

theorem pointsIntoBody_targetCode (r : Ref) :
    FailsOnly PointsIntoBody (site.targetCode slots r) := by
  refine (site.pointsIntoBody_refCode slots r).bind fun found _ => ?_
  obtain ⟨code, top⟩ := found
  cases top with
  | address => exact .ok code
  | value => exact failsOnly_failAt rfl r.span

theorem pointsIntoBody_calleeIn (r : Ref) (className name : String)
    {receiver : Result LabelledCode} (h : FailsOnly PointsIntoBody receiver) :
    FailsOnly PointsIntoBody (site.calleeIn r className name receiver) := by
  unfold calleeIn
  split
  · exact failsOnly_failAt rfl r.span
  · split
    · exact .ok _
    · split
      · exact .ok _
      · exact h.bind fun _ _ => .ok _

theorem pointsIntoBody_callee (r : Ref) : FailsOnly PointsIntoBody (site.callee slots r) := by
  cases r with
  | this span => exact failsOnly_failAt rfl span
  | name span =>
    exact site.pointsIntoBody_calleeIn _ _ _ (site.pointsIntoBody_receiverCode span)
  | member _ base =>
    refine (site.pointsIntoBody_classOf slots base).bind fun _ _ => ?_
    exact site.pointsIntoBody_calleeIn _ _ _ (site.pointsIntoBody_valueCode slots base)

end Site

theorem RefusedInBody.pointsIntoBody {table : ClassTable} {p : Program}
    {method : String × MethodDecl} {e : CodegenError} (h : RefusedInBody table p method e) :
    PointsIntoBody e := by
  obtain ⟨_, _, _, _, -, ⟨use, r⟩, -, he⟩ := h
  cases use with
  | value | indexed => exact Site.pointsIntoBody_valueCode _ _ r e he
  | target => exact Site.pointsIntoBody_targetCode _ _ r e he
  | callee => exact Site.pointsIntoBody_callee _ _ r e he

/-! ## Programs -/

/-- The code of a program with the table of any classes. -/
theorem programCode_cases (table : ClassTable) (main : MethodKey) (p : Program) :
    (∃ code, programCode table main p = .ok code ∧
      ∀ i ∈ code, ∀ n, i.target? = some n → n ≤ code.length) ∨
    ∃ e, programCode table main p = .error e ∧
      ((∃ method ∈ methodsOf p, RefusedInBody table p method e) ∨
        ∃ key : MethodKey, key ∉ (methodsOf p).map keyOf ∧
          e = ⟨.noCode key.className key.name, none⟩) := by
  cases hmethods : methodsCode table (.ofProgram p) (entryCode (.ofProgram p) main).length
      (methodsOf p) with
  | error e =>
    refine .inr ⟨e, ?_, .inl (failsOnly_methodsCode table _ _ _ e hmethods)⟩
    exact bind_eq_error.mpr (.inl hmethods)
  | ok out =>
    obtain ⟨methods, entries⟩ := out
    -- With code for the methods, only linking can fail.
    have hcode : programCode table main p =
        link entries (printStart (.ofProgram p) main methods)
          (unlinkedCode (.ofProgram p) main methods) := by
      simp only [programCode, hmethods]
      rfl
    rw [hcode]
    cases hlink : link entries (printStart (.ofProgram p) main methods)
        (unlinkedCode (.ofProgram p) main methods) with
    | error e =>
      refine .inr ⟨e, rfl, .inr ?_⟩
      rw [← (methodsCode_spec hmethods).1]
      exact link_eq_error hlink
    | ok _ =>
      have hentered := callsEntered_of_link hlink
      rw [link_eq_ok hentered] at hlink
      cases hlink
      exact .inl ⟨_, rfl, target_le_length_linkedCode hmethods hentered⟩

/-- Lowering of any program with the table of any classes, whichever method is called first. In one
pass every patch is made at a branch or a call; the code, if there is any, has no branch and no call
that leads out of it; and if there is none, a reference in a body or a call of a method without code
is to blame. -/
theorem lower_of_any_table (table : ClassTable) (main : MethodKey) (p : Program) :
    (∀ index, emitProgram table main p ≠ .error (.misplacedPatch index)) ∧
    (∀ index span, lower table main p ≠ .error ⟨.unresolvedBranch index, span⟩) ∧
    ((∃ code bytes, emitProgram table main p = .ok (code.map (·.map some)) ∧
        programCode table main p = .ok code ∧
        (∀ i ∈ code, ∀ n, i.target? = some n → n ≤ code.length) ∧
        lower table main p = .ok bytes) ∨
      ∃ e, emitProgram table main p = .error (.fault e) ∧ lower table main p = .error e ∧
        ((e.fault.isOfBody = true ∧
            ∃ method ∈ methodsOf p, RefusedInBody table p method e) ∨
          ∃ key : MethodKey, key ∉ (methodsOf p).map keyOf ∧
            e = ⟨.noCode key.className key.name, none⟩)) := by
  rw [emitProgram_eq]
  rcases programCode_cases table main p with ⟨code, hcode, htargets⟩ | ⟨e, hcode, he⟩
  · obtain ⟨bytes, hbytes⟩ := exists_lower_of_target_le hcode htargets
    rw [hcode, hbytes]
    exact ⟨nofun, nofun, .inl ⟨code, bytes, rfl, rfl, htargets, rfl⟩⟩
  · have hlower : lower table main p = .error e := bind_eq_error.mpr (.inl hcode)
    rw [hcode, hlower]
    refine ⟨nofun, ?_, .inr ⟨e, rfl, rfl, ?_⟩⟩
    · -- Neither kind of refusal is about a branch.
      intro _ _ h
      cases h
      rcases he with ⟨method, -, hrefused⟩ | ⟨_, -, hkey⟩
      · cases hrefused.pointsIntoBody.1
      · cases hkey
    · rcases he with ⟨method, hmethod, hrefused⟩ | hkey
      · exact .inl ⟨hrefused.pointsIntoBody.1, method, hmethod, hrefused⟩
      · exact .inr hkey

end Lowering

end MiniJava
