import MiniJava.Proofs.Scoping.Identified
import MiniJava.Proofs.Typing.Inference

/-!
# Checked statements

The faults of a body are collected statement by statement, with scopes that move along with those of
identification (`Between`). There are none if and only if the statements keep the rules of typing
(`stmtFaults_iff`).

The rules have one list of variables where the check has a stack of scopes: behind a statement it
has gained the variable that the statement declares (`bindings_checkStmt`).
-/

namespace MiniJava

open List

namespace Typing

/-! ## Returns -/

mutual

theorem hasReturn_iff (s : Stmt) : hasReturn s = true ↔ ReturnsIn s := by
  cases s with
  | block _ body =>
    rw [hasReturn, anyReturn_iff body]
    constructor
    · rintro ⟨s, hs, h⟩
      exact .block hs h
    · intro h
      cases h with
      | block hs h => exact ⟨_, hs, h⟩
  | ret => exact ⟨fun _ => .ret, fun _ => rfl⟩
  | ifThen _ _ s =>
    rw [hasReturn, hasReturn_iff s]
    constructor
    · exact .ifThen
    · intro h
      cases h with
      | ifThen h => exact h
  | ifThenElse _ _ first second =>
    rw [hasReturn, Bool.or_eq_true, hasReturn_iff first, hasReturn_iff second]
    constructor
    · rintro (h | h)
      · exact .thenBranch h
      · exact .elseBranch h
    · intro h
      cases h with
      | thenBranch h => exact .inl h
      | elseBranch h => exact .inr h
  | loop _ _ s =>
    rw [hasReturn, hasReturn_iff s]
    constructor
    · exact .loop
    · intro h
      cases h with
      | loop h => exact h
  | declare | assign | assignIndex | call =>
    refine ⟨fun h => ?_, fun h => ?_⟩
    · cases h
    · cases h

theorem anyReturn_iff (ss : List Stmt) : anyReturn ss = true ↔ ∃ s ∈ ss, ReturnsIn s := by
  cases ss with
  | nil =>
    refine ⟨fun h => ?_, fun h => ?_⟩
    · cases h
    · obtain ⟨_, hs, -⟩ := h
      cases hs
  | cons s ss =>
    rw [anyReturn, Bool.or_eq_true, hasReturn_iff s, anyReturn_iff ss, exists_mem_cons_iff]

end

/-! ## Scopes behind a statement -/

theorem outer_defineNew {types : ScopeStack Ty} {name : String} {type : Ty} :
    (types.defineNew name type).outer = types.outer := by
  rw [ScopeStack.defineNew]
  cases h : types.define? name type with
  | none => rfl
  | some _ => exact ScopeStack.outer_define? h

mutual

/-- A statement leaves the scopes around the innermost one alone. -/
theorem outer_checkStmt (site : Site) (types : ScopeStack Ty) (s : Stmt) :
    (site.checkStmt types s).1.outer = types.outer := by
  cases s with
  | block _ body =>
    show (site.checkStmts types.push body).1.outer.outer = _
    rw [outer_checkStmts site types.push body, ScopeStack.outer_push]
  | declare => exact outer_defineNew
  | assign | assignIndex | call | ret => rfl
  | ifThen _ _ s => exact outer_checkStmt site types s
  | ifThenElse _ _ first second =>
    show (site.checkStmt (site.checkStmt types first).1 second).1.outer = _
    rw [outer_checkStmt site _ second, outer_checkStmt site types first]
  | loop _ _ s => exact outer_checkStmt site types s

theorem outer_checkStmts (site : Site) (types : ScopeStack Ty) (ss : List Stmt) :
    (site.checkStmts types ss).1.outer = types.outer := by
  cases ss with
  | nil => rfl
  | cons s ss =>
    show (site.checkStmts (site.checkStmt types s).1 ss).1.outer = _
    rw [outer_checkStmts site _ ss, outer_checkStmt site types s]

end

theorem types_block (site : Site) (types : ScopeStack Ty) (span : Span) (body : List Stmt) :
    (site.checkStmt types (.block span body)).1 = types :=
  (outer_checkStmts site types.push body).trans (ScopeStack.outer_push types)

variable {locals' : ScopeStack LocalVar} {s : Scopes} {p : Program}

section

variable {b : Body}

/-- A statement that declares nothing leaves the scopes as they were. -/
theorem types_checkStmt_of_none (types : ScopeStack Ty) (s : Stmt)
    {locals locals' : ScopeStack LocalVar}
    (h : b.naming.checkStmt locals s = .ok locals') (hs : s.binding? = none) :
    (b.typing.checkStmt types s).1 = types := by
  cases s with
  | block span body => exact types_block _ types span body
  | declare => cases hs
  | assign | assignIndex | call | ret => rfl
  | ifThen _ _ s =>
    obtain ⟨⟨⟩, -, ⟨⟩, hbranch, h⟩ := bind₂_eq_ok.mp h
    exact types_checkStmt_of_none types s h (Scoping.checkBranch_iff.mp hbranch)
  | ifThenElse _ _ first second =>
    obtain ⟨⟨⟩, -, ⟨⟩, hfirst, _, hcheckFirst, h⟩ := bind₃_eq_ok.mp h
    obtain ⟨hsecond, hcheckSecond⟩ := check_bind_eq_ok.mp h
    show (b.typing.checkStmt (b.typing.checkStmt types first).1 second).1 = types
    rw [types_checkStmt_of_none types first hcheckFirst (Scoping.checkBranch_iff.mp hfirst)]
    exact types_checkStmt_of_none types second hcheckSecond (Scoping.checkBranch_iff.mp hsecond)
  | loop _ _ s =>
    obtain ⟨⟨⟩, -, ⟨⟩, hbranch, h⟩ := bind₂_eq_ok.mp h
    exact types_checkStmt_of_none types s h (Scoping.checkBranch_iff.mp hbranch)

/-- A statement adds to the variables in scope what it declares. -/
theorem bindings_checkStmt (hs : s.Aligned) (st : Stmt)
    (h : b.naming.checkStmt s.locals st = .ok locals') :
    (b.typing.checkStmt s.types st).1.bindings = st.binding?.toList ++ s.types.bindings := by
  cases hbinding : st.binding? with
  | none => rw [types_checkStmt_of_none s.types st h hbinding]; rfl
  | some _ =>
    cases st with
    | declare _ type name =>
      cases hbinding
      obtain ⟨⟨⟩, -, _, hduring, -⟩ := bind₂_eq_ok.mp h
      obtain ⟨_, hready⟩ := ScopeStack.define?_isSome_congr (define?_of_declare hduring)
        (Scopes.readyVar type.value)
      rw [hs.locals, ScopeStack.define?_map] at hready
      obtain ⟨_, htypes, -⟩ := Option.map_eq_some_iff.mp hready
      show (s.types.defineNew name.value type.value).bindings = _
      rw [ScopeStack.defineNew, htypes]
      exact ScopeStack.bindings_define htypes
    | block | assign | assignIndex | call | ret | ifThen | ifThenElse | loop => cases hbinding

end

/-! ## Statements -/

/-- The scopes of the phases at a place between two statements of a body. -/
structure Between (p : Program) (b : Body) (s : Scopes) : Prop extends IsBodyOf b p where
  aligned : s.Aligned
  vars : ((b.typing.env s.types).context p).VarsWritten

namespace Between

variable {p : Program} {b : Body} {s : Scopes} (hs : Between p b s)
include hs

theorem acceptedAt : AcceptedAt p b s.locals s.types s.frame.slots :=
  ⟨hs.toIsBodyOf, Scopes.sameVariables_of_aligned hs.aligned, hs.vars⟩

theorem push : Between p b s.push := ⟨hs.toIsBodyOf, Scopes.aligned_push hs.aligned, hs.vars⟩

/-- In the initializer of a variable, only identification knows the variable. -/
theorem during {name : Ident} {type : Ty} {locals : ScopeStack LocalVar}
    (h : Identification.declare s.locals name ⟨type, false⟩ = .ok locals) :
    AcceptedAt p b locals s.types s.frame.slots :=
  ⟨hs.toIsBodyOf, Scopes.sameVariables_during hs.aligned h, hs.vars⟩

/-- The scopes behind a statement. -/
theorem next {st : Stmt} (h : b.naming.checkStmt s.locals st = .ok locals')
    (hst : ∀ t ∈ st.declaredTypes, t.IsWritten) :
    ∃ frame, Between p b ⟨locals', (b.typing.checkStmt s.types st).1, frame⟩ := by
  obtain ⟨_, frame, -, haligned⟩ := exists_stmtCode hs.statics hs.aligned st h 0
  refine ⟨frame, hs.toIsBodyOf, haligned, ?_⟩
  intro binding hbinding
  have hbindings := bindings_checkStmt hs.aligned st h
  replace hbinding : binding ∈ (b.typing.checkStmt s.types st).1.bindings := hbinding
  rw [hbindings, mem_append] at hbinding
  rcases hbinding with hbinding | hbinding
  · cases st with
    | declare =>
      cases mem_singleton.mp hbinding
      exact hst _ mem_cons_self
    | block | assign | assignIndex | call | ret | ifThen | ifThenElse | loop => cases hbinding
  · exact hs.vars binding hbinding

/-- Behind a statement the rules know what it declares. -/
theorem context_next {st : Stmt} (h : b.naming.checkStmt s.locals st = .ok locals') :
    (b.typing.env (b.typing.checkStmt s.types st).1).context p =
      { (b.typing.env s.types).context p with vars := st.binding?.toList ++ s.types.bindings } :=
  congrArg (Context.mk p b.className) (bindings_checkStmt hs.aligned st h)

end Between

/-- The faults of a condition. -/
theorem conditionFaults_iff {b : Body} (hs : Between p b s) {test : Expr}
    (h : b.naming.checkExpr s.locals test = .ok ()) {statement : Conditional} :
    b.typing.conditionFaults s.types statement test = [] ↔
      HasType ((b.typing.env s.types).context p) test .boolean := by
  rw [Site.conditionFaults, append_eq_nil_iff, faultUnless_eq_nil_iff,
    ← exprFits_iff hs.acceptedAt h .boolean]
  constructor
  · rintro ⟨_, htype, rfl | ⟨-, href⟩⟩
    · exact htype
    · cases href
  · intro htype
    exact ⟨_, htype, .inl rfl⟩

/-- The faults of a call. -/
theorem callFaults_iff {b : Body} (hs : Between p b s) {method : Ref} {args : List Expr}
    (hmethod : b.naming.checkCallee s.locals method = .ok ())
    (hargs : b.naming.checkExprs s.locals args = .ok ()) :
    ((b.typing.env s.types).callType method ((b.typing.env s.types).inferArgs args).1
        ((b.typing.env s.types).inferArgs args).2).faults = [] ↔
      ∃ params result, ((b.typing.env s.types).context p).Denotes method (.method params result) ∧
        ArgsFit ((b.typing.env s.types).context p) args params := by
  have hat := hs.acceptedAt
  constructor
  · intro hfaults
    obtain ⟨params, hdenotes, hwritten, hcount, hnil, hfit⟩ := hat.callType_faults hmethod hfaults
    exact ⟨params, _, hdenotes, argsFit_of_inferArgs hat args hargs hwritten hnil hcount hfit⟩
  · rintro ⟨_, _, hdenotes, hfit⟩
    -- The same call as an expression has a type, and so it is without faults.
    have hinfer := infer_of_hasType hat.table (.call Span.builtin method args) (.call hdenotes hfit)
    rw [Env.infer] at hinfer
    exact congrArg Typed.faults hinfer

/-- An element of an array, as one that is read. -/
theorem elementType_eq_iff {b : Body} (hs : Between p b s) {target : Ref} {position : Expr}
    (htarget : b.naming.checkValue s.locals target = .ok ())
    (hposition : b.naming.checkExpr s.locals position = .ok ()) {element : Ty} :
    (b.typing.env s.types).elementType target position.span
        ((b.typing.env s.types).infer position) = ⟨element, []⟩ ↔
      ((b.typing.env s.types).context p).Denotes target (.value (.array element)) ∧
        HasType ((b.typing.env s.types).context p) position .int := by
  have hindex : (b.typing.env s.types).infer (.index Span.builtin target position) =
      ⟨element, []⟩ ↔ _ :=
    infer_eq_iff hs.acceptedAt (check_bind_eq_ok.mpr ⟨htarget, hposition⟩)
  rw [Env.infer] at hindex
  rw [hindex]
  constructor
  · intro h
    cases h with
    | index htarget hposition => exact ⟨htarget, hposition⟩
  · rintro ⟨htarget, hposition⟩
    exact .index htarget hposition

mutual

/-- A statement has no faults if it keeps the rules. -/
theorem stmtFaults_iff {p : Program} {b : Body} {s : Scopes} (hs : Between p b s) (st : Stmt)
    {locals' : ScopeStack LocalVar} (h : b.naming.checkStmt s.locals st = .ok locals')
    (hst : ∀ t ∈ st.declaredTypes, t.IsWritten) :
    (b.typing.checkStmt s.types st).2 = [] ↔
      StmtTyped ((b.typing.env s.types).context p) b.returns st := by
  cases st with
  | block _ body =>
    obtain ⟨_, hinner, -⟩ := bind_eq_ok.mp h
    exact stmtsFaults_iff hs.push body hinner hst
  | declare =>
    obtain ⟨⟨⟩, -, during, hduring, ⟨⟩, hinit, -⟩ := bind₃_eq_ok.mp h
    rw [StmtTyped, exprFits_iff (hs.during hduring) hinit (hst _ mem_cons_self)]
    show _ ++ faultUnless _ _ _ = [] ↔ _
    rw [append_eq_nil_iff, faultUnless_eq_nil_iff]
  | assign _ target =>
    obtain ⟨⟨⟩, htarget, ⟨⟩, hvalue, -⟩ := bind₂_eq_ok.mp h
    obtain ⟨type, htype⟩ := hs.acceptedAt.exists_value_of_checkTarget htarget
    have hdenotes := (denotes_value_iff hs.table).mpr htype
    have hwritten : type.IsWritten := denotes_written hs.program hs.vars hdenotes
    have hexpected : (b.typing.env s.types).valueType target = type := by
      rw [Env.valueType, htype]
    rw [StmtTyped]
    show _ ++ faultUnless _ _ _ = [] ↔ _
    rw [append_eq_nil_iff, faultUnless_eq_nil_iff, hexpected,
      ← exprFits_iff hs.acceptedAt hvalue hwritten]
    constructor
    · intro hfits
      exact ⟨type, hdenotes, hfits⟩
    · rintro ⟨_, hother, hfits⟩
      cases htype.symm.trans ((denotes_value_iff hs.table).mp hother)
      exact hfits
  | assignIndex =>
    obtain ⟨⟨⟩, htarget, ⟨⟩, hposition, ⟨⟩, hvalue, -⟩ := bind₃_eq_ok.mp h
    rw [StmtTyped]
    show _ ++ _ ++ faultUnless _ _ _ = [] ↔ _
    rw [append_eq_nil_iff, append_eq_nil_iff, faultUnless_eq_nil_iff]
    constructor
    · rintro ⟨⟨hnil, hnilValue⟩, hassignable⟩
      obtain ⟨harray, hint⟩ := (elementType_eq_iff hs htarget hposition).mp
        (congrArg (Typed.mk _) hnil)
      have hwritten : (Ty.array _).IsWritten := denotes_written hs.program hs.vars harray
      exact ⟨_, harray, hint,
        (exprFits_iff hs.acceptedAt hvalue hwritten.element).mpr ⟨hnilValue, hassignable⟩⟩
    · rintro ⟨element, harray, hint, hfits⟩
      have hwritten : (Ty.array element).IsWritten := denotes_written hs.program hs.vars harray
      rw [(elementType_eq_iff hs htarget hposition).mpr ⟨harray, hint⟩]
      obtain ⟨hnil, hassignable⟩ := (exprFits_iff hs.acceptedAt hvalue hwritten.element).mp hfits
      exact ⟨⟨rfl, hnil⟩, hassignable⟩
  | call =>
    obtain ⟨⟨⟩, hmethod, ⟨⟩, hargs, -⟩ := bind₂_eq_ok.mp h
    rw [StmtTyped]
    exact callFaults_iff hs hmethod hargs
  | ret _ value =>
    cases value with
    | none =>
      rw [StmtTyped]
      show faultUnless _ _ _ = [] ↔ _
      rw [faultUnless_eq_nil_iff, decide_eq_true_eq]
      rfl
    | some =>
      obtain ⟨hvalue, -⟩ := check_bind_eq_ok.mp h
      rw [StmtTyped]
      show (if b.returns = .void then _ ++ [_] else _ ++ faultUnless _ _ _) = [] ↔ _
      rcases hs.returns with hvoid | hwritten
      · rw [if_pos hvoid]
        refine ⟨fun hnil => absurd hnil (append_ne_nil_of_right_ne_nil _ nofun), ?_⟩
        rintro ⟨hne, -⟩
        exact absurd hvoid hne
      · have hne : b.returns ≠ .void := by
          intro hvoid
          rw [hvoid] at hwritten
          cases hwritten
        rw [if_neg hne, append_eq_nil_iff, faultUnless_eq_nil_iff,
          exprFits_iff hs.acceptedAt hvalue hwritten]
        exact (and_iff_right hne).symm
  | ifThen _ _ thenBranch =>
    obtain ⟨⟨⟩, htest, ⟨⟩, -, hthen⟩ := bind₂_eq_ok.mp h
    rw [StmtTyped, ← conditionFaults_iff hs htest, ← stmtFaults_iff hs thenBranch hthen hst]
    exact append_eq_nil_iff
  | ifThenElse _ _ thenBranch elseBranch =>
    obtain ⟨⟨⟩, htest, ⟨⟩, hbranch, _, hthen, h⟩ := bind₃_eq_ok.mp h
    obtain ⟨-, helse⟩ := check_bind_eq_ok.mp h
    obtain ⟨hstThen, hstElse⟩ := forall_mem_append.mp hst
    -- A branch declares nothing, so the second one is checked in the same scopes.
    have hsame := types_checkStmt_of_none s.types thenBranch hthen
      (Scoping.checkBranch_iff.mp hbranch)
    obtain ⟨_, hnext⟩ := hs.next hthen hstThen
    rw [hsame] at hnext
    rw [StmtTyped, ← conditionFaults_iff hs htest, ← stmtFaults_iff hs thenBranch hthen hstThen,
      ← stmtFaults_iff hnext elseBranch helse hstElse]
    show _ ++ _ ++ (b.typing.checkStmt (b.typing.checkStmt s.types thenBranch).1 elseBranch).2 =
      [] ↔ _
    rw [hsame, append_eq_nil_iff, append_eq_nil_iff, and_assoc]
  | loop _ _ body =>
    obtain ⟨⟨⟩, htest, ⟨⟩, -, hbody⟩ := bind₂_eq_ok.mp h
    rw [StmtTyped, ← conditionFaults_iff hs htest, ← stmtFaults_iff hs body hbody hst]
    exact append_eq_nil_iff

theorem stmtsFaults_iff {p : Program} {b : Body} {s : Scopes} (hs : Between p b s) (ss : List Stmt)
    {locals' : ScopeStack LocalVar} (h : b.naming.checkStmts s.locals ss = .ok locals')
    (hss : ∀ t ∈ Stmt.declaredTypesOf ss, t.IsWritten) :
    (b.typing.checkStmts s.types ss).2 = [] ↔
      StmtsTyped ((b.typing.env s.types).context p) b.returns ss := by
  cases ss with
  | nil =>
    rw [StmtsTyped]
    exact ⟨fun _ => trivial, fun _ => rfl⟩
  | cons st ss =>
    obtain ⟨_, hst, hrest⟩ := bind_eq_ok.mp h
    obtain ⟨hstTypes, hssTypes⟩ := forall_mem_append.mp hss
    obtain ⟨_, hnext⟩ := hs.next hst hstTypes
    rw [StmtsTyped, ← stmtFaults_iff hs st hst hstTypes]
    have ih := stmtsFaults_iff hnext ss hrest hssTypes
    rw [hs.context_next hst] at ih
    exact append_eq_nil_iff.trans (and_congr_right' ih)

end

end Typing

end MiniJava
