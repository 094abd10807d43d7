import MiniJava.Proofs.Grammar.WrittenTypes
import MiniJava.Proofs.Token.Tokens
import MiniJava.Proofs.Typing.Statements

/-!
# Checked programs

> `typeCheck_iff_wellTyped`: a program that passes identification is without type faults if and
> only if it is well-typed. Wherever an expression is given the erroneous type, a fault is found
> inside it, and wherever none is found, its type is the one that the rules give.

The second part is about every expression of a method at the place where it stands, with the scopes
that the check has when it gets there (`MethodVisits`).
-/

namespace MiniJava

open List

namespace Typing

/-! ## Expressions where they stand -/

/-- An expression is inside of another, or the same. -/
inductive PartOf : Expr → Expr → Prop
  | self {e : Expr} : PartOf e e
  | operand {span : Span} {op : UnaryOp} {e operand : Expr} (h : PartOf e operand) :
      PartOf e (.unary span op operand)
  | left {span : Span} {op : BinaryOp} {e left right : Expr} (h : PartOf e left) :
      PartOf e (.binary span op left right)
  | right {span : Span} {op : BinaryOp} {e left right : Expr} (h : PartOf e right) :
      PartOf e (.binary span op left right)
  | position {span : Span} {target : Ref} {e position : Expr} (h : PartOf e position) :
      PartOf e (.index span target position)
  | argument {span : Span} {method : Ref} {args : List Expr} {e arg : Expr} (harg : arg ∈ args)
      (h : PartOf e arg) : PartOf e (.call span method args)
  | size {span : Span} {element : Located Ty} {e size : Expr} (h : PartOf e size) :
      PartOf e (.newArray span element size)

/-- The expressions of a statement that are not inside of other statements. -/
def exprsOf : Stmt → List Expr
  | .block _ _ | .ret _ none => []
  | .declare _ _ _ init => [init]
  | .assign _ _ value => [value]
  | .assignIndex _ _ position value => [position, value]
  | .call _ _ args => args
  | .ret _ (some value) => [value]
  | .ifThen _ test _ | .ifThenElse _ test _ _ | .loop _ test _ => [test]

/-- While a statement is checked at some scopes, an expression is given a type at others. -/
inductive Site.Visits (site : Site) : ScopeStack Ty → Stmt → ScopeStack Ty → Expr → Prop
  | own {types : ScopeStack Ty} {s : Stmt} {whole e : Expr} (hwhole : whole ∈ exprsOf s)
      (h : PartOf e whole) : Visits site types s types e
  | block {types types' : ScopeStack Ty} {span : Span} {front back : List Stmt}
      {s : Stmt} {e : Expr} (h : Visits site (site.checkStmts types.push front).1 s types' e) :
      Visits site types (.block span (front ++ s :: back)) types' e
  | ifThen {types types' : ScopeStack Ty} {span : Span} {test e : Expr} {s : Stmt}
      (h : Visits site types s types' e) : Visits site types (.ifThen span test s) types' e
  | thenBranch {types types' : ScopeStack Ty} {span : Span} {test e : Expr} {s other : Stmt}
      (h : Visits site types s types' e) :
      Visits site types (.ifThenElse span test s other) types' e
  | elseBranch {types types' : ScopeStack Ty} {span : Span} {test e : Expr} {s other : Stmt}
      (h : Visits site (site.checkStmt types other).1 s types' e) :
      Visits site types (.ifThenElse span test other s) types' e
  | loop {types types' : ScopeStack Ty} {span : Span} {test e : Expr} {s : Stmt}
      (h : Visits site types s types' e) : Visits site types (.loop span test s) types' e

/-- While a method is checked, an expression is given a type at these scopes. -/
def MethodVisits (table : ClassTable) (className : String) (m : MethodDecl) (types : ScopeStack Ty)
    (e : Expr) : Prop :=
  let site : Site := ⟨table, className, m.returns.value⟩
  ∃ front s back, m.body = front ++ s :: back ∧
    site.Visits (site.checkStmts (paramScope m.params) front).1 s types e

variable {e : Expr}

theorem checkExpr_of_mem {site : Identification.Site} {locals : ScopeStack LocalVar}
    {es : List Expr} (h : site.checkExprs locals es = .ok ()) (he : e ∈ es) :
    site.checkExpr locals e = .ok () := by
  induction es with
  | nil => cases he
  | cons _ _ ih =>
    obtain ⟨hfirst, hothers⟩ := check_bind_eq_ok.mp h
    rcases mem_cons.mp he with rfl | he
    · exact hfirst
    · exact ih hothers he

/-- The parts of an expression that passes identification pass it too. -/
theorem checkExpr_of_partOf {site : Identification.Site} {locals : ScopeStack LocalVar}
    {whole : Expr} (hpart : PartOf e whole) (h : site.checkExpr locals whole = .ok ()) :
    site.checkExpr locals e = .ok () := by
  induction hpart with
  | self => exact h
  | operand _ ih => exact ih h
  | left _ ih => exact ih (check_bind_eq_ok.mp h).1
  | right _ ih | position _ ih | size _ ih => exact ih (check_bind_eq_ok.mp h).2
  | argument harg _ ih => exact ih (checkExpr_of_mem (check_bind_eq_ok.mp h).2 harg)

/-! ## No `void` is used as a value -/

/-- The expression has a type other than `void`. -/
def IsValue (Γ : Context) (e : Expr) : Prop := ∃ type, HasType Γ e type ∧ type ≠ .void

theorem isValue_of_exprFits {Γ : Context} {target : Ty} (h : ExprFits Γ e target)
    (htarget : target.IsWritten) : IsValue Γ e := by
  obtain ⟨type, htype, rfl | ⟨rfl, -⟩⟩ := h
  · refine ⟨type, htype, ?_⟩
    rintro rfl
    cases htarget
  · exact ⟨_, htype, nofun⟩

theorem isValue_of_argsFit {Γ : Context} {es : List Expr} {params : List Ty}
    (h : ArgsFit Γ es params) (hwritten : ∀ param ∈ params, param.IsWritten) (he : e ∈ es) :
    IsValue Γ e := by
  induction es generalizing params with
  | nil => cases he
  | cons _ _ ih =>
    cases h with
    | cons hfirst hfits hothers =>
      obtain ⟨hparam, hparams⟩ := forall_mem_cons.mp hwritten
      rcases mem_cons.mp he with rfl | he
      · exact isValue_of_exprFits ⟨_, hfirst, hfits⟩ hparam
      · exact ih hothers hparams he

theorem ne_void_of_operates {op : BinaryOp} {a b result : Ty} (h : Operates op a b result) :
    a ≠ .void ∧ b ≠ .void := by
  cases h with
  | logical | order | arithmetic => exact ⟨nofun, nofun⟩
  | equality _ hcomparable =>
    rcases hcomparable with ⟨rfl, hvoid⟩ | ⟨rfl, href⟩ | ⟨href, rfl⟩
    · exact ⟨hvoid, hvoid⟩
    · exact ⟨nofun, href.ne_void⟩
    · exact ⟨href.ne_void, nofun⟩

section

variable {Γ : Context} (hp : Γ.program.TypesWritten) (hvars : Γ.VarsWritten)
include hp hvars

/-- All parts of a value are values. -/
theorem isValue_of_partOf {whole : Expr} (hpart : PartOf e whole) (h : IsValue Γ whole) :
    IsValue Γ e := by
  induction hpart with
  | self => exact h
  | operand _ ih =>
    obtain ⟨_, hwhole, -⟩ := h
    cases hwhole with
    | not hoperand | neg hoperand => exact ih ⟨_, hoperand, nofun⟩
  | left _ ih =>
    obtain ⟨_, hwhole, -⟩ := h
    cases hwhole with
    | binary hleft _ hop => exact ih ⟨_, hleft, (ne_void_of_operates hop).1⟩
  | right _ ih =>
    obtain ⟨_, hwhole, -⟩ := h
    cases hwhole with
    | binary _ hright hop => exact ih ⟨_, hright, (ne_void_of_operates hop).2⟩
  | position _ ih =>
    obtain ⟨_, hwhole, -⟩ := h
    cases hwhole with
    | index _ hposition => exact ih ⟨_, hposition, nofun⟩
  | argument harg _ ih =>
    obtain ⟨_, hwhole, -⟩ := h
    cases hwhole with
    | call hmethod hargs =>
      exact ih (isValue_of_argsFit hargs (denotes_written hp hvars hmethod).1 harg)
  | size _ ih =>
    obtain ⟨_, hwhole, -⟩ := h
    cases hwhole with
    | newArray _ hsize => exact ih ⟨_, hsize, nofun⟩

/-- The expressions of a statement that keeps the rules are values. -/
theorem isValue_of_stmtTyped {returns : Ty} (hreturns : returns = .void ∨ returns.IsWritten)
    {s : Stmt} (hs : ∀ t ∈ s.declaredTypes, t.IsWritten) (h : StmtTyped Γ returns s)
    (he : e ∈ exprsOf s) : IsValue Γ e := by
  cases s with
  | block => cases he
  | declare =>
    cases mem_singleton.mp he
    exact isValue_of_exprFits h (hs _ mem_cons_self)
  | assign =>
    cases mem_singleton.mp he
    obtain ⟨_, hdenotes, hfits⟩ := h
    exact isValue_of_exprFits hfits (denotes_written hp hvars hdenotes)
  | assignIndex =>
    obtain ⟨element, hdenotes, hposition, hfits⟩ := h
    have harray : (Ty.array element).IsWritten := denotes_written hp hvars hdenotes
    rcases mem_pair.mp he with rfl | rfl
    · exact ⟨_, hposition, nofun⟩
    · exact isValue_of_exprFits hfits harray.element
  | call =>
    obtain ⟨_, _, hdenotes, hfit⟩ := h
    exact isValue_of_argsFit hfit (denotes_written hp hvars hdenotes).1 he
  | ret _ value =>
    cases value with
    | none => cases he
    | some =>
      cases mem_singleton.mp he
      exact isValue_of_exprFits h.2 (hreturns.resolve_left h.1)
  | ifThen | ifThenElse | loop =>
    cases mem_singleton.mp he
    exact ⟨_, h.1, nofun⟩

end

/-! ## Programs -/

section

variable {p : Program} {b : Body} {s : Scopes} {locals' : ScopeStack LocalVar}

/-- The scopes behind the first of several statements. -/
theorem Between.through (hs : Between p b s) {front rest : List Stmt}
    (h : b.naming.checkStmts s.locals (front ++ rest) = .ok locals')
    (htypes : ∀ t ∈ Stmt.declaredTypesOf (front ++ rest), t.IsWritten) :
    ∃ s', Between p b s' ∧ s'.types = (b.typing.checkStmts s.types front).1 ∧
      b.naming.checkStmts s'.locals rest = .ok locals' ∧
      (∀ t ∈ Stmt.declaredTypesOf rest, t.IsWritten) ∧
      (StmtsTyped ((b.typing.env s.types).context p) b.returns (front ++ rest) →
        StmtsTyped ((b.typing.env s'.types).context p) b.returns rest) := by
  induction front generalizing s with
  | nil => exact ⟨s, hs, rfl, h, htypes, id⟩
  | cons _ _ ih =>
    obtain ⟨_, hst, hrest⟩ := bind_eq_ok.mp h
    obtain ⟨hstTypes, hrestTypes⟩ := forall_mem_append.mp htypes
    obtain ⟨_, hnext⟩ := hs.next hst hstTypes
    obtain ⟨s', hs', hsame, hlast, hlastTypes, htyped⟩ := ih hnext hrest hrestTypes
    refine ⟨s', hs', hsame, hlast, hlastTypes, fun h => htyped ?_⟩
    rw [hs.context_next hst]
    exact h.2

/-- An expression of an accepted statement is accepted where it stands. -/
theorem Between.acceptedAt_of_mem (hs : Between p b s) {st : Stmt}
    (h : b.naming.checkStmt s.locals st = .ok locals') (he : e ∈ exprsOf st) :
    ∃ locals, AcceptedAt p b locals s.types s.frame.slots ∧
      b.naming.checkExpr locals e = .ok () := by
  cases st with
  | block => cases he
  | declare =>
    cases mem_singleton.mp he
    -- The initial value is looked at with the variable declared but not ready.
    obtain ⟨⟨⟩, -, during, hduring, h⟩ := bind₂_eq_ok.mp h
    exact ⟨during, hs.during hduring, (check_bind_eq_ok.mp h).1⟩
  | assign =>
    cases mem_singleton.mp he
    obtain ⟨-, h⟩ := check_bind_eq_ok.mp h
    exact ⟨_, hs.acceptedAt, (check_bind_eq_ok.mp h).1⟩
  | assignIndex =>
    obtain ⟨⟨⟩, -, ⟨⟩, hposition, ⟨⟩, hvalue, -⟩ := bind₃_eq_ok.mp h
    rcases mem_pair.mp he with rfl | rfl
    · exact ⟨_, hs.acceptedAt, hposition⟩
    · exact ⟨_, hs.acceptedAt, hvalue⟩
  | call =>
    obtain ⟨-, h⟩ := check_bind_eq_ok.mp h
    exact ⟨_, hs.acceptedAt, checkExpr_of_mem (check_bind_eq_ok.mp h).1 he⟩
  | ret _ value =>
    cases value with
    | none => cases he
    | some =>
      cases mem_singleton.mp he
      exact ⟨_, hs.acceptedAt, (check_bind_eq_ok.mp h).1⟩
  | ifThen | ifThenElse | loop =>
    cases mem_singleton.mp he
    exact ⟨_, hs.acceptedAt, (check_bind_eq_ok.mp h).1⟩

/-- Every expression that is given a type has been accepted by identification, and it is a value if
the statement in which it stands keeps the rules. -/
theorem acceptedAt_of_visits (hs : Between p b s) {st : Stmt}
    (h : b.naming.checkStmt s.locals st = .ok locals') (hst : ∀ t ∈ st.declaredTypes, t.IsWritten)
    {types : ScopeStack Ty} (hvisits : b.typing.Visits s.types st types e) :
    ∃ locals slots, AcceptedAt p b locals types slots ∧ b.naming.checkExpr locals e = .ok () ∧
      (StmtTyped ((b.typing.env s.types).context p) b.returns st →
        IsValue ((b.typing.env types).context p) e) := by
  generalize hscopes : s.types = start at hvisits
  induction hvisits generalizing s locals' with
  | own hwhole hpart =>
    subst hscopes
    obtain ⟨locals, hat, hcheck⟩ := hs.acceptedAt_of_mem h hwhole
    refine ⟨locals, _, hat, checkExpr_of_partOf hpart hcheck, fun htyped => ?_⟩
    exact isValue_of_partOf hs.program hs.vars hpart
      (isValue_of_stmtTyped hs.program hs.vars hs.returns hst htyped hwhole)
  | block _ ih =>
    subst hscopes
    obtain ⟨_, hinner, -⟩ := bind_eq_ok.mp h
    obtain ⟨_, hs', hsame, hrest, hrestTypes, htyped⟩ := hs.push.through hinner hst
    obtain ⟨_, hcheck, -⟩ := bind_eq_ok.mp hrest
    obtain ⟨locals, slots, hat, hexpr, hvalue⟩ :=
      ih hs' hcheck (forall_mem_append.mp hrestTypes).1 hsame
    refine ⟨locals, slots, hat, hexpr, fun h => hvalue ?_⟩
    have hst := (htyped h).1
    rw [hsame] at hst
    exact hst
  | ifThen hvisits ih | loop hvisits ih =>
    subst hscopes
    obtain ⟨-, h⟩ := check_bind_eq_ok.mp h
    obtain ⟨locals, slots, hat, hexpr, hvalue⟩ := ih hs (check_bind_eq_ok.mp h).2 hst rfl
    exact ⟨locals, slots, hat, hexpr, fun h => hvalue h.2⟩
  | thenBranch _ ih =>
    subst hscopes
    obtain ⟨⟨⟩, -, ⟨⟩, -, _, hthen, -⟩ := bind₃_eq_ok.mp h
    obtain ⟨locals, slots, hat, hexpr, hvalue⟩ := ih hs hthen (forall_mem_append.mp hst).1 rfl
    exact ⟨locals, slots, hat, hexpr, fun h => hvalue h.2.1⟩
  | elseBranch _ ih =>
    -- The other branch declares nothing, so the types are those of the statement.
    subst hscopes
    obtain ⟨⟨⟩, -, ⟨⟩, hbranch, _, hthen, h⟩ := bind₃_eq_ok.mp h
    obtain ⟨-, helse⟩ := check_bind_eq_ok.mp h
    obtain ⟨hstThen, hstElse⟩ := forall_mem_append.mp hst
    have hsame := types_checkStmt_of_none s.types _ hthen (Scoping.checkBranch_iff.mp hbranch)
    obtain ⟨_, hnext⟩ := hs.next hthen hstThen
    obtain ⟨locals, slots, hat, hexpr, hvalue⟩ := ih hnext helse hstElse rfl
    refine ⟨locals, slots, hat, hexpr, fun h => hvalue ?_⟩
    rw [hsame]
    exact h.2.2

end

section

variable {p : Program} {table : ClassTable} (h : identify p = .ok table) (hp : p.TypesWritten)
  {c : ClassDecl} (hc : c ∈ p.classes) {m : MethodDecl} (hm : m ∈ c.methods)
include h hp hc hm

/-- A method has been accepted from its parameters on. -/
theorem exists_between :
    ∃ locals locals', Between p (Body.ofMethod table p c.name.value m)
        (Scopes.ofParams locals m.params) ∧
      (Body.ofMethod table p c.name.value m).naming.checkStmts locals m.body = .ok locals' ∧
      (paramScope m.params).bindings = Scoping.paramVars m.params := by
  have htable := isTableOf_of_identify h
  obtain ⟨locals, locals', hparams, haligned, hbody⟩ := checkStmts_of_identify h hc hm
  -- Identification keeps the types of the parameters, and from them the scope is rebuilt.
  have hscope : paramScope m.params = ⟨[Scoping.paramVars m.params ++ []]⟩ := by
    rw [Scoping.push_empty] at hparams
    obtain ⟨-, -, -, hlocals⟩ := (Scoping.declareParams_iff htable).mp hparams
    have hinverse : Function.LeftInverse LocalVar.type Scopes.readyVar := fun _ => rfl
    rw [← ScopeStack.map_map_of_leftInverse hinverse (paramScope m.params)]
    exact (congrArg (ScopeStack.map LocalVar.type) (haligned.locals.symm.trans hlocals)).trans
      (ScopeStack.map_map_of_leftInverse hinverse _)
  have hbindings : (paramScope m.params).bindings = Scoping.paramVars m.params := by
    rw [hscope, ScopeStack.bindings, flatten_singleton, append_nil]
  refine ⟨locals, locals', ⟨⟨htable, staticsPlaced_ofMethod htable c.name.value m, hp,
    hp.returns c hc m hm⟩, haligned, ?_⟩, hbody, hbindings⟩
  intro binding hbinding
  replace hbinding : binding ∈ (paramScope m.params).bindings := hbinding
  rw [hbindings] at hbinding
  obtain ⟨q, hq, rfl⟩ := mem_map.mp hbinding
  exact hp.params c hc m hm q (mem_reverse.mp hq)

/-- The expressions that are given a type when a method is checked. -/
theorem acceptedAt_of_methodVisits {types : ScopeStack Ty}
    (hvisits : MethodVisits table c.name.value m types e) :
    ∃ locals slots,
      AcceptedAt p (Body.ofMethod table p c.name.value m) locals types slots ∧
      (Body.ofMethod table p c.name.value m).naming.checkExpr locals e = .ok () ∧
      (MethodTyped p c.name.value m → IsValue ⟨p, c.name.value, types.bindings⟩ e) := by
  obtain ⟨front, st, _, hsplit, hvisits⟩ := hvisits
  obtain ⟨locals, _, hbetween, hbody, hbindings⟩ := exists_between h hp hc hm
  have hlocals := hp.locals c hc m hm
  rw [hsplit] at hbody hlocals
  obtain ⟨s, hs, hsame, hrest, hrestTypes, htyped⟩ := hbetween.through hbody hlocals
  obtain ⟨_, hst, -⟩ := bind_eq_ok.mp hrest
  have hstart : s.types = ((Body.ofMethod table p c.name.value m).typing.checkStmts
      (paramScope m.params) front).1 := hsame
  replace hvisits : (Body.ofMethod table p c.name.value m).typing.Visits s.types st types e :=
    hstart ▸ hvisits
  obtain ⟨locals, slots, hat, hexpr, hvalue⟩ :=
    acceptedAt_of_visits hs hst (forall_mem_append.mp hrestTypes).1 hvisits
  refine ⟨locals, slots, hat, hexpr, fun hmethod => hvalue (htyped ?_).1⟩
  have hstmts := hmethod.body
  rw [hsplit] at hstmts
  rw [show ((Body.ofMethod table p c.name.value m).typing.env
    (Scopes.ofParams _ m.params).types).context p =
    ⟨p, c.name.value, Scoping.paramVars m.params⟩ from
    congrArg (Context.mk p c.name.value) hbindings]
  exact hstmts

/-- A method is without faults if it keeps the rules. -/
theorem methodFaults_iff :
    checkMethod table c.name.value m = [] ↔ MethodTyped p c.name.value m := by
  obtain ⟨locals, _, hbetween, hbody, hbindings⟩ := exists_between h hp hc hm
  have hstmts := stmtsFaults_iff hbetween m.body hbody (hp.locals c hc m hm)
  have hcontext : ((Body.ofMethod table p c.name.value m).typing.env
      (Scopes.ofParams locals m.params).types).context p =
        ⟨p, c.name.value, Scoping.paramVars m.params⟩ :=
    congrArg (Context.mk p c.name.value) hbindings
  rw [hcontext] at hstmts
  rw [checkMethod, append_eq_nil_iff, faultUnless_eq_nil_iff, Bool.or_eq_true,
    decide_eq_true_eq, anyReturn_iff]
  constructor
  · rintro ⟨hnil, hreturns⟩
    exact ⟨hstmts.mp hnil, fun hne => hreturns.resolve_left hne⟩
  · rintro ⟨htyped, hreturns⟩
    exact ⟨hstmts.mpr htyped, or_iff_not_imp_left.mpr hreturns⟩

end

end Typing

open Typing

/-- A program that passes identification, and whose types are those that can be written as in every
program that has been read, is without type faults if and only if it is well-typed. An expression
has the erroneous type only if a fault is found in it, and if none is found, then it has the
inferred type and no other. Where a program is without faults, no expression has the type `void`. -/
theorem typeCheck_iff_wellTyped {p : Program} {table : ClassTable} (h : identify p = .ok table) :
    (∀ source, parse source = .ok p → p.TypesWritten) ∧
    (p.TypesWritten →
      (typeCheck table p = [] ↔ p.WellTyped) ∧
      ∀ c ∈ p.classes, ∀ m ∈ c.methods, ∀ locals e, MethodVisits table c.name.value m locals e →
        let inferred := (Env.mk table c.name.value locals).infer e
        (inferred.type = .error → inferred.faults ≠ []) ∧
        (inferred.faults = [] →
          ∀ type, HasType ⟨p, c.name.value, locals.bindings⟩ e type ↔ inferred.type = type) ∧
        (typeCheck table p = [] → inferred.faults = [] ∧ inferred.type ≠ .void)) := by
  refine ⟨fun source hparse => typesWritten_of_parse hparse, fun hp => ?_⟩
  have hprogram : typeCheck table p = [] ↔ p.WellTyped := by
    simp only [typeCheck, flatMap_eq_nil_iff]
    exact forall₂_congr fun c hc => forall₂_congr fun m hm => methodFaults_iff h hp hc hm
  refine ⟨hprogram, ?_⟩
  intro c hc m hm types e hvisits
  obtain ⟨_, _, hat, hexpr, hvalue⟩ := acceptedAt_of_methodVisits h hp hc hm hvisits
  have htype : ∀ {type}, (Env.mk table c.name.value types).infer e = ⟨type, []⟩ ↔
      HasType ⟨p, c.name.value, types.bindings⟩ e type := infer_eq_iff hat hexpr
  have hfound : ((Env.mk table c.name.value types).infer e).faults = [] →
      HasType ⟨p, c.name.value, types.bindings⟩ e
        ((Env.mk table c.name.value types).infer e).type :=
    fun hnil => htype.mp (congrArg (Typed.mk _) hnil)
  refine ⟨?_, ?_, ?_⟩
  · -- What is of some type is of none that stands for a fault.
    intro herror hnil
    have hproper := hat.isProper (hfound hnil)
    rw [herror] at hproper
    rcases hproper with hwritten | hnull | hvoid
    · cases hwritten
    · cases hnull
    · cases hvoid
  · intro hnil type
    constructor
    · intro h
      exact congrArg Typed.type (htype.mpr h)
    · rintro rfl
      exact hfound hnil
  · intro hnil
    obtain ⟨_, hhas, hne⟩ := hvalue (hprogram.mp hnil c hc m hm)
    rw [htype.mpr hhas]
    exact ⟨rfl, hne⟩

/-- A recursive method over an array, with `null` in a comparison and as an argument. -/
def recursiveSource : String :=
  "class A\x7bA n;int f(int[]a)\x7bif(n==null)return a[0];return n.f(new int[2])+n.f(null);\x7d\x7d"

/-- A variable is initialized with the result of a method that has none. -/
def voidSource : String := "class A\x7bvoid g()\x7b\x7dint f()\x7bint x=g();return x;\x7d\x7d"

set_option maxRecDepth 4000 in
theorem typeCheck_recursiveSource :
    ∃ p table, parse recursiveSource = .ok p ∧ identify p = .ok table ∧ typeCheck table p = [] := by
  rw [parse, TokenStream.ofSource, lex_eq_tokensWithin]
  exact ⟨_, _, rfl, rfl, rfl⟩

set_option maxRecDepth 4000 in
theorem typeCheck_voidSource :
    ∃ p table fault, parse voidSource = .ok p ∧ identify p = .ok table ∧
      typeCheck table p = [fault] := by
  rw [parse, TokenStream.ofSource, lex_eq_tokensWithin]
  exact ⟨_, _, _, rfl, rfl, rfl⟩

theorem typeCheck_iff_wellTyped_sources :
    (∃ p, parse recursiveSource = .ok p ∧ p.WellTyped) ∧
      ∃ p, parse voidSource = .ok p ∧ ¬ p.WellTyped := by
  constructor
  · obtain ⟨p, _, hparse, hidentify, hnil⟩ := typeCheck_recursiveSource
    obtain ⟨hwritten, hchecked⟩ := typeCheck_iff_wellTyped hidentify
    exact ⟨p, hparse, (hchecked (hwritten _ hparse)).1.mp hnil⟩
  · obtain ⟨p, _, _, hparse, hidentify, hfault⟩ := typeCheck_voidSource
    obtain ⟨hwritten, hchecked⟩ := typeCheck_iff_wellTyped hidentify
    refine ⟨p, hparse, ?_⟩
    intro htyped
    cases hfault.symm.trans ((hchecked (hwritten _ hparse)).1.mpr htyped)

end MiniJava
