import MiniJava.Proofs.Typing.Inference

/-!
# Calls as typing sees them

The calls of a body, each with the scopes in which typing has looked for the method, in the order in
which they are carried out: a call comes behind the calls inside of its arguments.
-/

namespace MiniJava

open List

/-- A call, with the types of the variables in scope where it stands. -/
structure Typing.Call where
  types : ScopeStack Ty
  method : Ref
  args : List Expr

mutual

/-- The calls of an expression. -/
def Expr.calls (types : ScopeStack Ty) : Expr → List Typing.Call
  | .literal _ _ | .ref _ | .newObject _ _ => []
  | .unary _ _ operand => operand.calls types
  | .binary _ _ left right => left.calls types ++ right.calls types
  | .index _ _ position => position.calls types
  | .call _ method args => Expr.allCalls types args ++ [⟨types, method, args⟩]
  | .newArray _ _ size => size.calls types

/-- The calls of expressions in turn. -/
def Expr.allCalls (types : ScopeStack Ty) : List Expr → List Typing.Call
  | [] => []
  | e :: es => e.calls types ++ Expr.allCalls types es

end

namespace Typing

namespace Site

mutual

/-- The calls of a statement. -/
def calls (site : Site) (types : ScopeStack Ty) : Stmt → List Call
  | .block _ body => site.allCalls types.push body
  | .declare _ _ _ init => init.calls types
  | .assign _ _ value => value.calls types
  | .assignIndex _ _ position value => position.calls types ++ value.calls types
  | .call _ method args => Expr.allCalls types args ++ [⟨types, method, args⟩]
  | .ret _ none => []
  | .ret _ (some value) => value.calls types
  | .ifThen _ test thenBranch => test.calls types ++ site.calls types thenBranch
  | .ifThenElse _ test thenBranch elseBranch =>
    test.calls types ++ site.calls types thenBranch ++
      site.calls (site.checkStmt types thenBranch).1 elseBranch
  | .loop _ test body => test.calls types ++ site.calls types body

/-- The calls of statements in turn. -/
def allCalls (site : Site) (types : ScopeStack Ty) : List Stmt → List Call
  | [] => []
  | s :: ss => site.calls types s ++ site.allCalls (site.checkStmt types s).1 ss

end

end Site

/-- The calls of a method. -/
def callsOf (table : ClassTable) (className : String) (m : MethodDecl) : List Call :=
  Site.allCalls ⟨table, className, m.returns.value⟩ (paramScope m.params) m.body

/-- A call has as many arguments as the method has parameters. -/
def Site.Counted (site : Site) (c : Call) : Prop :=
  ∀ entry, (site.env c.types).entity? c.method = some (.method entry) →
    entry.params.length = c.args.length

variable {site : Site} {types : ScopeStack Ty}

theorem length_inferArgs (env : Env) (es : List Expr) :
    (env.inferArgs es).1.length = es.length := by
  induction es with
  | nil => rfl
  | cons _ _ ih => exact congrArg Nat.succ ih

/-- A call without a fault has no fault in its arguments either. -/
theorem counted_of_callType {method : Ref} {args : List Expr}
    (h : ((site.env types).callType method ((site.env types).inferArgs args).1
      ((site.env types).inferArgs args).2).faults = []) :
    ((site.env types).inferArgs args).2 = [] ∧ site.Counted ⟨types, method, args⟩ := by
  rw [Env.callType] at h
  split at h
  next entry hentry =>
    split at h
    next hcount =>
      refine ⟨(append_eq_nil_iff.mp h).1, ?_⟩
      intro _ hother
      cases hentry.symm.trans hother
      rw [hcount, length_inferArgs]
    next =>
      -- A wrong count is a fault.
      obtain ⟨-, hnil⟩ := append_eq_nil_iff.mp h
      cases hnil
  next hnone => exact ⟨h, fun entry hentry => absurd hentry (hnone entry)⟩

theorem faults_of_elementType {env : Env} {target : Ref} {span : Span} {position : Typed}
    (h : (env.elementType target span position).faults = []) : position.faults = [] := by
  unfold Env.elementType at h
  split at h
  next => exact (append_eq_nil_iff.mp h).1
  next => exact (append_eq_nil_iff.mp h).1
  next => exact (append_eq_nil_iff.mp (append_eq_nil_iff.mp h).1).1

mutual

/-- Without faults, every call has as many arguments as the method takes. -/
theorem counted_of_infer (e : Expr) (h : ((site.env types).infer e).faults = []) :
    ∀ c ∈ e.calls types, site.Counted c := by
  cases e with
  | literal | ref | newObject => exact nofun
  | unary _ _ operand =>
    refine counted_of_infer operand ?_
    rw [Env.infer] at h
    split at h
    next => exact h
    next => exact (append_eq_nil_iff.mp h).1
  | binary _ _ left right =>
    have hboth : ((site.env types).infer left).faults ++
        ((site.env types).infer right).faults = [] := by
      rw [Env.infer] at h
      split at h
      next => exact h
      next => exact (append_eq_nil_iff.mp h).1
    obtain ⟨hleft, hright⟩ := append_eq_nil_iff.mp hboth
    exact forall_mem_append.mpr ⟨counted_of_infer left hleft, counted_of_infer right hright⟩
  | index _ _ position =>
    rw [Env.infer] at h
    exact counted_of_infer position (faults_of_elementType h)
  | call _ _ args =>
    rw [Env.infer] at h
    obtain ⟨hargs, hcall⟩ := counted_of_callType h
    exact forall_mem_append.mpr ⟨counted_of_inferArgs args hargs, forall_mem_singleton.mpr hcall⟩
  | newArray _ _ size =>
    refine counted_of_infer size ?_
    rw [Env.infer] at h
    split at h
    next => exact (append_eq_nil_iff.mp h).1
    next => exact (append_eq_nil_iff.mp h).1
    next => exact (append_eq_nil_iff.mp (append_eq_nil_iff.mp h).1).1

theorem counted_of_inferArgs (es : List Expr) (h : ((site.env types).inferArgs es).2 = []) :
    ∀ c ∈ Expr.allCalls types es, site.Counted c := by
  cases es with
  | nil => exact nofun
  | cons e es =>
    obtain ⟨hfirst, hothers⟩ := append_eq_nil_iff.mp h
    exact forall_mem_append.mpr ⟨counted_of_infer e hfirst, counted_of_inferArgs es hothers⟩

end

theorem counted_of_conditionFaults {statement : Conditional} {test : Expr}
    (h : site.conditionFaults types statement test = []) : ∀ c ∈ test.calls types, site.Counted c :=
  counted_of_infer test (append_eq_nil_iff.mp h).1

mutual

theorem counted_of_checkStmt (s : Stmt) {types : ScopeStack Ty}
    (h : (site.checkStmt types s).2 = []) : ∀ c ∈ site.calls types s, site.Counted c := by
  cases s with
  | block _ body => exact counted_of_checkStmts body h
  | declare _ _ _ init => exact counted_of_infer init (append_eq_nil_iff.mp h).1
  | assign _ _ value => exact counted_of_infer value (append_eq_nil_iff.mp h).1
  | assignIndex _ _ position value =>
    obtain ⟨hboth, -⟩ := append_eq_nil_iff.mp h
    obtain ⟨hposition, hvalue⟩ := append_eq_nil_iff.mp hboth
    exact forall_mem_append.mpr
      ⟨counted_of_infer position (faults_of_elementType hposition), counted_of_infer value hvalue⟩
  | call _ _ args =>
    obtain ⟨hargs, hcall⟩ := counted_of_callType h
    exact forall_mem_append.mpr ⟨counted_of_inferArgs args hargs, forall_mem_singleton.mpr hcall⟩
  | ret _ value =>
    cases value with
    | none => exact nofun
    | some value =>
      refine counted_of_infer value ?_
      change (if site.returns = .void then _ ++ [_] else _ ++ faultUnless _ _ _) = [] at h
      split at h
      next => exact (append_eq_nil_iff.mp h).1
      next => exact (append_eq_nil_iff.mp h).1
  | ifThen _ _ thenBranch =>
    obtain ⟨htest, hthen⟩ := append_eq_nil_iff.mp h
    exact forall_mem_append.mpr
      ⟨counted_of_conditionFaults htest, counted_of_checkStmt thenBranch hthen⟩
  | ifThenElse _ _ thenBranch elseBranch =>
    obtain ⟨hfront, helse⟩ := append_eq_nil_iff.mp h
    obtain ⟨htest, hthen⟩ := append_eq_nil_iff.mp hfront
    exact forall_mem_append.mpr ⟨forall_mem_append.mpr
      ⟨counted_of_conditionFaults htest, counted_of_checkStmt thenBranch hthen⟩,
      counted_of_checkStmt elseBranch helse⟩
  | loop _ _ body =>
    obtain ⟨htest, hbody⟩ := append_eq_nil_iff.mp h
    exact forall_mem_append.mpr ⟨counted_of_conditionFaults htest, counted_of_checkStmt body hbody⟩

/-- Where no fault is found, every call has as many arguments as the method has parameters that
typing has found for it. -/
theorem counted_of_checkStmts (ss : List Stmt) {types : ScopeStack Ty}
    (h : (site.checkStmts types ss).2 = []) : ∀ c ∈ site.allCalls types ss, site.Counted c := by
  cases ss with
  | nil => exact nofun
  | cons s ss =>
    obtain ⟨hfirst, hothers⟩ := append_eq_nil_iff.mp h
    exact forall_mem_append.mpr ⟨counted_of_checkStmt s hfirst, counted_of_checkStmts ss hothers⟩

end

/-- In a program without type faults every call has the number of arguments that its method asks
for. -/
theorem counted_of_typeCheck {p : Program} {table : ClassTable} (h : typeCheck table p = [])
    {c : ClassDecl} (hc : c ∈ p.classes) {m : MethodDecl} (hm : m ∈ c.methods) :
    ∀ call ∈ callsOf table c.name.value m,
      Site.Counted ⟨table, c.name.value, m.returns.value⟩ call := by
  have hmethods := flatMap_eq_nil_iff.mp h c hc
  have hmethod := flatMap_eq_nil_iff.mp hmethods m hm
  exact counted_of_checkStmts m.body (append_eq_nil_iff.mp hmethod).1

end Typing

end MiniJava
