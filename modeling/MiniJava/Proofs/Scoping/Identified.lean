import MiniJava.Identification.Body
import MiniJava.Proofs.Scoping.References
import MiniJava.Proofs.Token.Tokens

/-!
# Identification and the rules of scoping

Identification goes through a program with a table of classes and a stack of scopes, and ends at the
first fault. It accepts what the rules of scoping allow, and nothing else
(`identify_iff_wellScoped`).

Between two statements the stack holds variables that are all ready, so it is given by the variables
of the scopes (`scopesOf`), and a statement that passes adds to the innermost scope what it declares
(`checkStmt_iff`).
-/

namespace MiniJava

open Identification List

namespace Scoping

/-! ## The stack of scopes -/

/-- The stack that holds the variables of the innermost scope and of those around it. -/
def scopesOf (inner : Vars) (outer : List Vars) : ScopeStack LocalVar :=
  (⟨inner :: outer⟩ : ScopeStack Ty).map (⟨·, true⟩)

theorem push_empty : (ScopeStack.empty.push : ScopeStack LocalVar) = scopesOf [] [] := rfl

variable {inner : Vars} {outer : List Vars}

theorem agrees_scopesOf (inner : Vars) (outer : List Vars) :
    Agrees (scopesOf inner outer) [] (inner ++ outer.flatten) := by
  intro _
  rw [if_neg not_mem_nil, scopesOf, ScopeStack.lookup_map, ← ScopeStack.lookup_bindings]
  rfl

theorem lookup_isSome_iff {scope : Vars} {name : String} :
    (scope.lookup name).isSome = true ↔ name ∈ scope.map (·.1) := by
  rw [← not_iff_not, Bool.not_eq_true, Option.isSome_eq_false_iff, Option.isNone_iff_eq_none,
    lookup_eq_none_iff, mem_map]
  simp only [bne_iff_ne, ne_eq, not_exists, not_and]
  exact ⟨fun h p hp heq => h p hp heq.symm, fun h p hp heq => h p hp heq.symm⟩

theorem define?_scopesOf (inner : Vars) (outer : List Vars) (name : String) (v : LocalVar) :
    (scopesOf inner outer).define? name v = if name ∈ inner.map (·.1) then none else some
      ⟨((name, v) :: ScopeStack.mapScope (⟨·, true⟩) inner) ::
        outer.map (ScopeStack.mapScope (⟨·, true⟩))⟩ := by
  show (if (List.lookup _ _).isSome = true then _ else _) = _
  rw [ScopeStack.lookup_mapScope, Option.isSome_map]
  simp only [lookup_isSome_iff]

variable {locals : ScopeStack LocalVar} {name : Ident}

/-- A variable that is ready is declared if the innermost scope does not have its name yet. -/
theorem declare_iff {type : Ty} :
    declare (scopesOf inner outer) name ⟨type, true⟩ = .ok locals ↔
      name.value ∉ inner.map (·.1) ∧ locals = scopesOf ((name.value, type) :: inner) outer := by
  rw [declare, define?_scopesOf]
  by_cases hname : name.value ∈ inner.map (·.1)
  · rw [if_pos hname]
    simp [hname]
  · rw [if_neg hname]
    simp only [hname, not_false_eq_true, true_and, Except.ok.injEq]
    exact eq_comm

/-- A variable with an initializer is declared, barred while its initializer is looked at, and then
ready. -/
theorem declare_barred (outer : List Vars) (hname : name.value ∉ inner.map (·.1)) (type : Ty) :
    ∃ during, declare (scopesOf inner outer) name ⟨type, false⟩ = .ok during ∧
      Agrees during [name.value] (inner ++ outer.flatten) ∧
      during.set name.value ⟨type, true⟩ = scopesOf ((name.value, type) :: inner) outer := by
  have hbarred := define?_scopesOf inner outer name.value ⟨type, false⟩
  rw [if_neg hname] at hbarred
  refine ⟨_, by rw [declare, hbarred], ?_, ?_⟩
  · intro other
    rw [ScopeStack.lookup_define? hbarred]
    by_cases hother : other = name.value
    · rw [if_pos (mem_singleton.mpr hother), if_pos hother]
      exact ⟨type, rfl⟩
    · rw [if_neg (mt mem_singleton.mp hother), if_neg hother]
      have hagree := agrees_scopesOf inner outer other
      rw [if_neg not_mem_nil] at hagree
      exact hagree
  · have hready := ScopeStack.define?_set hbarred ⟨type, true⟩
    rw [define?_scopesOf, if_neg hname] at hready
    exact (Option.some.inj hready).symm

theorem declare_ne_ok_of_mem (hname : name.value ∈ inner.map (·.1)) {v : LocalVar} :
    declare (scopesOf inner outer) name v ≠ .ok locals := by
  rw [declare, define?_scopesOf, if_pos hname]
  simp

/-! ## Statements -/

theorem checkBranch_iff {s : Stmt} : checkBranch s = .ok () ↔ s.binding? = none := by
  cases s <;> simp [checkBranch, Stmt.binding?]

variable {home : Home} {table : ClassTable}

/-- A statement that passes leaves the scopes with the variable that it declares. -/
def PassesStmt (home : Home) (inner : Vars) (outer : List Vars) (s : Stmt)
    (locals : ScopeStack LocalVar) : Prop :=
  home.StmtScoped (inner ++ outer.flatten) s ∧
    (∀ b ∈ s.binding?, b.1 ∉ inner.map (·.1)) ∧ locals = scopesOf (s.binding?.toList ++ inner) outer

theorem passesStmt_of_binding?_eq_none {s : Stmt} (hs : s.binding? = none) :
    PassesStmt home inner outer s locals ↔
      home.StmtScoped (inner ++ outer.flatten) s ∧ locals = scopesOf inner outer := by
  simp [PassesStmt, hs]

mutual

/-- A statement passes if its names are used as they may be. -/
theorem checkStmt_iff (ht : table.IsTableOf home.program) (howned : home.program.MembersOwned)
    {inner : Vars} {outer : List Vars} (s : Stmt) {locals : ScopeStack LocalVar} :
    (home.site table).checkStmt (scopesOf inner outer) s = .ok locals ↔
      PassesStmt home inner outer s locals := by
  have hexpr := fun e => (checkExpr_iff ht howned (agrees_scopesOf inner outer) e).trans
    (and_iff_left (disjoint_nil_right e.roots))
  have hexprs := fun es => (checkExprs_iff ht howned (agrees_scopesOf inner outer) es).trans
    (and_iff_left (disjoint_nil_right (Expr.rootsOf es)))
  have hvalue := fun r => (checkValue_iff ht howned (agrees_scopesOf inner outer) (r := r)).trans
    (and_iff_left (disjoint_nil_right r.root?.toList))
  have htarget := fun r => (checkTarget_iff ht howned (agrees_scopesOf inner outer) (r := r)).trans
    (and_iff_left (disjoint_nil_right r.root?.toList))
  have hcallee := fun r => (checkCallee_iff ht howned (agrees_scopesOf inner outer) (r := r)).trans
    (and_iff_left (disjoint_nil_right r.root?.toList))
  cases s with
  | block _ body =>
    rw [passesStmt_of_binding?_eq_none rfl, Site.checkStmt, bind_eq_ok, Home.StmtScoped]
    show (∃ a, (home.site table).checkStmts (scopesOf [] (inner :: outer)) body = .ok a ∧ _) ↔ _
    simp only [checkStmts_iff ht howned body]
    constructor
    · rintro ⟨_, ⟨hscoped, hnodup, -, rfl⟩, ⟨⟩⟩
      exact ⟨⟨hnodup, hscoped⟩, rfl⟩
    · rintro ⟨⟨hnodup, hscoped⟩, rfl⟩
      exact ⟨_, ⟨hscoped, hnodup, disjoint_nil_right _, rfl⟩, rfl⟩
  | declare _ type name =>
    rw [Site.checkStmt, check_bind_eq_ok, bind_eq_ok, PassesStmt, Home.StmtScoped]
    show checkType table type = .ok () ∧ _ ↔ _
    rw [checkType_iff ht]
    -- The variable is there, but barred, while its initial value is looked at.
    by_cases hname : name.value ∈ inner.map (·.1)
    · constructor
      · rintro ⟨-, _, hdeclare, -⟩
        exact absurd hdeclare (declare_ne_ok_of_mem hname)
      · rintro ⟨-, hfresh, -⟩
        exact absurd hname (hfresh _ rfl)
    · obtain ⟨_, hdeclare, hagree, hset⟩ := declare_barred outer hname type.value
      simp only [hdeclare, Except.ok.injEq, exists_eq_left', check_bind_eq_ok,
        checkExpr_iff ht howned hagree, disjoint_singleton]
      constructor
      · rintro ⟨htype, ⟨hscoped, hroot⟩, ⟨⟩⟩
        exact ⟨⟨htype, hroot, hscoped⟩, fun b hb => Option.some.inj hb ▸ hname, hset⟩
      · rintro ⟨⟨htype, hroot, hscoped⟩, -, rfl⟩
        exact ⟨htype, ⟨hscoped, hroot⟩, congrArg Except.ok hset⟩
  | assign =>
    rw [passesStmt_of_binding?_eq_none rfl, Site.checkStmt, check_bind_eq_ok,
      check_bind_eq_ok, htarget, hexpr, Home.StmtScoped, pure_eq_ok]
    tauto
  | assignIndex =>
    rw [passesStmt_of_binding?_eq_none rfl, Site.checkStmt, check_bind_eq_ok,
      check_bind_eq_ok, check_bind_eq_ok, hvalue, hexpr, hexpr, Home.StmtScoped,
      pure_eq_ok]
    tauto
  | call =>
    rw [passesStmt_of_binding?_eq_none rfl, Site.checkStmt, check_bind_eq_ok,
      check_bind_eq_ok, hcallee, hexprs, Home.StmtScoped, pure_eq_ok]
    tauto
  | ret _ value =>
    cases value with
    | none =>
      rw [passesStmt_of_binding?_eq_none rfl, Site.checkStmt, Home.StmtScoped, pure_eq_ok, true_and]
    | some =>
      rw [passesStmt_of_binding?_eq_none rfl, Site.checkStmt, check_bind_eq_ok, hexpr,
        Home.StmtScoped, pure_eq_ok]
  | ifThen _ _ thenBranch =>
    rw [passesStmt_of_binding?_eq_none rfl, Site.checkStmt, check_bind_eq_ok,
      check_bind_eq_ok, hexpr, checkBranch_iff, checkStmt_iff ht howned thenBranch,
      Home.StmtScoped, and_assoc, and_assoc]
    exact and_congr_right' (and_congr_right fun h => passesStmt_of_binding?_eq_none h)
  | ifThenElse _ _ thenBranch elseBranch =>
    rw [passesStmt_of_binding?_eq_none rfl, Site.checkStmt, check_bind_eq_ok,
      check_bind_eq_ok, hexpr, checkBranch_iff, bind_eq_ok, Home.StmtScoped]
    simp only [check_bind_eq_ok, checkBranch_iff, checkStmt_iff ht howned thenBranch]
    -- A branch that declares nothing hands on the scopes it has been given.
    constructor
    · rintro ⟨htest, hthen, _, hpasses, helse, hrest⟩
      obtain ⟨hthenScoped, rfl⟩ := (passesStmt_of_binding?_eq_none hthen).mp hpasses
      obtain ⟨helseScoped, rfl⟩ := (passesStmt_of_binding?_eq_none helse).mp
        ((checkStmt_iff ht howned elseBranch).mp hrest)
      exact ⟨⟨htest, ⟨hthen, hthenScoped⟩, helse, helseScoped⟩, rfl⟩
    · rintro ⟨⟨htest, ⟨hthen, hthenScoped⟩, helse, helseScoped⟩, rfl⟩
      exact ⟨htest, hthen, _, (passesStmt_of_binding?_eq_none hthen).mpr ⟨hthenScoped, rfl⟩, helse,
        (checkStmt_iff ht howned elseBranch).mpr
          ((passesStmt_of_binding?_eq_none helse).mpr ⟨helseScoped, rfl⟩)⟩
  | loop _ _ body =>
    rw [passesStmt_of_binding?_eq_none rfl, Site.checkStmt, check_bind_eq_ok,
      check_bind_eq_ok, hexpr, checkBranch_iff, checkStmt_iff ht howned body,
      Home.StmtScoped, and_assoc, and_assoc]
    exact and_congr_right' (and_congr_right fun h => passesStmt_of_binding?_eq_none h)

/-- Statements pass if their names are used as they may be and they declare different names. -/
theorem checkStmts_iff (ht : table.IsTableOf home.program) (howned : home.program.MembersOwned)
    {inner : Vars} {outer : List Vars} (ss : List Stmt) {locals : ScopeStack LocalVar} :
    (home.site table).checkStmts (scopesOf inner outer) ss = .ok locals ↔
      home.StmtsScoped (inner ++ outer.flatten) ss ∧ (Stmt.boundNames ss).Nodup ∧
        (Stmt.boundNames ss).Disjoint (inner.map (·.1)) ∧
        locals = scopesOf ((ss.filterMap Stmt.binding?).reverse ++ inner) outer := by
  cases ss with
  | nil =>
    rw [Site.checkStmts, Home.StmtsScoped]
    simp only [Stmt.boundNames, filterMap_nil, nodup_nil, disjoint_nil_left,
      true_and, Except.ok.injEq]
    exact eq_comm
  | cons s ss =>
    rw [Site.checkStmts, bind_eq_ok, Home.StmtsScoped]
    simp only [checkStmt_iff ht howned s, PassesStmt]
    cases hs : s.binding? with
    | none =>
      simp only [Stmt.boundNames, filterMap_cons, hs]
      constructor
      · rintro ⟨_, ⟨hscoped, -, rfl⟩, hrest⟩
        obtain ⟨hss, hnodup, hdisjoint, rfl⟩ := (checkStmts_iff ht howned ss).mp hrest
        exact ⟨⟨hscoped, hss⟩, hnodup, hdisjoint, rfl⟩
      · rintro ⟨⟨hscoped, hss⟩, hnodup, hdisjoint, rfl⟩
        exact ⟨_, ⟨hscoped, (fun _ h => by cases h), rfl⟩,
          (checkStmts_iff ht howned ss).mpr ⟨hss, hnodup, hdisjoint, rfl⟩⟩
    | some b =>
      simp only [Stmt.boundNames, filterMap_cons, hs, Option.map_some, nodup_cons,
        disjoint_cons_left, reverse_cons, append_assoc]
      constructor
      · rintro ⟨_, ⟨hscoped, hfresh, rfl⟩, hrest⟩
        obtain ⟨hss, hnodup, hdisjoint, rfl⟩ := (checkStmts_iff ht howned ss).mp hrest
        -- The names behind differ from the new one just as from those in front.
        obtain ⟨hb, hdisjoint⟩ := disjoint_cons_right.mp hdisjoint
        exact ⟨⟨hscoped, hss⟩, ⟨hb, hnodup⟩, ⟨hfresh b rfl, hdisjoint⟩, rfl⟩
      · rintro ⟨⟨hscoped, hss⟩, ⟨hb, hnodup⟩, ⟨hfresh, hdisjoint⟩, rfl⟩
        refine ⟨_, ⟨hscoped, fun _ h => Option.some.inj h ▸ hfresh, rfl⟩,
          (checkStmts_iff ht howned ss).mpr ⟨hss, hnodup, ?_, rfl⟩⟩
        exact disjoint_cons_right.mpr ⟨hb, hdisjoint⟩

end

/-! ## Programs -/

/-- The variables of parameters, the last one first. -/
def paramVars (params : List Param) : Vars :=
  params.reverse.map fun q => (q.name.value, q.type.value)

theorem map_fst_paramVars (params : List Param) :
    (paramVars params).map (·.1) = (params.map (·.name.value)).reverse := by
  simp [paramVars, Function.comp_def]

/-- Parameters can be bound if their types are there and their names differ. -/
theorem declareParams_iff {p : Program} (ht : table.IsTableOf p) {params : List Param}
    {inner : Vars} :
    params.foldlM (declareParam table) (scopesOf inner []) = .ok locals ↔
      (∀ q ∈ params, TypeNamed p q.type.value) ∧ (params.map (·.name.value)).Nodup ∧
        (params.map (·.name.value)).Disjoint (inner.map (·.1)) ∧
        locals = scopesOf (paramVars params ++ inner) [] := by
  induction params generalizing inner with
  | nil =>
    simp only [not_mem_nil, false_implies, implies_true, map_nil, nodup_nil,
      disjoint_nil_left, true_and]
    exact pure_eq_ok
  | cons q params ih =>
    have hvars : paramVars (q :: params) ++ inner =
        paramVars params ++ (q.name.value, q.type.value) :: inner := by
      simp [paramVars]
    rw [foldlM_cons, bind_eq_ok, hvars]
    simp only [declareParam, check_bind_eq_ok, checkType_iff ht, declare_iff]
    constructor
    · rintro ⟨_, ⟨htype, hfresh, rfl⟩, hrest⟩
      obtain ⟨htypes, hnodup, hdisjoint, rfl⟩ := ih.mp hrest
      obtain ⟨hq, hdisjoint⟩ := disjoint_cons_right.mp hdisjoint
      exact ⟨forall_mem_cons.mpr ⟨htype, htypes⟩, nodup_cons.mpr ⟨hq, hnodup⟩,
        disjoint_cons_left.mpr ⟨hfresh, hdisjoint⟩, rfl⟩
    · rintro ⟨htypes, hnodup, hdisjoint, rfl⟩
      obtain ⟨htype, htypes⟩ := forall_mem_cons.mp htypes
      obtain ⟨hq, hnodup⟩ := nodup_cons.mp hnodup
      obtain ⟨hfresh, hdisjoint⟩ := disjoint_cons_left.mp hdisjoint
      exact ⟨_, ⟨htype, hfresh, rfl⟩,
        ih.mpr ⟨htypes, hnodup, disjoint_cons_right.mpr ⟨hq, hdisjoint⟩, rfl⟩⟩

section

variable {p : Program} (ht : table.IsTableOf p) (howned : p.MembersOwned)
include ht howned

theorem checkMethod_iff {className : String} {m : MethodDecl} :
    checkMethod table className m = .ok () ↔ MethodScoped p className m := by
  let home : Home := ⟨p, className, m.isStatic⟩
  have hbody : ∀ inner locals, (home.site table).checkStmts
    (scopesOf inner []) m.body = .ok locals ↔
      _ := fun inner locals => checkStmts_iff ht howned m.body
  rw [checkMethod, check_bind_eq_ok, checkType_iff ht, bind_eq_ok, push_empty]
  constructor
  · rintro ⟨hreturns, _, hparams, hrest⟩
    obtain ⟨htypes, hnodup, -, rfl⟩ := (declareParams_iff ht).mp hparams
    obtain ⟨_, hstmts, -⟩ := bind_eq_ok.mp hrest
    obtain ⟨hscoped, hbound, hdisjoint, -⟩ := (hbody _ _).mp hstmts
    rw [flatten_nil, append_nil, append_nil] at hscoped
    rw [append_nil, map_fst_paramVars] at hdisjoint
    refine ⟨hreturns, htypes, nodup_append'.mpr ⟨hnodup, hbound, ?_⟩, hscoped⟩
    exact fun name hname hlocal => hdisjoint hlocal (mem_reverse.mpr hname)
  · rintro ⟨hreturns, htypes, hnodup, hscoped⟩
    obtain ⟨hnodup, hbound, hdisjoint⟩ := nodup_append'.mp hnodup
    refine ⟨hreturns, _, (declareParams_iff ht).mpr
      ⟨htypes, hnodup, disjoint_nil_right _, rfl⟩,
      bind_eq_ok.mpr ⟨_, (hbody _ _).mpr ⟨?_, hbound, ?_, rfl⟩, rfl⟩⟩
    · rw [flatten_nil, append_nil, append_nil]
      exact hscoped
    · rw [append_nil, map_fst_paramVars]
      exact fun name hlocal hname => hdisjoint (mem_reverse.mp hname) hlocal

theorem checkClass_iff {c : ClassDecl} :
    checkClass table c = .ok () ↔ (∀ f ∈ c.fields, TypeNamed p f.type.value) ∧
      ∀ m ∈ c.methods, MethodScoped p c.name.value m := by
  rw [checkClass, check_bind_eq_ok]
  exact and_congr
    (forM_eq_ok_iff.trans (forall₂_congr fun _ _ => checkType_iff ht))
    (forM_eq_ok_iff.trans (forall₂_congr fun _ _ => checkMethod_iff ht howned))

end

end Scoping

open Scoping

/-- Identification accepts the well-scoped programs. -/
theorem identify_iff_wellScoped {source : String} {p : Program} (h : parse source = .ok p) :
    (∃ table, identify p = .ok table) ↔ p.WellScoped := by
  have howned : p.MembersOwned := membersOwned_of_parse h
  constructor
  · rintro ⟨table, hidentify⟩
    obtain ⟨table, htable, hrest⟩ := bind_eq_ok.mp hidentify
    obtain ⟨hclasses, -⟩ := check_bind_eq_ok.mp hrest
    obtain ⟨hnodup, hmembers⟩ := ClassTable.exists_ofProgram_iff.mp ⟨table, htable⟩
    have hclass := fun c hc => (checkClass_iff (ClassTable.isTableOf_of_ofProgram htable)
      howned).mp (forM_eq_ok_iff.mp hclasses c hc)
    exact ⟨hnodup, hmembers, fun c hc => (hclass c hc).1, fun c hc => (hclass c hc).2⟩
  · intro hscoped
    obtain ⟨table, htable⟩ := ClassTable.exists_ofProgram_iff.mpr ⟨hscoped.classes, hscoped.members⟩
    refine ⟨table, bind_eq_ok.mpr ⟨table, htable, check_bind_eq_ok.mpr ⟨?_, rfl⟩⟩⟩
    refine forM_eq_ok_iff.mpr fun c hc => ?_
    exact (checkClass_iff (ClassTable.isTableOf_of_ofProgram htable) howned).mpr
      ⟨hscoped.fields c hc, hscoped.methods c hc⟩

/-- A parameter hides a field, and so does a variable until the end of its block. -/
def hidingSource : String :=
  "class A\x7bprivate A n;int x;int f(int n)\x7b\x7bA x=this.n;x.x=n;\x7dreturn x;\x7d\x7d"

/-- A variable is used in its own initializer. -/
def earlySource : String := "class A\x7bint x;int f()\x7bint x=x;return x;\x7d\x7d"

set_option maxRecDepth 4000 in
theorem parse_hidingSource :
    ∃ p table, parse hidingSource = .ok p ∧ identify p = .ok table := by
  rw [parse, TokenStream.ofSource, lex_eq_tokensWithin]
  exact ⟨_, _, rfl, rfl⟩

set_option maxRecDepth 4000 in
theorem parse_earlySource :
    ∃ p fault, parse earlySource = .ok p ∧ identify p = .error fault := by
  rw [parse, TokenStream.ofSource, lex_eq_tokensWithin]
  exact ⟨_, _, rfl, rfl⟩

theorem identify_iff_wellScoped_sources :
    (∃ p, parse hidingSource = .ok p ∧ p.WellScoped) ∧
      ∃ p, parse earlySource = .ok p ∧ ¬ p.WellScoped := by
  constructor
  · obtain ⟨p, table, hparse, hidentify⟩ := parse_hidingSource
    exact ⟨p, hparse, (identify_iff_wellScoped hparse).mp ⟨table, hidentify⟩⟩
  · obtain ⟨p, _, hparse, hidentify⟩ := parse_earlySource
    refine ⟨p, hparse, ?_⟩
    intro hscoped
    obtain ⟨_, hok⟩ := (identify_iff_wellScoped hparse).mpr hscoped
    cases hidentify.symm.trans hok

end MiniJava
