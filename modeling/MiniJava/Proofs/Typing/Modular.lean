import MiniJava.Proofs.Typing.Statements

/-!
# Methods are checked one by one

`typeCheck` puts together what each method gives on its own. The same faults come out of one checker
that goes through the whole program and is changed on the way: it has the scopes, the class and the
return type of the method it is in, a mark for a `return` it has seen, and the faults so far
(`faults_checkProgram`).

A statement adds faults and moves the scopes and the mark as `Site.checkStmt` and `hasReturn` say
(`checkStmt_eq`), whatever the checker was like before. The program need not have been identified.
-/

namespace MiniJava

open List

namespace Typing

/-! ## The checker -/

/-- A checker on its way through a program. -/
structure Checker where
  table : ClassTable
  locals : ScopeStack Ty
  className : String
  returns : Ty
  sawReturn : Bool
  faults : List (Located TypeFault)

namespace Checker

/-- A checker that has not seen anything. -/
def fresh (table : ClassTable) : Checker := ⟨table, .empty, "", .void, false, []⟩

/-- The checker in another class. -/
def inClass (c : Checker) (className : String) : Checker := { c with className := className }

/-- The checker with other scopes. -/
def withLocals (c : Checker) (locals : ScopeStack Ty) : Checker := { c with locals := locals }

/-- Adds faults behind the others. -/
def report (c : Checker) (faults : List (Located TypeFault)) : Checker :=
  { c with faults := c.faults ++ faults }

/-- What expressions are typed against. -/
def env (c : Checker) : Env := ⟨c.table, c.className, c.locals⟩

/-- The surroundings of the statements. -/
def site (c : Checker) : Site := ⟨c.table, c.className, c.returns⟩

/-- Checks a condition. -/
def checkCondition (c : Checker) (statement : Conditional) (test : Expr) : Checker :=
  c.report (c.site.conditionFaults c.locals statement test)

mutual

/-- Checks a statement. -/
def checkStmt : Stmt → Checker → Checker
  | .block _ body, c =>
    let c := checkStmts body (c.withLocals c.locals.push)
    c.withLocals c.locals.outer
  | .declare _ type name init, c =>
    let t := c.env.infer init
    let c := c.report (t.faults ++ faultUnless (type.value.assignable t.type)
      (.declaration name.value type.value t.type) init.span)
    c.withLocals (c.locals.defineNew name.value type.value)
  | .assign _ target value, c =>
    let expected := c.env.valueType target
    let t := c.env.infer value
    c.report (t.faults ++ faultUnless (expected.assignable t.type)
      (.assignment target.text expected t.type) value.span)
  | .assignIndex _ target position value, c =>
    let element := c.env.elementType target position.span (c.env.infer position)
    let c := c.report element.faults
    let t := c.env.infer value
    c.report (t.faults ++ faultUnless (element.type.assignable t.type)
      (.element target.text element.type t.type) value.span)
  | .call _ method args, c =>
    let (types, faults) := c.env.inferArgs args
    c.report (c.env.callType method types faults).faults
  | .ret span value, c =>
    let c := { c with sawReturn := true }
    c.report (c.site.returnFaults c.locals span value)
  | .ifThen _ test thenBranch, c => checkStmt thenBranch (c.checkCondition .branch test)
  | .ifThenElse _ test thenBranch elseBranch, c =>
    checkStmt elseBranch (checkStmt thenBranch (c.checkCondition .branch test))
  | .loop _ test body, c => checkStmt body (c.checkCondition .loop test)

/-- Checks statements in turn. -/
def checkStmts : List Stmt → Checker → Checker
  | [], c => c
  | s :: ss, c => checkStmts ss (checkStmt s c)

end

/-- Checks a method. -/
def checkMethod (c : Checker) (m : MethodDecl) : Checker :=
  -- The class is known already, and the faults so far stay.
  let c := { c with returns := m.returns.value, sawReturn := false, locals := c.locals.push }
  let c := m.params.foldl
    (fun c p => c.withLocals (c.locals.defineNew p.name.value p.type.value)) c
  let c := checkStmts m.body c
  let c := c.withLocals c.locals.outer
  c.report (faultUnless (c.returns = .void || c.sawReturn)
  (.missingReturn m.name.value) m.name.span)

/-- Checks the methods of a class in turn. -/
def checkClass (c : Checker) (d : ClassDecl) : Checker :=
  d.methods.foldl checkMethod (c.inClass d.name.value)

/-- Checks the classes of a program in turn. -/
def checkProgram (c : Checker) (p : Program) : Checker := p.classes.foldl checkClass c

/-! ## Statements -/

/-- The checker behind statements that leave these scopes and have these faults. -/
def behind (c : Checker) (checked : ScopeStack Ty × List (Located TypeFault))
    (returned : Bool) : Checker :=
  { c with
    locals := checked.1
    sawReturn := c.sawReturn || returned
    faults := c.faults ++ checked.2 }

theorem report_eq (c : Checker) (faults : List (Located TypeFault)) :
    c.report faults = c.behind (c.locals, faults) false := by
  rw [behind, Bool.or_false, report]

theorem behind_behind (c : Checker) (first second : ScopeStack Ty × List (Located TypeFault))
    (r r' : Bool) :
    (c.behind first r).behind second r' = c.behind (second.1, first.2 ++ second.2) (r || r') := by
  simp only [behind, Bool.or_assoc, append_assoc]

mutual

/-- Whatever the checker was like before, a statement adds its faults, moves the scopes, and sets
the mark if there is a `return` in it. -/
theorem checkStmt_eq (s : Stmt) (c : Checker) :
    checkStmt s c = c.behind (c.site.checkStmt c.locals s) (hasReturn s) := by
  cases s with
  | block _ body =>
    rw [checkStmt, checkStmts_eq body]
    rfl
  | declare =>
    rw [checkStmt, report_eq]
    rfl
  | assign => exact report_eq _ _
  | assignIndex =>
    rw [checkStmt, report_eq, report_eq, behind_behind, ← append_assoc]
    rfl
  | call => exact report_eq _ _
  | ret =>
    rw [checkStmt, behind, hasReturn, Bool.or_true]
    rfl
  | ifThen _ _ thenBranch =>
    rw [checkStmt, checkCondition, report_eq, checkStmt_eq thenBranch, behind_behind]
    rfl
  | ifThenElse _ _ thenBranch elseBranch =>
    rw [checkStmt, checkCondition, report_eq, checkStmt_eq thenBranch, behind_behind,
      checkStmt_eq elseBranch, behind_behind]
    rfl
  | loop _ _ body =>
    rw [checkStmt, checkCondition, report_eq, checkStmt_eq body, behind_behind]
    rfl

theorem checkStmts_eq (ss : List Stmt) (c : Checker) :
    checkStmts ss c = c.behind (c.site.checkStmts c.locals ss) (anyReturn ss) := by
  cases ss with
  | nil =>
    rw [checkStmts, anyReturn, Site.checkStmts, behind, Bool.or_false, append_nil]
  | cons s ss =>
    rw [checkStmts, checkStmt_eq s c, checkStmts_eq ss, behind_behind]
    rfl

end

/-! ## Methods -/

theorem foldl_defineNew (params : List Param) (c : Checker) :
    params.foldl (fun c p => c.withLocals (c.locals.defineNew p.name.value p.type.value)) c =
      c.withLocals
        (params.foldl (fun scopes p => scopes.defineNew p.name.value p.type.value) c.locals) := by
  induction params generalizing c with
  | nil => rfl
  | cons _ _ ih => exact ih _

theorem outer_paramScope (params : List Param) : (paramScope params).outer = .empty := by
  suffices h : ∀ scopes : ScopeStack Ty,
      (params.foldl (fun scopes p => scopes.defineNew p.name.value p.type.value) scopes).outer =
        scopes.outer from h _
  induction params with
  | nil => exact fun _ => rfl
  | cons _ _ ih => exact fun scopes => (ih _).trans outer_defineNew

/-- What checking methods does to a checker without an open scope: it adds these faults, and again
no scope is open. The return type and the mark may be others. -/
structure Adds (c c' : Checker) (faults : List (Located TypeFault)) : Prop where
  table : c'.table = c.table
  className : c'.className = c.className
  locals : c'.locals = .empty
  faults : c'.faults = c.faults ++ faults

/-- A method is checked in the same way whatever the checker has seen before. -/
theorem adds_checkMethod (c : Checker) (m : MethodDecl) (hlocals : c.locals = .empty) :
    c.Adds (c.checkMethod m) (Typing.checkMethod c.table c.className m) := by
  obtain ⟨table, _, className, returns, _, _⟩ := c
  subst hlocals
  rw [checkMethod]
  dsimp only
  rw [foldl_defineNew, checkStmts_eq]
  refine ⟨rfl, rfl, ?_, ?_⟩
  · -- What the body declares is in the scope of the parameters, which is closed again.
    show ((Site.mk table className m.returns.value).checkStmts
      (paramScope m.params) m.body).1.outer = _
    rw [outer_checkStmts, outer_paramScope]
  · exact append_assoc _ _ _

theorem adds_foldl_checkMethod (ms : List MethodDecl) (c : Checker) (hlocals : c.locals = .empty) :
    c.Adds (ms.foldl checkMethod c) (ms.flatMap (Typing.checkMethod c.table c.className)) := by
  induction ms generalizing c with
  | nil => exact ⟨rfl, rfl, hlocals, (append_nil _).symm⟩
  | cons m _ ih =>
    have hfirst := adds_checkMethod c m hlocals
    have hothers := ih (c.checkMethod m) hfirst.locals
    rw [hfirst.table, hfirst.className] at hothers
    refine ⟨hothers.table.trans hfirst.table, hothers.className.trans hfirst.className,
      hothers.locals, ?_⟩
    rw [foldl_cons, hothers.faults, hfirst.faults, flatMap_cons, append_assoc]

theorem faults_foldl_checkClass (ds : List ClassDecl) (c : Checker) (hlocals : c.locals = .empty) :
    (ds.foldl checkClass c).faults = c.faults ++ typeCheck c.table ⟨ds⟩ := by
  induction ds generalizing c with
  | nil => exact (append_nil _).symm
  | cons d _ ih =>
    have hfirst : (c.inClass d.name.value).Adds (c.checkClass d)
        (d.methods.flatMap (Typing.checkMethod c.table d.name.value)) :=
      adds_foldl_checkMethod d.methods (c.inClass d.name.value) hlocals
    rw [foldl_cons, ih (c.checkClass d) hfirst.locals, hfirst.table, hfirst.faults, append_assoc]
    rfl

end Checker

/-! ## Scopes behind a statement -/

end Typing

/-- The variables that a statement declares outside of blocks, also where no declaration should
stand. -/
def Stmt.ownDeclarations : Stmt → List (String × Ty)
  | .declare _ type name _ => [(name.value, type.value)]
  | .ifThen _ _ thenBranch => thenBranch.ownDeclarations
  | .ifThenElse _ _ thenBranch elseBranch => thenBranch.ownDeclarations ++
    elseBranch.ownDeclarations
  | .loop _ _ body => body.ownDeclarations
  | .block _ _ | .assign _ _ _ | .assignIndex _ _ _ _ | .call _ _ _ | .ret _ _ => []

/-- The scopes are the same, but for some of these bindings in front of those of the innermost
scope. -/
def ScopeStack.Gains {α : Type} (s t : ScopeStack α) (bindings : List (String × α)) : Prop :=
  ∃ new, t.scopes = s.scopes.modifyHead (new ++ ·) ∧ new ⊆ bindings

namespace ScopeStack

variable {α : Type} {s t u : ScopeStack α} {first second : List (String × α)}

theorem Gains.refl (s : ScopeStack α) : s.Gains s [] := by
  refine ⟨[], ?_, List.Subset.refl []⟩
  cases s.scopes <;> rfl

theorem Gains.trans (h : s.Gains t first) (h' : t.Gains u second) :
    s.Gains u (first ++ second) := by
  obtain ⟨new, hscopes, hnew⟩ := h
  obtain ⟨new', hscopes', hnew'⟩ := h'
  refine ⟨new' ++ new, ?_, ?_⟩
  · rw [hscopes', hscopes, modifyHead_modifyHead]
    simp only [Function.comp_def, append_assoc]
  · exact append_subset.mpr
      ⟨subset_append_of_subset_right first hnew',
      subset_append_of_subset_left second hnew⟩

theorem gains_defineNew (s : ScopeStack α) (name : String) (value : α) :
    s.Gains (s.defineNew name value) [(name, value)] := by
  obtain ⟨_ | ⟨_, _⟩⟩ := s
  · exact ⟨[], rfl, nil_subset _⟩
  · rw [defineNew, define?]
    dsimp only
    split
    next => exact ⟨[], rfl, nil_subset _⟩
    next => exact ⟨[(name, value)], rfl, List.Subset.refl _⟩

end ScopeStack

namespace Typing

/-- A statement leaves the scopes as they were, but for the variables that it declares outside of
blocks. -/
theorem gains_checkStmt (site : Site) (locals : ScopeStack Ty) (s : Stmt) :
    locals.Gains (site.checkStmt locals s).1 s.ownDeclarations := by
  cases s with
  | block =>
    rw [types_block]
    exact .refl locals
  | declare _ type name => exact locals.gains_defineNew name.value type.value
  | assign | assignIndex | call | ret => exact .refl locals
  | ifThen _ _ thenBranch => exact gains_checkStmt site locals thenBranch
  | ifThenElse _ _ thenBranch elseBranch =>
    exact (gains_checkStmt site locals thenBranch).trans (gains_checkStmt site _ elseBranch)
  | loop _ _ body => exact gains_checkStmt site locals body

/-! ## One method of a program -/

/-- A program with a method in it that may have any body. -/
structure Hole where
  /-- The classes in front of that of the method. -/
  front : List ClassDecl
  home : ClassDecl
  back : List ClassDecl
  /-- The methods in front of it in its class. -/
  before : List MethodDecl
  method : MethodDecl
  behind : List MethodDecl

namespace Hole

/-- The method with a body. -/
def filled (hole : Hole) (body : List Stmt) : MethodDecl := { hole.method with body := body }

/-- The program with a body for the method. -/
def program (hole : Hole) (body : List Stmt) : Program :=
  ⟨hole.front ++ { hole.home with methods := hole.before ++ hole.filled body :: hole.behind } ::
    hole.back⟩

/-- Only the faults of the method itself depend on its body. -/
theorem exists_typeCheck_program (table : ClassTable) (hole : Hole) : ∃ earlier later, ∀ body,
    typeCheck table (hole.program body) =
      earlier ++ checkMethod table hole.home.name.value (hole.filled body) ++ later := by
  refine ⟨typeCheck table ⟨hole.front⟩ ++ hole.before.flatMap
    (checkMethod table hole.home.name.value),
    hole.behind.flatMap (checkMethod table hole.home.name.value) ++ typeCheck table ⟨hole.back⟩, ?_⟩
  intro _
  simp only [typeCheck, program, flatMap_append, flatMap_cons, append_assoc]

/-- The classes do not depend on the body. -/
theorem ofProgram_program (hole : Hole) (body body' : List Stmt) :
    ClassTable.ofProgram (hole.program body) = ClassTable.ofProgram (hole.program body') := by
  have hentry : ∀ table : ClassTable,
      table.declare { hole.home with methods := hole.before ++ hole.filled body :: hole.behind } =
        table.declare
          { hole.home with methods := hole.before ++ hole.filled body' :: hole.behind } := by
    intro _
    simp only [ClassTable.declare, ClassEntry.ofDecl, map_append, map_cons]
    rfl
  simp only [ClassTable.ofProgram, program, foldlM_append, foldlM_cons, hentry]

end Hole

/-- One checker that goes through a whole program reports what `typeCheck` does, and that is what a
new checker would report for each method on its own, one after the other. So another body for one
method changes only what is reported for it, and the classes that all methods are checked against
stay the same. Behind a statement the scopes are those in front of it, but for the variables that it
declares in the innermost one. -/
theorem faults_checkProgram (table : ClassTable) (p : Program) :
    ((Checker.fresh table).checkProgram p).faults = typeCheck table p ∧
    (typeCheck table p = p.classes.flatMap fun d => d.methods.flatMap fun m =>
      (((Checker.fresh table).inClass d.name.value).checkMethod m).faults) ∧
    (∀ hole : Hole, ∃ earlier later, ∀ body, typeCheck table (hole.program body) = earlier ++
        (((Checker.fresh table).inClass hole.home.name.value).checkMethod
          (hole.filled body)).faults ++
        later ∧
      ClassTable.ofProgram (hole.program body) = ClassTable.ofProgram
        (hole.program hole.method.body)) ∧
    ∀ (c : Checker) (s : Stmt), (Checker.checkStmt s c).locals = (c.site.checkStmt c.locals s).1 ∧
      c.locals.Gains (Checker.checkStmt s c).locals s.ownDeclarations := by
  have halone : ∀ className m, (((Checker.fresh table).inClass className).checkMethod m).faults =
      checkMethod table className m := fun className m => (Checker.adds_checkMethod _ m rfl).faults
  refine ⟨Checker.faults_foldl_checkClass p.classes (.fresh table) rfl, ?_, ?_, ?_⟩
  · simp only [halone]
    rfl
  · intro hole
    obtain ⟨earlier, later, hfaults⟩ := hole.exists_typeCheck_program table
    refine ⟨earlier, later, fun body => ⟨?_, hole.ofProgram_program body _⟩⟩
    rw [halone, hfaults]
  · intro c s
    rw [Checker.checkStmt_eq]
    exact ⟨rfl, gains_checkStmt c.site c.locals s⟩

end Typing

end MiniJava
