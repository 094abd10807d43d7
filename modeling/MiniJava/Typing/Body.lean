import MiniJava.Typing.Expr

/-!
# Types of statements and programs

All faults of a program are collected, method by method, in the order of the
source. Nothing is carried from one method to the next. That a method returns a
value is asked of its text only: some `return` must stand in its body.
-/

namespace MiniJava

namespace Typing

/-- The surroundings of a method body. -/
structure Site where
  table : ClassTable
  className : String
  returns : Ty

mutual

/-- Whether a `return` stands in a statement. -/
def hasReturn : Stmt → Bool
  | .block _ body => anyReturn body
  | .ret _ _ => true
  | .ifThen _ _ thenBranch => hasReturn thenBranch
  | .ifThenElse _ _ thenBranch elseBranch => hasReturn thenBranch || hasReturn elseBranch
  | .loop _ _ body => hasReturn body
  | .declare _ _ _ _ | .assign _ _ _ | .assignIndex _ _ _ _ | .call _ _ _ => false

/-- Whether a `return` stands in one of the statements. -/
def anyReturn : List Stmt → Bool
  | [] => false
  | s :: ss => hasReturn s || anyReturn ss

end

namespace Site

/-- What expressions are typed against when these locals are in scope. -/
def env (site : Site) (locals : ScopeStack Ty) : Env :=
  ⟨site.table, site.className, locals⟩

/-- The faults of a condition. -/
def conditionFaults (site : Site) (locals : ScopeStack Ty) (statement : Conditional)
    (test : Expr) : List (Located TypeFault) :=
  let t := (site.env locals).infer test
  t.faults ++ faultUnless (Ty.boolean.assignable t.type) (.condition statement t.type) test.span

/-- The faults of a `return`. -/
def returnFaults (site : Site) (locals : ScopeStack Ty) (span : Span) :
    Option Expr → List (Located TypeFault)
  | some value =>
    let t := (site.env locals).infer value
    if site.returns = .void then t.faults ++ [⟨.valueFromVoid, value.span⟩]
    else t.faults ++
      faultUnless (site.returns.assignable t.type) (.returned site.returns t.type) value.span
  | none => faultUnless (site.returns = .void) (.missingValue site.returns) span

mutual

/-- The faults of a statement, and the locals behind it. -/
def checkStmt (site : Site) (locals : ScopeStack Ty) :
    Stmt → ScopeStack Ty × List (Located TypeFault)
  | .block _ body =>
    let (inner, faults) := site.checkStmts locals.push body
    (inner.outer, faults)
  | .declare _ type name init =>
    let t := (site.env locals).infer init
    (locals.defineNew name.value type.value, t.faults ++ faultUnless (type.value.assignable t.type)
        (.declaration name.value type.value t.type) init.span)
  | .assign _ target value =>
    let expected := (site.env locals).valueType target
    let t := (site.env locals).infer value
    (locals, t.faults ++ faultUnless (expected.assignable t.type)
      (.assignment target.text expected t.type) value.span)
  | .assignIndex _ target position value =>
    let env := site.env locals
    let element := env.elementType target position.span (env.infer position)
    let t := env.infer value
    (locals, element.faults ++ t.faults ++ faultUnless (element.type.assignable t.type)
      (.element target.text element.type t.type) value.span)
  | .call _ method args =>
    let (types, faults) := (site.env locals).inferArgs args
    (locals, ((site.env locals).callType method types faults).faults)
  | .ret span value => (locals, site.returnFaults locals span value)
  | .ifThen _ test thenBranch =>
    let (inner, faults) := site.checkStmt locals thenBranch
    (inner, site.conditionFaults locals .branch test ++ faults)
  | .ifThenElse _ test thenBranch elseBranch =>
    let (first, thenFaults) := site.checkStmt locals thenBranch
    let (second, elseFaults) := site.checkStmt first elseBranch
    (second, site.conditionFaults locals .branch test ++ thenFaults ++ elseFaults)
  | .loop _ test body =>
    let (inner, faults) := site.checkStmt locals body
    (inner, site.conditionFaults locals .loop test ++ faults)

/-- The faults of statements in turn, and the locals behind them. -/
def checkStmts (site : Site) (locals : ScopeStack Ty) :
    List Stmt → ScopeStack Ty × List (Located TypeFault)
  | [] => (locals, [])
  | s :: ss =>
    let (locals, faults) := site.checkStmt locals s
    let (locals, others) := site.checkStmts locals ss
    (locals, faults ++ others)

end

end Site

/-- The scope of the parameters of a method. -/
def paramScope (params : List Param) : ScopeStack Ty :=
  params.foldl (fun scopes p => scopes.defineNew p.name.value p.type.value) ScopeStack.empty.push

/-- The faults of a method. -/
def checkMethod (table : ClassTable) (className : String) (m : MethodDecl) :
    List (Located TypeFault) :=
  let site : Site := ⟨table, className, m.returns.value⟩
  (site.checkStmts (paramScope m.params) m.body).2 ++
    faultUnless (m.returns.value = .void || anyReturn m.body) (.missingReturn m.name.value)
      m.name.span

end Typing

/-- The faults of a program against the given classes, in the order of the source. -/
def typeCheck (table : ClassTable) (p : Program) : List (Located TypeFault) :=
  p.classes.flatMap fun c => c.methods.flatMap (Typing.checkMethod table c.name.value)

end MiniJava
