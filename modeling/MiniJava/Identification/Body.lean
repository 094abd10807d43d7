import MiniJava.Identification.Reference

/-!
# Identification of programs

The names of expressions, statements, methods and classes are identified in the
order of the source, and the first fault ends identification.
-/

namespace MiniJava

namespace Identification

/-- A statement that is itself a branch must not declare anything. -/
def checkBranch : Stmt → Result Unit
  | .declare span _ _ _ => .error ⟨.bareDeclaration, span⟩
  | _ => .ok ()

namespace Site

mutual

/-- Identifies the names of an expression. -/
def checkExpr (site : Site) (locals : ScopeStack LocalVar) : Expr → Result Unit
  | .literal _ _ => .ok ()
  | .unary _ _ operand => site.checkExpr locals operand
  | .binary _ _ left right => do
    site.checkExpr locals left
    site.checkExpr locals right
  | .ref target => site.checkValue locals target
  | .index _ target position => do
    site.checkValue locals target
    site.checkExpr locals position
  | .call _ method args => do
    site.checkCallee locals method
    site.checkExprs locals args
  | .newObject _ className =>
    checkType site.table ⟨.object className.value, className.span⟩
  | .newArray _ element size => do
    checkType site.table element
    site.checkExpr locals size

/-- Identifies the names of expressions in turn. -/
def checkExprs (site : Site) (locals : ScopeStack LocalVar) : List Expr → Result Unit
  | [] => .ok ()
  | e :: es => do
    site.checkExpr locals e
    site.checkExprs locals es

end

mutual

/-- Identifies the names of a statement and gives the locals behind it. -/
def checkStmt (site : Site) (locals : ScopeStack LocalVar) : Stmt → Result (ScopeStack LocalVar)
  | .block _ body => do
    let inner ← site.checkStmts locals.push body
    return inner.outer
  | .declare _ type name init => do
    checkType site.table type
    let during ← declare locals name ⟨type.value, false⟩
    site.checkExpr during init
    return during.set name.value ⟨type.value, true⟩
  | .assign _ target value => do
    site.checkTarget locals target
    site.checkExpr locals value
    return locals
  | .assignIndex _ target position value => do
    site.checkValue locals target
    site.checkExpr locals position
    site.checkExpr locals value
    return locals
  | .call _ method args => do
    site.checkCallee locals method
    site.checkExprs locals args
    return locals
  | .ret _ none => return locals
  | .ret _ (some value) => do
    site.checkExpr locals value
    return locals
  | .ifThen _ test thenBranch => do
    site.checkExpr locals test
    checkBranch thenBranch
    site.checkStmt locals thenBranch
  | .ifThenElse _ test thenBranch elseBranch => do
    site.checkExpr locals test
    checkBranch thenBranch
    let locals ← site.checkStmt locals thenBranch
    checkBranch elseBranch
    site.checkStmt locals elseBranch
  | .loop _ test body => do
    site.checkExpr locals test
    checkBranch body
    site.checkStmt locals body

/-- Identifies the names of statements in turn. -/
def checkStmts (site : Site) (locals : ScopeStack LocalVar) :
    List Stmt → Result (ScopeStack LocalVar)
  | [] => .ok locals
  | s :: ss => do
    let locals ← site.checkStmt locals s
    site.checkStmts locals ss

end

end Site

/-- Binds a parameter. -/
def declareParam (table : ClassTable) (locals : ScopeStack LocalVar) (p : Param) :
    Result (ScopeStack LocalVar) := do
  checkType table p.type
  declare locals p.name ⟨p.type.value, true⟩

/-- Identifies the names of a method. Its parameters and the variables at the top
of its body share one scope. -/
def checkMethod (table : ClassTable) (className : String) (m : MethodDecl) : Result Unit := do
  checkType table m.returns
  let locals ← m.params.foldlM (declareParam table) ScopeStack.empty.push
  let _ ← Site.checkStmts ⟨table, className, m.isStatic⟩ locals m.body

/-- Identifies the names of a class. -/
def checkClass (table : ClassTable) (c : ClassDecl) : Result Unit := do
  c.fields.forM fun f => checkType table f.type
  c.methods.forM (checkMethod table c.name.value)

end Identification

/-- Identifies the names of a program and gives its classes. -/
def identify (p : Program) : Except (Located ScopeFault) ClassTable := do
  let table ← ClassTable.ofProgram p
  p.classes.forM (Identification.checkClass table)
  return table

end MiniJava
