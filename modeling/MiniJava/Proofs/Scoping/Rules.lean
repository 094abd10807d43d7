import MiniJava.Identification.Reference

/-!
# Rules of scoping

When the names of a program are used as they may be. The rules speak of the program alone: of
the classes and members that it declares, and of the variables that are declared in front of
a place, the innermost and latest ones first. There is no table of classes, no stack of
scopes and no order in which things are looked at.

> `Program.WellScoped`: no name is declared twice in one scope, every class that is named is
> there, and every reference means something that fits its use (`Home.Means`).

A variable is in scope from its declaration to the end of the block. Inside of its own
initializer it hides what else has its name, but must not be used itself, so no reference there
may begin with its name (`Expr.roots`).
-/

namespace MiniJava

/-- The names of all classes: three that every program has, and those of the program. -/
def Program.classNames (p : Program) : List String :=
  [ClassTable.stringClass, ClassTable.printStreamClass, ClassTable.systemClass] ++
    p.classes.map (·.name.value)

/-- The names of the members of a class. -/
def ClassDecl.memberNames (c : ClassDecl) : List String :=
  c.fields.map (·.name.value) ++ c.methods.map (·.name.value)

/-- The name with which a reference begins, unless that is `this`. -/
def Ref.root? : Ref → Option String
  | .this _ => none
  | .name _ text => some text
  | .member _ base _ => base.root?

mutual

/-- The names with which the references of an expression begin. -/
def Expr.roots : Expr → List String
  | .literal _ _ | .newObject _ _ => []
  | .unary _ _ operand => operand.roots
  | .binary _ _ left right => left.roots ++ right.roots
  | .ref target => target.root?.toList
  | .index _ target position => target.root?.toList ++ position.roots
  | .call _ method args => method.root?.toList ++ Expr.rootsOf args
  | .newArray _ _ size => size.roots

/-- The names with which the references of several expressions begin. -/
def Expr.rootsOf : List Expr → List String
  | [] => []
  | e :: es => e.roots ++ Expr.rootsOf es

end

/-- The variable that a statement declares for those behind it. -/
def Stmt.binding? : Stmt → Option (String × Ty)
  | .declare _ type name _ => some (name.value, type.value)
  | _ => none

/-- The names that statements declare in the scope in which they stand. -/
def Stmt.boundNames (ss : List Stmt) : List String := ss.filterMap fun s => s.binding?.map (·.1)

theorem Stmt.boundNames_cons (s : Stmt) (ss : List Stmt) :
    Stmt.boundNames (s :: ss) = (s.binding?.map Prod.fst).toList ++ Stmt.boundNames ss := by
  rw [Stmt.boundNames, List.filterMap_cons]
  cases s.binding? <;> rfl

namespace Scoping

/-! ## Members -/

/-- A member of a class: what it stands for, and how it may be reached. -/
structure Member where
  referent : Referent
  isStatic : Bool
  isPrivate : Bool

/-- The members of the classes of a program. -/
inductive HasMember (p : Program) : String → String → Member → Prop
  | out : HasMember p ClassTable.systemClass ClassTable.outField
      ⟨.field (.object ClassTable.printStreamClass), true, false⟩
  | print : HasMember p ClassTable.printStreamClass ClassTable.printMethod ⟨.method, false, false⟩
  | field {c : ClassDecl} {f : FieldDecl} (hc : c ∈ p.classes) (hf : f ∈ c.fields) :
      HasMember p c.name.value f.name.value ⟨.field f.type.value, f.isStatic, f.isPrivate⟩
  | method {c : ClassDecl} {m : MethodDecl} (hc : c ∈ p.classes) (hm : m ∈ c.methods) :
      HasMember p c.name.value m.name.value ⟨.method, m.isStatic, m.isPrivate⟩

/-- A class that a type is built from is one of the program. -/
def TypeNamed (p : Program) (type : Ty) : Prop :=
  ∀ className, type.className? = some className → className ∈ p.classNames

/-! ## References -/

/-- Variables in scope, the innermost and latest ones first. -/
abbrev Vars := List (String × Ty)

/-- The method body in which a name is used. -/
structure Home where
  program : Program
  className : String
  isStatic : Bool

/-- The class of the object that a reference means, if it means one. -/
def Home.objectClass? (home : Home) : Referent → Option String
  | .this => some home.className
  | .variable (.object className) | .field (.object className) => some className
  | _ => none

/-- What a reference means. A plain name is a variable, or else a member of the class at hand, or
else a class. A static method has no receiver, so `this` and the instance members are not there.
Members of what has a class are those of that class, but through the name of a class only the static
ones are reached, and private ones only from within. -/
inductive Home.Means (home : Home) (vars : Vars) : Ref → Referent → Prop
  | this {span : Span} (hthis : home.isStatic = false) : Means home vars (.this span) .this
  | bound {span : Span} {text : String} {type : Ty} (hvar : vars.lookup text = some type) :
      Means home vars (.name span text) (.variable type)
  | own {span : Span} {text : String} {m : Member} (hvar : vars.lookup text = none)
      (hmember : HasMember home.program home.className text m)
      (hstatic : home.isStatic = true → m.isStatic = true) :
      Means home vars (.name span text) m.referent
  | classNamed {span : Span} {text : String} (hvar : vars.lookup text = none)
      (hmember : ∀ m, ¬ HasMember home.program home.className text m)
      (hclass : text ∈ home.program.classNames) :
      Means home vars (.name span text) (.classNamed text)
  | ofObject {span : Span} {base : Ref} {name : Ident} {referent : Referent} {className : String}
      {m : Member} (hbase : Means home vars base referent)
      (hobject : home.objectClass? referent = some className)
      (hmember : HasMember home.program className name.value m)
      (hprivate : m.isPrivate = true → className = home.className) :
      Means home vars (.member span base name) m.referent
  | ofClass {span : Span} {base : Ref} {name : Ident} {className : String} {m : Member}
      (hbase : Means home vars base (.classNamed className))
      (hmember : HasMember home.program className name.value m)
      (hprivate : m.isPrivate = true → className = home.className) (hstatic : m.isStatic = true) :
      Means home vars (.member span base name) m.referent

namespace Home

/-- A reference that may be read: it means a value. -/
def CanRead (home : Home) (vars : Vars) (r : Ref) : Prop :=
  home.Means vars r .this ∨ (∃ type, home.Means vars r (.variable type)) ∨
    ∃ type, home.Means vars r (.field type)

/-- A reference that may be assigned to. -/
def CanAssign (home : Home) (vars : Vars) (r : Ref) : Prop :=
  (∃ type, home.Means vars r (.variable type)) ∨ ∃ type, home.Means vars r (.field type)

/-- A reference that may be called. -/
def CanCall (home : Home) (vars : Vars) (r : Ref) : Prop := home.Means vars r .method

/-! ## Bodies -/

mutual

/-- All names of an expression are used as they may be. -/
def ExprScoped (home : Home) (vars : Vars) : Expr → Prop
  | .literal _ _ => True
  | .unary _ _ operand => home.ExprScoped vars operand
  | .binary _ _ left right => home.ExprScoped vars left ∧ home.ExprScoped vars right
  | .ref target => home.CanRead vars target
  | .index _ target position => home.CanRead vars target ∧ home.ExprScoped vars position
  | .call _ method args => home.CanCall vars method ∧ home.ExprsScoped vars args
  | .newObject _ className => className.value ∈ home.program.classNames
  | .newArray _ element size => TypeNamed home.program element.value ∧ home.ExprScoped vars size

/-- All names of several expressions are used as they may be. -/
def ExprsScoped (home : Home) (vars : Vars) : List Expr → Prop
  | [] => True
  | e :: es => home.ExprScoped vars e ∧ home.ExprsScoped vars es

end

mutual

/-- All names of a statement are used as they may be. The branches of a conditional and the body of
a loop declare nothing, and the variables of a block have different names. -/
def StmtScoped (home : Home) (vars : Vars) : Stmt → Prop
  | .block _ body => (Stmt.boundNames body).Nodup ∧ home.StmtsScoped vars body
  | .declare _ type name init =>
    TypeNamed home.program type.value ∧ name.value ∉ init.roots ∧ home.ExprScoped vars init
  | .assign _ target value => home.CanAssign vars target ∧ home.ExprScoped vars value
  | .assignIndex _ target position value =>
    home.CanRead vars target ∧ home.ExprScoped vars position ∧ home.ExprScoped vars value
  | .call _ method args => home.CanCall vars method ∧ home.ExprsScoped vars args
  | .ret _ none => True
  | .ret _ (some value) => home.ExprScoped vars value
  | .ifThen _ test thenBranch =>
    home.ExprScoped vars test ∧ thenBranch.binding? = none ∧ home.StmtScoped vars thenBranch
  | .ifThenElse _ test thenBranch elseBranch =>
    home.ExprScoped vars test ∧
      (thenBranch.binding? = none ∧ home.StmtScoped vars thenBranch) ∧
      elseBranch.binding? = none ∧ home.StmtScoped vars elseBranch
  | .loop _ test body =>
    home.ExprScoped vars test ∧ body.binding? = none ∧ home.StmtScoped vars body

/-- All names of statements in turn are used as they may be, each with the variables in front of
it. -/
def StmtsScoped (home : Home) (vars : Vars) : List Stmt → Prop
  | [] => True
  | s :: ss => home.StmtScoped vars s ∧ home.StmtsScoped (s.binding?.toList ++ vars) ss

end

end Home

/-! ## Programs -/

/-- The names of a method are used as they may be. Its parameters and the variables at the top of
its body share one scope. -/
structure MethodScoped (p : Program) (className : String) (m : MethodDecl) : Prop where
  returns : TypeNamed p m.returns.value
  params : ∀ q ∈ m.params, TypeNamed p q.type.value
  nodup : (m.params.map (·.name.value) ++ Stmt.boundNames m.body).Nodup
  body : Home.StmtsScoped ⟨p, className, m.isStatic⟩
    (m.params.reverse.map fun q => (q.name.value, q.type.value)) m.body

end Scoping

open Scoping

/-- The names of a program are used as they may be. -/
structure Program.WellScoped (p : Program) : Prop where
  classes : p.classNames.Nodup
  members : ∀ c ∈ p.classes, c.memberNames.Nodup
  fields : ∀ c ∈ p.classes, ∀ f ∈ c.fields, TypeNamed p f.type.value
  methods : ∀ c ∈ p.classes, ∀ m ∈ c.methods, MethodScoped p c.name.value m

end MiniJava
