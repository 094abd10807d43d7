import MiniJava.Proofs.Scoping.Rules

/-!
# Rules of typing

Which type an expression has (`HasType`), and which statements, methods and programs are well-typed
(`Program.WellTyped`). As with the rules of scoping, only the program and the variables in front of
a place are spoken of.

There is no erroneous type here: an expression that is at fault has no type at all. The types that a
program can write are those of `Ty.IsWritten`, so `void` can only be the result of a call and `null`
only the type of the literal.
-/

namespace MiniJava

namespace Ty

/-- The types of objects and arrays. -/
def IsReference : Ty → Prop
  | object _ | array _ => True
  | _ => False

/-- A value of this type may be stored where the target is expected. -/
def Fits (value target : Ty) : Prop := value = target ∨ value = null ∧ target.IsReference

/-- Values of the two types may be compared for equality. -/
def Comparable (a b : Ty) : Prop :=
  a = b ∧ a ≠ void ∨ a = null ∧ b.IsReference ∨ a.IsReference ∧ b = null

/-- The types that can be written for a variable. -/
inductive IsWritten : Ty → Prop
  | int : IsWritten int
  | boolean : IsWritten boolean
  | object (className : String) : IsWritten (object className)
  | intArray : IsWritten (array int)
  | objectArray (className : String) : IsWritten (array (.object className))

end Ty

mutual

/-- The types that are written in the declarations of a statement. -/
def Stmt.declaredTypes : Stmt → List Ty
  | .block _ body => Stmt.declaredTypesOf body
  | .declare _ type _ _ => [type.value]
  | .ifThen _ _ thenBranch => thenBranch.declaredTypes
  | .ifThenElse _ _ thenBranch elseBranch => thenBranch.declaredTypes ++ elseBranch.declaredTypes
  | .loop _ _ body => body.declaredTypes
  | .assign _ _ _ | .assignIndex _ _ _ _ | .call _ _ _ | .ret _ _ => []

/-- The types that are written in the declarations of several statements. -/
def Stmt.declaredTypesOf : List Stmt → List Ty
  | [] => []
  | s :: ss => s.declaredTypes ++ Stmt.declaredTypesOf ss

end

/-- A program holds no types but those that can be written. -/
structure Program.TypesWritten (p : Program) : Prop where
  fields : ∀ c ∈ p.classes, ∀ f ∈ c.fields, f.type.value.IsWritten
  returns : ∀ c ∈ p.classes, ∀ m ∈ c.methods, m.returns.value = .void ∨ m.returns.value.IsWritten
  params : ∀ c ∈ p.classes, ∀ m ∈ c.methods, ∀ q ∈ m.params, q.type.value.IsWritten
  locals : ∀ c ∈ p.classes, ∀ m ∈ c.methods, ∀ t ∈ Stmt.declaredTypesOf m.body, t.IsWritten

namespace Typing

/-! ## References -/

/-- What a reference stands for, as far as types go. -/
inductive Denoted
  | value (type : Ty)
  | method (params : List Ty) (returns : Ty)
  | classNamed (name : String)

/-- The class whose members can be reached from here. -/
def Denoted.className? : Denoted → Option String
  | value (.object className) | classNamed className => some className
  | _ => none

/-- The members of the classes of a program, with their types. -/
inductive MemberDenotes (p : Program) : String → String → Denoted → Prop
  | out : MemberDenotes p ClassTable.systemClass ClassTable.outField
      (.value (.object ClassTable.printStreamClass))
  | print : MemberDenotes p ClassTable.printStreamClass ClassTable.printMethod
      (.method [.int] .void)
  | field {c : ClassDecl} {f : FieldDecl} (hc : c ∈ p.classes) (hf : f ∈ c.fields) :
      MemberDenotes p c.name.value f.name.value (.value f.type.value)
  | method {c : ClassDecl} {m : MethodDecl} (hc : c ∈ p.classes) (hm : m ∈ c.methods) :
      MemberDenotes p c.name.value m.name.value
        (.method (m.params.map (·.type.value)) m.returns.value)

/-- What types depend on: the class at hand and the variables in scope. -/
structure Context where
  program : Program
  className : String
  vars : Scoping.Vars

/-- What a reference stands for. A plain name is a variable, or else a member of the class at hand,
or else a class; members are those of the class that the part in front of them has or is. -/
inductive Context.Denotes (Γ : Context) : Ref → Denoted → Prop
  | this {span : Span} : Denotes Γ (.this span) (.value (.object Γ.className))
  | bound {span : Span} {text : String} {type : Ty} (hvar : Γ.vars.lookup text = some type) :
      Denotes Γ (.name span text) (.value type)
  | own {span : Span} {text : String} {d : Denoted} (hvar : Γ.vars.lookup text = none)
      (hmember : MemberDenotes Γ.program Γ.className text d) : Denotes Γ (.name span text) d
  | classNamed {span : Span} {text : String} (hvar : Γ.vars.lookup text = none)
      (hmember : ∀ d, ¬ MemberDenotes Γ.program Γ.className text d)
      (hclass : text ∈ Γ.program.classNames) : Denotes Γ (.name span text) (.classNamed text)
  | member {span : Span} {base : Ref} {name : Ident} {inner d : Denoted} {className : String}
      (hbase : Denotes Γ base inner) (hclass : inner.className? = some className)
      (hmember : MemberDenotes Γ.program className name.value d) :
      Denotes Γ (.member span base name) d

/-! ## Expressions -/

/-- A binary operator takes operands of two types and gives a result of a third. -/
inductive Operates : BinaryOp → Ty → Ty → Ty → Prop
  | logical {op : BinaryOp} (hop : op ∈ [BinaryOp.and, .or]) :
      Operates op .boolean .boolean .boolean
  | order {op : BinaryOp} (hop : op ∈ [BinaryOp.less, .lessEq, .greater, .greaterEq]) :
      Operates op .int .int .boolean
  | arithmetic {op : BinaryOp} (hop : op ∈ [BinaryOp.add, .sub, .mul, .div]) :
      Operates op .int .int .int
  | equality {op : BinaryOp} {a b : Ty} (hop : op ∈ [BinaryOp.equal, .notEqual])
      (hcomparable : a.Comparable b) : Operates op a b .boolean

mutual

/-- The type of an expression. -/
inductive HasType (Γ : Context) : Expr → Ty → Prop
  | int {span : Span} {value : Int32} : HasType Γ (.literal span (.int value)) .int
  | bool {span : Span} {value : Bool} : HasType Γ (.literal span (.bool value)) .boolean
  | null {span : Span} : HasType Γ (.literal span .null) .null
  | not {span : Span} {operand : Expr} (h : HasType Γ operand .boolean) :
      HasType Γ (.unary span .not operand) .boolean
  | neg {span : Span} {operand : Expr} (h : HasType Γ operand .int) :
      HasType Γ (.unary span .neg operand) .int
  | binary {span : Span} {op : BinaryOp} {left right : Expr} {a b result : Ty}
      (hleft : HasType Γ left a) (hright : HasType Γ right b) (hop : Operates op a b result) :
      HasType Γ (.binary span op left right) result
  | ref {target : Ref} {type : Ty} (h : Γ.Denotes target (.value type)) :
      HasType Γ (.ref target) type
  | index {span : Span} {target : Ref} {position : Expr} {element : Ty}
      (htarget : Γ.Denotes target (.value (.array element))) (hposition : HasType Γ position .int) :
      HasType Γ (.index span target position) element
  | call {span : Span} {method : Ref} {args : List Expr} {params : List Ty} {returns : Ty}
      (hmethod : Γ.Denotes method (.method params returns)) (hargs : ArgsFit Γ args params) :
      HasType Γ (.call span method args) returns
  | newObject {span : Span} {className : Ident} :
      HasType Γ (.newObject span className) (.object className.value)
  | newArray {span : Span} {element : Located Ty} {size : Expr}
      (helement : element.value = .int ∨ ∃ className, element.value = .object className)
      (hsize : HasType Γ size .int) : HasType Γ (.newArray span element size) (.array element.value)

/-- Arguments that fit parameters of these types, one for each. -/
inductive ArgsFit (Γ : Context) : List Expr → List Ty → Prop
  | nil : ArgsFit Γ [] []
  | cons {e : Expr} {es : List Expr} {type param : Ty} {params : List Ty} (he : HasType Γ e type)
      (hfits : type.Fits param) (hes : ArgsFit Γ es params) : ArgsFit Γ (e :: es) (param :: params)

end

/-- The expression has a type that fits the target. -/
def ExprFits (Γ : Context) (e : Expr) (target : Ty) : Prop :=
  ∃ type, HasType Γ e type ∧ type.Fits target

/-! ## Statements -/

/-- Some `return` stands in a statement. -/
inductive ReturnsIn : Stmt → Prop
  | ret {span : Span} {value : Option Expr} : ReturnsIn (.ret span value)
  | block {span : Span} {body : List Stmt} {s : Stmt} (hs : s ∈ body) (h : ReturnsIn s) :
      ReturnsIn (.block span body)
  | ifThen {span : Span} {test : Expr} {s : Stmt} (h : ReturnsIn s) :
      ReturnsIn (.ifThen span test s)
  | thenBranch {span : Span} {test : Expr} {s other : Stmt} (h : ReturnsIn s) :
      ReturnsIn (.ifThenElse span test s other)
  | elseBranch {span : Span} {test : Expr} {s other : Stmt} (h : ReturnsIn s) :
      ReturnsIn (.ifThenElse span test other s)
  | loop {span : Span} {test : Expr} {s : Stmt} (h : ReturnsIn s) : ReturnsIn (.loop span test s)

mutual

/-- A statement of a method with this result keeps the rules. -/
def StmtTyped (Γ : Context) (returns : Ty) : Stmt → Prop
  | .block _ body => StmtsTyped Γ returns body
  | .declare _ type _ init => ExprFits Γ init type.value
  | .assign _ target value => ∃ type, Γ.Denotes target (.value type) ∧ ExprFits Γ value type
  | .assignIndex _ target position value =>
    ∃ element, Γ.Denotes target (.value (.array element)) ∧ HasType Γ position .int ∧
      ExprFits Γ value element
  | .call _ method args => ∃ params result, Γ.Denotes method (.method params result) ∧
      ArgsFit Γ args params
  | .ret _ none => returns = .void
  | .ret _ (some value) => returns ≠ .void ∧ ExprFits Γ value returns
  | .ifThen _ test thenBranch => HasType Γ test .boolean ∧ StmtTyped Γ returns thenBranch
  | .ifThenElse _ test thenBranch elseBranch =>
    HasType Γ test .boolean ∧ StmtTyped Γ returns thenBranch ∧ StmtTyped Γ returns elseBranch
  | .loop _ test body => HasType Γ test .boolean ∧ StmtTyped Γ returns body

/-- Statements in turn keep the rules, each with the variables in front of it. -/
def StmtsTyped (Γ : Context) (returns : Ty) : List Stmt → Prop
  | [] => True
  | s :: ss => StmtTyped Γ returns s ∧
      StmtsTyped { Γ with vars := s.binding?.toList ++ Γ.vars } returns ss

end

/-! ## Programs -/

/-- A method keeps the rules. Unless its result is `void`, some `return` must stand in it. -/
structure MethodTyped (p : Program) (className : String) (m : MethodDecl) : Prop where
  body : StmtsTyped ⟨p, className, m.params.reverse.map fun q => (q.name.value, q.type.value)⟩
    m.returns.value m.body
  returns : m.returns.value ≠ .void → ∃ s ∈ m.body, ReturnsIn s

end Typing

/-- All methods of a program keep the rules. -/
def Program.WellTyped (p : Program) : Prop :=
  ∀ c ∈ p.classes, ∀ m ∈ c.methods, Typing.MethodTyped p c.name.value m

end MiniJava
