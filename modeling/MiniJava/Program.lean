import MiniJava.Source.Span
import MiniJava.Ty

/-!
# Programs

The tree of a program. Every node keeps the range of source it was read from.
-/

namespace MiniJava

/-- A reference: the receiver, a plain name, or a member of another reference. -/
inductive Ref
  | this (span : Span)
  | name (span : Span) (text : String)
  | member (span : Span) (base : Ref) (field : Ident)
  deriving DecidableEq, Repr, Inhabited

namespace Ref

/-- The range of a reference. -/
def span : Ref → Span
  | this span | name span _ | member span _ _ => span

/-- The same reference with another range. -/
def withSpan (span : Span) : Ref → Ref
  | this _ => this span
  | name _ text => name span text
  | member _ base field => member span base field

/-- How a reference is written. -/
def text : Ref → String
  | this _ => "this"
  | name _ text => text
  | member _ base field => base.text ++ "." ++ field.value

end Ref

/-- Operators with one operand. -/
inductive UnaryOp
  | not
  | neg
  deriving DecidableEq, Repr

/-- How an operator is written. -/
def UnaryOp.text : UnaryOp → String
  | not => "!"
  | neg => "-"

/-- Operators with two operands. -/
inductive BinaryOp
  | or | and | equal | notEqual | less | lessEq | greater | greaterEq
  | add | sub | mul | div
  deriving DecidableEq, Repr

/-- How an operator is written. -/
def BinaryOp.text : BinaryOp → String
  | or => "||"
  | and => "&&"
  | equal => "=="
  | notEqual => "!="
  | less => "<"
  | lessEq => "<="
  | greater => ">"
  | greaterEq => ">="
  | add => "+"
  | sub => "-"
  | mul => "*"
  | div => "/"

/-- Values that are written out. -/
inductive Literal
  | int (value : Int32)
  | bool (value : Bool)
  | null
  deriving DecidableEq, Repr

/-- Expressions. -/
inductive Expr
  | literal (span : Span) (value : Literal)
  | unary (span : Span) (op : UnaryOp) (operand : Expr)
  | binary (span : Span) (op : BinaryOp) (left right : Expr)
  | ref (target : Ref)
  | index (span : Span) (target : Ref) (position : Expr)
  | call (span : Span) (method : Ref) (args : List Expr)
  | newObject (span : Span) (className : Ident)
  | newArray (span : Span) (element : Located Ty) (size : Expr)
  deriving Repr, Inhabited

namespace Expr

/-- The range of an expression. -/
def span : Expr → Span
  | literal span _ | unary span _ _ | binary span _ _ _ | index span _ _ | call span _ _
  | newObject span _ | newArray span _ _ => span
  | ref target => target.span

/-- The same expression with another range, as parentheses give it. -/
def withSpan (span : Span) : Expr → Expr
  | literal _ value => literal span value
  | unary _ op operand => unary span op operand
  | binary _ op left right => binary span op left right
  | ref target => ref (target.withSpan span)
  | index _ target position => index span target position
  | call _ method args => call span method args
  | newObject _ className => newObject span className
  | newArray _ element size => newArray span element size

end Expr

/-- Statements. -/
inductive Stmt
  | block (span : Span) (body : List Stmt)
  | declare (span : Span) (type : Located Ty) (name : Ident) (init : Expr)
  | assign (span : Span) (target : Ref) (value : Expr)
  | assignIndex (span : Span) (target : Ref) (position value : Expr)
  | call (span : Span) (method : Ref) (args : List Expr)
  | ret (span : Span) (value : Option Expr)
  | ifThen (span : Span) (condition : Expr) (thenBranch : Stmt)
  | ifThenElse (span : Span) (condition : Expr) (thenBranch elseBranch : Stmt)
  | loop (span : Span) (condition : Expr) (body : Stmt)
  deriving Repr, Inhabited

/-- The range of a statement. -/
def Stmt.span : Stmt → Span
  | block span _ | declare span _ _ _ | assign span _ _ | assignIndex span _ _ _ | call span _ _
  | ret span _ | ifThen span _ _ | ifThenElse span _ _ _ | loop span _ _ => span

/-- A field of a class. The owner is the name of that class. -/
structure FieldDecl where
  span : Span
  isPrivate : Bool
  isStatic : Bool
  type : Located Ty
  name : Ident
  owner : String
  deriving DecidableEq, Repr

/-- A parameter of a method. -/
structure Param where
  span : Span
  type : Located Ty
  name : Ident
  deriving DecidableEq, Repr

/-- A method of a class. The owner is the name of that class. -/
structure MethodDecl where
  span : Span
  isPrivate : Bool
  isStatic : Bool
  returns : Located Ty
  name : Ident
  owner : String
  params : List Param
  body : List Stmt
  deriving Repr

/-- A class: its fields and its methods, each in the order of the source. -/
structure ClassDecl where
  span : Span
  name : Ident
  fields : List FieldDecl
  methods : List MethodDecl
  deriving Repr

namespace ClassDecl

/-- The first field with this name. -/
def field? (c : ClassDecl) (name : String) : Option FieldDecl :=
  c.fields.find? (·.name.value = name)

/-- The first method with this name. -/
def method? (c : ClassDecl) (name : String) : Option MethodDecl :=
  c.methods.find? (·.name.value = name)

end ClassDecl

/-- A program: its classes in the order of the source. -/
structure Program where
  classes : List ClassDecl
  deriving Repr

end MiniJava
