import Mathlib.Data.Nat.Digits.Defs
import MiniJava.Grammar.Program

/-!
# Rules of the grammar

Which sequences of tokens form a type, an expression, a statement or a program, and which tree they
stand for (`FormsProgram`). The ranges of the tree are of no concern here.

Expressions stand in eight levels (`FormsExpr`). A binary operator of one level has an operand of
its own level on the left and one of the next level on the right, so it groups to the left and
tighter operators are below it.

A statement with `else` can be formed in several ways if there is more than one `if` that the `else`
could belong to. The trees in which it belongs to the nearest one are those with `Stmt.ElseBound`:
no branch in front of an `else` ends with an `if` that is still open.
-/

namespace MiniJava

/-! ## Trees without ranges -/

/-- The same value with no range. -/
def Located.bare {α : Type} (x : Located α) : Located α := ⟨x.value, Span.builtin⟩

/-- The same reference with no ranges. -/
def Ref.bare : Ref → Ref
  | .this _ => .this Span.builtin
  | .name _ text => .name Span.builtin text
  | .member _ base field => .member Span.builtin base.bare field.bare

mutual

/-- The same expression with no ranges. -/
def Expr.bare : Expr → Expr
  | .literal _ value => .literal Span.builtin value
  | .unary _ op operand => .unary Span.builtin op operand.bare
  | .binary _ op left right => .binary Span.builtin op left.bare right.bare
  | .ref target => .ref target.bare
  | .index _ target position => .index Span.builtin target.bare position.bare
  | .call _ method args => .call Span.builtin method.bare (Expr.bareOf args)
  | .newObject _ className => .newObject Span.builtin className.bare
  | .newArray _ element size => .newArray Span.builtin element.bare size.bare

/-- The same expressions with no ranges. -/
def Expr.bareOf : List Expr → List Expr
  | [] => []
  | e :: es => e.bare :: Expr.bareOf es

end

mutual

/-- The same statement with no ranges. -/
def Stmt.bare : Stmt → Stmt
  | .block _ body => .block Span.builtin (Stmt.bareOf body)
  | .declare _ type name init => .declare Span.builtin type.bare name.bare init.bare
  | .assign _ target value => .assign Span.builtin target.bare value.bare
  | .assignIndex _ target position value =>
    .assignIndex Span.builtin target.bare position.bare value.bare
  | .call _ method args => .call Span.builtin method.bare (Expr.bareOf args)
  | .ret _ value => .ret Span.builtin (value.map Expr.bare)
  | .ifThen _ test thenBranch => .ifThen Span.builtin test.bare thenBranch.bare
  | .ifThenElse _ test thenBranch elseBranch =>
    .ifThenElse Span.builtin test.bare thenBranch.bare elseBranch.bare
  | .loop _ test body => .loop Span.builtin test.bare body.bare

/-- The same statements with no ranges. -/
def Stmt.bareOf : List Stmt → List Stmt
  | [] => []
  | s :: ss => s.bare :: Stmt.bareOf ss

end

/-- The same parameter with no ranges. -/
def Param.bare (q : Param) : Param := ⟨Span.builtin, q.type.bare, q.name.bare⟩

/-- The same field with no ranges. -/
def FieldDecl.bare (f : FieldDecl) : FieldDecl :=
  { f with span := Span.builtin, type := f.type.bare, name := f.name.bare }

/-- The same method with no ranges. -/
def MethodDecl.bare (m : MethodDecl) : MethodDecl where
  span := Span.builtin
  isPrivate := m.isPrivate
  isStatic := m.isStatic
  returns := m.returns.bare
  name := m.name.bare
  owner := m.owner
  params := m.params.map Param.bare
  body := Stmt.bareOf m.body

/-- The same class with no ranges. -/
def ClassDecl.bare (c : ClassDecl) : ClassDecl :=
  ⟨Span.builtin, c.name.bare, c.fields.map FieldDecl.bare, c.methods.map MethodDecl.bare⟩

/-- The same program with no ranges. -/
def Program.bare (p : Program) : Program := ⟨p.classes.map ClassDecl.bare⟩

/-! ## The nearest `if` -/

/-- The statement ends with an `if` to which an `else` could be added. -/
def Stmt.EndsOpen : Stmt → Prop
  | .ifThen _ _ _ => True
  | .ifThenElse _ _ _ elseBranch => elseBranch.EndsOpen
  | .loop _ _ body => body.EndsOpen
  | _ => False

mutual

/-- Every `else` in the statement belongs to the nearest `if` that is open in front of it. -/
def Stmt.ElseBound : Stmt → Prop
  | .block _ body => Stmt.AllElseBound body
  | .ifThen _ _ thenBranch => thenBranch.ElseBound
  | .ifThenElse _ _ thenBranch elseBranch =>
    ¬ thenBranch.EndsOpen ∧ thenBranch.ElseBound ∧ elseBranch.ElseBound
  | .loop _ _ body => body.ElseBound
  | .declare _ _ _ _ | .assign _ _ _ | .assignIndex _ _ _ _ | .call _ _ _ | .ret _ _ => True

/-- Every `else` in the statements belongs to the nearest open `if`. -/
def Stmt.AllElseBound : List Stmt → Prop
  | [] => True
  | s :: ss => s.ElseBound ∧ Stmt.AllElseBound ss

end

/-- Every `else` of a program belongs to the nearest `if` that is open in front of it. -/
def Program.ElseBound (p : Program) : Prop :=
  ∀ c ∈ p.classes, ∀ m ∈ c.methods, Stmt.AllElseBound m.body

/-! ## Terminals -/

/-- What the grammar sees of a token. -/
inductive Terminal
  | keyword (k : Keyword)
  | symbol (s : Symbol)
  | number (digits : String)
  | identifier (text : String)
  | endOfFile
  | invalid
  deriving DecidableEq

/-- What the grammar sees of a token of this class: the text only where it matters. -/
@[simp]
def TokenKind.terminal (text : String) : TokenKind → Terminal
  | keyword k => .keyword k
  | symbol s => .symbol s
  | number => .number text
  | identifier => .identifier text
  | endOfFile => .endOfFile
  | invalid _ => .invalid

/-- What the grammar sees of a token. -/
def Token.terminal (t : Token) : Terminal := t.kind.terminal t.text

namespace Grammar

/-- Sequences of terminals that form something, together with what they form. -/
abbrev Nonterminal (α : Type) := List Terminal → α → Prop

/-- Any number of items, one behind the other. -/
inductive Many {α : Type} (item : Nonterminal α) : Nonterminal (List α)
  | nil : Many item [] []
  | cons {ts us : List Terminal} {a : α} {as : List α} (ha : item ts a) (has : Many item us as) :
      Many item (ts ++ us) (a :: as)

/-- One or more items with commas between them. -/
inductive Separated {α : Type} (item : Nonterminal α) : Nonterminal (List α)
  | single {ts : List Terminal} {a : α} (ha : item ts a) : Separated item ts [a]
  | cons {ts us : List Terminal} {a : α} {as : List α} (ha : item ts a)
      (has : Separated item us as) : Separated item (ts ++ .symbol .comma :: us) (a :: as)

/-! ## Types and references -/

/-- The tokens form a type. -/
inductive FormsType : Nonterminal Ty
  | int : FormsType [.keyword .intKw] .int
  | intArray :
      FormsType [.keyword .intKw, .symbol .openBracket, .symbol .closeBracket] (.array .int)
  | boolean : FormsType [.keyword .booleanKw] .boolean
  | object {text : String} : FormsType [.identifier text] (.object text)
  | objectArray {text : String} :
      FormsType [.identifier text, .symbol .openBracket, .symbol .closeBracket]
        (.array (.object text))

/-- The tokens form a reference. -/
inductive FormsRef : Nonterminal Ref
  | this {span : Span} : FormsRef [.keyword .thisKw] (.this span)
  | name {span : Span} {text : String} : FormsRef [.identifier text] (.name span text)
  | member {span : Span} {ts : List Terminal} {base : Ref} {field : Ident}
      (hbase : FormsRef ts base) :
      FormsRef (ts ++ [.symbol .dot, .identifier field.value]) (.member span base field)

/-! ## Expressions -/

/-- The binary operators of the levels from the loosest to the tightest. -/
inductive BinaryAt : Nat → Symbol → BinaryOp → Prop
  | or : BinaryAt 0 .or .or
  | and : BinaryAt 1 .and .and
  | equal : BinaryAt 2 .equal .equal
  | notEqual : BinaryAt 2 .notEqual .notEqual
  | less : BinaryAt 3 .less .less
  | lessEq : BinaryAt 3 .lessEq .lessEq
  | greater : BinaryAt 3 .greater .greater
  | greaterEq : BinaryAt 3 .greaterEq .greaterEq
  | add : BinaryAt 4 .plus .add
  | sub : BinaryAt 4 .minus .sub
  | mul : BinaryAt 5 .times .mul
  | div : BinaryAt 5 .divide .div

/-- The unary operators. -/
inductive UnaryOf : Symbol → UnaryOp → Prop
  | not : UnaryOf .not .not
  | neg : UnaryOf .minus .neg

/-- The number that decimal digits stand for. Zeros in front do not matter. -/
def literalValue (digits : String) : Nat :=
  Nat.ofDigits 10 (digits.toList.map fun c => c.toNat - '0'.toNat).reverse

/-- The tokens form an expression of this level: 0 to 5 for the binary operators, 6 for the unary
ones, and 7 for what needs no operator. What is of a tighter level is also of the looser ones. -/
inductive FormsExpr : Nat → Nonterminal Expr
  | binary {n : Nat} {ts us : List Terminal} {s : Symbol} {op : BinaryOp} {span : Span}
      {left right : Expr} (hop : BinaryAt n s op) (hleft : FormsExpr n ts left)
      (hright : FormsExpr (n + 1) us right) :
      FormsExpr n (ts ++ .symbol s :: us) (.binary span op left right)
  | tighter {n : Nat} {ts : List Terminal} {e : Expr} (h : FormsExpr (n + 1) ts e) :
      FormsExpr n ts e
  | unary {ts : List Terminal} {s : Symbol} {op : UnaryOp} {span : Span} {operand : Expr}
      (hop : UnaryOf s op) (h : FormsExpr 6 ts operand) :
      FormsExpr 6 (.symbol s :: ts) (.unary span op operand)
  | number {digits : String} {span : Span} (hrange : literalValue digits ≤ 2147483647) :
      FormsExpr 7 [.number digits] (.literal span (.int (Int32.ofNat (literalValue digits))))
  | true {span : Span} : FormsExpr 7 [.keyword .trueKw] (.literal span (.bool Bool.true))
  | false {span : Span} : FormsExpr 7 [.keyword .falseKw] (.literal span (.bool Bool.false))
  | null {span : Span} : FormsExpr 7 [.keyword .nullKw] (.literal span .null)
  | paren {ts : List Terminal} {span : Span} {e : Expr} (h : FormsExpr 0 ts e) :
      FormsExpr 7 (.symbol .openParen :: ts ++ [.symbol .closeParen]) (e.withSpan span)
  | newObject {span : Span} {className : Ident} :
      FormsExpr 7 [.keyword .newKw, .identifier className.value, .symbol .openParen,
        .symbol .closeParen] (.newObject span className)
  | newArray {ts : List Terminal} {span elementSpan : Span} {className : String} {size : Expr}
      (h : FormsExpr 0 ts size) :
      FormsExpr 7 (.keyword .newKw :: .identifier className :: .symbol .openBracket :: ts ++
        [.symbol .closeBracket]) (.newArray span ⟨.object className, elementSpan⟩ size)
  | newIntArray {ts : List Terminal} {span elementSpan : Span} {size : Expr}
      (h : FormsExpr 0 ts size) :
      FormsExpr 7 (.keyword .newKw :: .keyword .intKw :: .symbol .openBracket :: ts ++
        [.symbol .closeBracket]) (.newArray span ⟨.int, elementSpan⟩ size)
  | ref {ts : List Terminal} {target : Ref} (h : FormsRef ts target) :
      FormsExpr 7 ts (.ref target)
  | index {ts us : List Terminal} {span : Span} {target : Ref} {position : Expr}
      (htarget : FormsRef ts target) (hposition : FormsExpr 0 us position) :
      FormsExpr 7 (ts ++ .symbol .openBracket :: us ++ [.symbol .closeBracket])
        (.index span target position)
  | callNone {ts : List Terminal} {span : Span} {method : Ref} (hmethod : FormsRef ts method) :
      FormsExpr 7 (ts ++ [.symbol .openParen, .symbol .closeParen]) (.call span method [])
  | call {ts us : List Terminal} {span : Span} {method : Ref} {args : List Expr}
      (hmethod : FormsRef ts method) (hargs : Separated (FormsExpr 0) us args) :
      FormsExpr 7 (ts ++ .symbol .openParen :: us ++ [.symbol .closeParen])
        (.call span method args)

/-- Induction on how an expression is formed. -/
@[elab_as_elim]
theorem FormsExpr.induct {motive : ∀ n ts e, FormsExpr n ts e → Prop}
    (binary : ∀ {n ts us s op span left right} (hop : BinaryAt n s op) (hleft : FormsExpr n ts left)
      (hright : FormsExpr (n + 1) us right), motive n ts left hleft →
      motive (n + 1) us right hright →
      motive n _ (.binary span op left right) (.binary hop hleft hright))
    (tighter : ∀ {n ts e} (h : FormsExpr (n + 1) ts e), motive (n + 1) ts e h →
      motive n ts e (.tighter h))
    (unary : ∀ {ts s op span operand} (hop : UnaryOf s op) (h : FormsExpr 6 ts operand),
      motive 6 ts operand h → motive 6 _ (.unary span op operand) (.unary hop h))
    (number : ∀ {digits span} (hrange : literalValue digits ≤ 2147483647),
      motive 7 _ (.literal span (.int (Int32.ofNat (literalValue digits)))) (.number hrange))
    (true : ∀ {span}, motive 7 _ (.literal span (.bool Bool.true)) .true)
    (false : ∀ {span}, motive 7 _ (.literal span (.bool Bool.false)) .false)
    (null : ∀ {span}, motive 7 _ (.literal span .null) .null)
    (paren : ∀ {ts span e} (h : FormsExpr 0 ts e), motive 0 ts e h →
      motive 7 _ (e.withSpan span) (.paren h))
    (newObject : ∀ {span className}, motive 7 _ (.newObject span className) .newObject)
    (newArray : ∀ {ts span elementSpan className size} (h : FormsExpr 0 ts size),
      motive 0 ts size h →
      motive 7 _ (.newArray span ⟨.object className, elementSpan⟩ size) (.newArray h))
    (newIntArray : ∀ {ts span elementSpan size} (h : FormsExpr 0 ts size), motive 0 ts size h →
      motive 7 _ (.newArray span ⟨.int, elementSpan⟩ size) (.newIntArray h))
    (ref : ∀ {ts target} (h : FormsRef ts target), motive 7 _ (.ref target) (.ref h))
    (index : ∀ {ts us span target position} (htarget : FormsRef ts target)
      (hposition : FormsExpr 0 us position), motive 0 us position hposition →
      motive 7 _ (.index span target position) (.index htarget hposition))
    (callNone : ∀ {ts span method} (hmethod : FormsRef ts method),
      motive 7 _ (.call span method []) (.callNone hmethod))
    (call : ∀ {ts us span method args} (hmethod : FormsRef ts method)
      (hargs : Separated (FormsExpr 0) us args),
      Separated (fun ts e => ∃ h, motive 0 ts e h) us args →
      motive 7 _ (.call span method args) (.call hmethod hargs))
    {n : Nat} {ts : List Terminal} {e : Expr} (h : FormsExpr n ts e) : motive n ts e h :=
  @FormsExpr.rec motive (fun us args _ => Separated (fun ts e => ∃ h, motive 0 ts e h) us args)
    binary tighter unary number true false null paren newObject newArray newIntArray ref index
    callNone call (fun h ih => .single ⟨h, ih⟩) (fun h _ ih ihs => .cons ⟨h, ih⟩ ihs) n ts e h

/-! ## Statements -/

/-- The tokens form a statement. -/
inductive FormsStmt : Nonterminal Stmt
  | block {ts : List Terminal} {span : Span} {body : List Stmt} (h : Many FormsStmt ts body) :
      FormsStmt (.symbol .openBrace :: ts ++ [.symbol .closeBrace]) (.block span body)
  | declare {ts us : List Terminal} {span : Span} {type : Located Ty} {name : Ident} {init : Expr}
      (htype : FormsType ts type.value) (hinit : FormsExpr 0 us init) :
      FormsStmt (ts ++ .identifier name.value :: .symbol .assign :: us ++ [.symbol .semicolon])
        (.declare span type name init)
  | assign {ts us : List Terminal} {span : Span} {target : Ref} {value : Expr}
      (htarget : FormsRef ts target) (hvalue : FormsExpr 0 us value) :
      FormsStmt (ts ++ .symbol .assign :: us ++ [.symbol .semicolon]) (.assign span target value)
  | assignIndex {ts us vs : List Terminal} {span : Span} {target : Ref} {position value : Expr}
      (htarget : FormsRef ts target) (hposition : FormsExpr 0 us position)
      (hvalue : FormsExpr 0 vs value) :
      FormsStmt (ts ++ .symbol .openBracket :: us ++ .symbol .closeBracket ::
        .symbol .assign :: vs ++ [.symbol .semicolon]) (.assignIndex span target position value)
  | callNone {ts : List Terminal} {span : Span} {method : Ref} (hmethod : FormsRef ts method) :
      FormsStmt (ts ++ [.symbol .openParen, .symbol .closeParen, .symbol .semicolon])
        (.call span method [])
  | call {ts us : List Terminal} {span : Span} {method : Ref} {args : List Expr}
      (hmethod : FormsRef ts method) (hargs : Separated (FormsExpr 0) us args) :
      FormsStmt (ts ++ .symbol .openParen :: us ++ [.symbol .closeParen, .symbol .semicolon])
        (.call span method args)
  | retNone {span : Span} : FormsStmt [.keyword .returnKw, .symbol .semicolon] (.ret span none)
  | ret {ts : List Terminal} {span : Span} {value : Expr} (h : FormsExpr 0 ts value) :
      FormsStmt (.keyword .returnKw :: ts ++ [.symbol .semicolon]) (.ret span (some value))
  | ifThen {ts us : List Terminal} {span : Span} {test : Expr} {thenBranch : Stmt}
      (htest : FormsExpr 0 ts test) (hthen : FormsStmt us thenBranch) :
      FormsStmt (.keyword .ifKw :: .symbol .openParen :: ts ++ .symbol .closeParen :: us)
        (.ifThen span test thenBranch)
  | ifThenElse {ts us vs : List Terminal} {span : Span} {test : Expr} {thenBranch elseBranch : Stmt}
      (htest : FormsExpr 0 ts test) (hthen : FormsStmt us thenBranch)
      (helse : FormsStmt vs elseBranch) :
      FormsStmt (.keyword .ifKw :: .symbol .openParen :: ts ++ .symbol .closeParen :: us ++
        .keyword .elseKw :: vs) (.ifThenElse span test thenBranch elseBranch)
  | loop {ts us : List Terminal} {span : Span} {test : Expr} {body : Stmt}
      (htest : FormsExpr 0 ts test) (hbody : FormsStmt us body) :
      FormsStmt (.keyword .whileKw :: .symbol .openParen :: ts ++ .symbol .closeParen :: us)
        (.loop span test body)

/-! ## Classes -/

/-- The tokens form a parameter. -/
inductive FormsParam : Nonterminal Param
  | mk {ts : List Terminal} {span : Span} {type : Located Ty} {name : Ident}
      (htype : FormsType ts type.value) :
      FormsParam (ts ++ [.identifier name.value]) ⟨span, type, name⟩

/-- The tokens say whether a member is private. -/
inductive FormsAccess : Nonterminal Bool
  | unsaid : FormsAccess [] false
  | isPublic : FormsAccess [.keyword .publicKw] false
  | isPrivate : FormsAccess [.keyword .privateKw] true

/-- The tokens say whether a member is static. -/
inductive FormsStatic : Nonterminal Bool
  | unsaid : FormsStatic [] false
  | isStatic : FormsStatic [.keyword .staticKw] true

/-- The tokens form the result of a method: a type or `void`. -/
inductive FormsResult : Nonterminal Ty
  | void : FormsResult [.keyword .voidKw] .void
  | type {ts : List Terminal} {type : Ty} (h : FormsType ts type) : FormsResult ts type

/-- The tokens form the parameters of a method between their parentheses. -/
inductive FormsParams : Nonterminal (List Param)
  | none : FormsParams [] []
  | some {ts : List Terminal} {params : List Param} (h : Separated FormsParam ts params) :
      FormsParams ts params

/-- The tokens form a member of the class with the given name. A field is not `void`. -/
inductive FormsMember (owner : String) : Nonterminal Member
  | field {vs ss ts : List Terminal} {span : Span} {isPrivate isStatic : Bool} {type : Located Ty}
      {name : Ident} (haccess : FormsAccess vs isPrivate) (hstatic : FormsStatic ss isStatic)
      (htype : FormsType ts type.value) :
      FormsMember owner (vs ++ ss ++ ts ++ [.identifier name.value, .symbol .semicolon])
        (.field ⟨span, isPrivate, isStatic, type, name, owner⟩)
  | method {vs ss ts ps bs : List Terminal} {span : Span} {isPrivate isStatic : Bool}
      {returns : Located Ty} {name : Ident} {params : List Param} {body : List Stmt}
      (haccess : FormsAccess vs isPrivate) (hstatic : FormsStatic ss isStatic)
      (hreturns : FormsResult ts returns.value) (hparams : FormsParams ps params)
      (hbody : Many FormsStmt bs body) :
      FormsMember owner (vs ++ ss ++ ts ++ .identifier name.value :: .symbol .openParen :: ps ++
        .symbol .closeParen :: .symbol .openBrace :: bs ++ [.symbol .closeBrace])
        (.method ⟨span, isPrivate, isStatic, returns, name, owner, params, body⟩)

/-- The tokens form a class. Its members are kept apart as fields and methods. -/
inductive FormsClass : Nonterminal ClassDecl
  | mk {ts : List Terminal} {span : Span} {name : Ident} {members : List Member}
      (h : Many (FormsMember name.value) ts members) :
      FormsClass (.keyword .classKw :: .identifier name.value :: .symbol .openBrace :: ts ++
        [.symbol .closeBrace])
        ⟨span, name, members.filterMap Member.field?, members.filterMap Member.method?⟩

/-- The tokens form a program. -/
inductive FormsProgram : Nonterminal Program
  | mk {ts : List Terminal} {classes : List ClassDecl} (h : Many FormsClass ts classes) :
      FormsProgram (ts ++ [.endOfFile]) ⟨classes⟩

end Grammar

end MiniJava
