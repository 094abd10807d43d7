import MiniJava.Grammar.Parser
import MiniJava.Program

/-!
# Grammar of expressions

Binary operators stand in six levels, from the loosest to the tightest, and each
level groups to the left. Above them stand the unary operators, then literals,
references with their uses, creations and parentheses.
-/

namespace MiniJava.Grammar

open MiniJava.Parser

/-- The greatest value that an integer literal may have. -/
def maxLiteral : Nat := 2147483647

/-- The number that a string of decimal digits stands for. -/
def decimalValue (digits : List Char) : Nat :=
  digits.foldl (fun value c => 10 * value + (c.toNat - '0'.toNat)) 0

/-- The levels of binary operators, the loosest first. -/
def precedence : List (List (Symbol × BinaryOp)) :=
  [[(.or, .or)], [(.and, .and)], [(.equal, .equal), (.notEqual, .notEqual)],
   [(.less, .less), (.lessEq, .lessEq), (.greater, .greater), (.greaterEq, .greaterEq)],
   [(.plus, .add), (.minus, .sub)],
   [(.times, .mul), (.divide, .div)]]

/-- The operator of a level that a token stands for. -/
def binaryOp? (level : List (Symbol × BinaryOp)) : TokenKind → Option BinaryOp
  | .symbol s => level.lookup s
  | _ => none

/-- The unary operator that a token stands for. -/
def unaryOp? : TokenKind → Option UnaryOp
  | .symbol .not => some .not
  | .symbol .minus => some .neg
  | _ => none

/-- Members that follow a reference. -/
def members : Nat → Ref → Parser Ref
  | 0, base => return base
  | n + 1, base => do
    if (← accept (.symbol .dot)) then
      let field ← ident
      members n (.member (base.span.join field.span) base field)
    else return base

/-- Further operands of one level, grouped to the left. -/
def operands (level : List (Symbol × BinaryOp)) (operand : Parser Expr) : Nat → Expr → Parser Expr
  | 0, left => return left
  | n + 1, left => do
    match binaryOp? level (← peek) with
    | some op =>
      let _ ← advance
      let right ← operand
      operands level operand n (.binary (left.span.join right.span) op left right)
    | none => return left

/-- Binary expressions over the given levels. -/
def binary (operand : Parser Expr) (bound : Nat) : List (List (Symbol × BinaryOp)) → Parser Expr
  | [] => operand
  | level :: tighter => do
    let left ← binary operand bound tighter
    operands level (binary operand bound tighter) bound left

/-- Unary operators in front of a primary expression. -/
def unary (primary : Parser Expr) : Nat → Parser Expr
  | 0 => primary
  | n + 1 => do
    match unaryOp? (← peek) with
    | some op =>
      let token ← advance
      let operand ← unary primary n
      return .unary (token.span.join operand.span) op operand
    | none => primary

/-- An integer literal. -/
def number : Parser Expr := do
  let token ← advance
  let value := decimalValue token.text.toList
  if value ≤ maxLiteral then return .literal token.span (.int (Int32.ofNat value))
  else fail (.literalOutOfRange token.text) token.span

/-- The size of a new array in brackets, of which the opening one is taken. -/
def arraySize (expr : Parser Expr) (start : Span) (element : Located Ty) : Parser Expr := do
  let size ← expr
  expectSymbol .closeBracket
  return .newArray (← spanFrom start) element size

/-- A creation, behind the word `new`. -/
def creation (expr : Parser Expr) (start : Span) : Parser Expr := do
  match (← peek) with
  | .identifier =>
    let className ← ident
    if (← accept (.symbol .openParen)) then
      expectSymbol .closeParen
      return .newObject (← spanFrom start) className
    else if (← accept (.symbol .openBracket)) then
      arraySize expr start ⟨.object className.value, className.span⟩
    else unexpected .instanceOrArray
  | .keyword .intKw =>
    let token ← advance
    expectSymbol .openBracket
    arraySize expr start ⟨.int, token.span⟩
  | _ => unexpected .creation

/-- What is made of a reference in an expression: an element, a call, or its value. -/
def useOfReference (expr : Parser Expr) (bound : Nat) (start : Span) (target : Ref) :
    Parser Expr := do
  if (← accept (.symbol .openBracket)) then
    let position ← expr
    expectSymbol .closeBracket
    return .index (← spanFrom start) target position
  else if (← accept (.symbol .openParen)) then
    let args ← closeList expr bound
    return .call (← spanFrom start) target args
  else return .ref target

/-- An expression without operators outside of parentheses. -/
def primary (expr : Parser Expr) (bound : Nat) : Parser Expr := do
  let start ← here
  match (← peek) with
  | .number => number
  | .keyword .trueKw =>
    let token ← advance
    return .literal token.span (.bool true)
  | .keyword .falseKw =>
    let token ← advance
    return .literal token.span (.bool false)
  | .keyword .nullKw =>
    let token ← advance
    return .literal token.span .null
  | .symbol .openParen =>
    let _ ← advance
    let inner ← expr
    expectSymbol .closeParen
    return inner.withSpan (← spanFrom start)
  | .keyword .newKw =>
    let _ ← advance
    creation expr start
  | .keyword .thisKw =>
    let token ← advance
    let target ← members bound (.this token.span)
    useOfReference expr bound start target
  | .identifier =>
    let token ← advance
    let target ← members bound (.name token.span token.text)
    useOfReference expr bound start target
  | _ => unexpected .expression

/-- An expression in which expressions are nested less deeply than the bound. -/
def exprWithin : Nat → Parser Expr
  | 0 => unexpected .expression
  | n + 1 => binary (unary (primary (exprWithin n) n) n) n precedence

/-- An expression. -/
def expr : Parser Expr := bounded exprWithin

end MiniJava.Grammar
