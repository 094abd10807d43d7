import MiniJava.Grammar.Expr

/-!
# Grammar of types and statements

A statement that begins with a name may turn out to be a declaration, whose type
that name is, or a use of a reference that begins with it. The token behind the
name, or behind its opening bracket, decides.
-/

namespace MiniJava.Grammar

open MiniJava.Parser

/-- The brackets that may follow the name of an element type. -/
def arrayOrPlain (start : Span) (element : Ty) : Parser (Located Ty) := do
  if (← accept (.symbol .openBracket)) then
    expectSymbol .closeBracket
    return ⟨.array element, ← spanFrom start⟩
  else return ⟨element, start⟩

/-- A type. There are no arrays of truth values. -/
def type : Parser (Located Ty) := do
  let start ← here
  match (← peek) with
  | .keyword .intKw =>
    let _ ← advance
    arrayOrPlain start .int
  | .keyword .booleanKw =>
    let _ ← advance
    return ⟨.boolean, start⟩
  | .identifier =>
    let token ← advance
    arrayOrPlain start (.object token.text)
  | _ => unexpected .type

/-- The rest of a declaration behind its type. -/
def declaration (start : Span) (type : Located Ty) : Parser Stmt := do
  let name ← ident
  expectSymbol .assign
  let init ← expr
  expectSymbol .semicolon
  return .declare (← spanFrom start) type name init

/-- The rest of an assignment to an element behind the opening bracket. -/
def elementAssignment (start : Span) (target : Ref) : Parser Stmt := do
  let position ← expr
  expectSymbol .closeBracket
  expectSymbol .assign
  let value ← expr
  expectSymbol .semicolon
  return .assignIndex (← spanFrom start) target position value

/-- The rest of a statement behind the reference that it begins with. -/
def referenceStmt (bound : Nat) (start : Span) (target : Ref) : Parser Stmt := do
  match (← peek) with
  | .symbol .assign =>
    let _ ← advance
    let value ← expr
    expectSymbol .semicolon
    return .assign (← spanFrom start) target value
  | .symbol .openBracket =>
    let _ ← advance
    elementAssignment start target
  | .symbol .openParen =>
    let _ ← advance
    let args ← closeList expr bound
    expectSymbol .semicolon
    return .call (← spanFrom start) target args
  | _ => unexpected .useOfReference

/-- A statement that begins with a name. -/
def nameStmt (bound : Nat) (start : Span) : Parser Stmt := do
  let token ← advance
  match (← peek) with
  | .identifier => declaration start ⟨.object token.text, token.span⟩
  | .symbol .openBracket =>
    let _ ← advance
    if (← accept (.symbol .closeBracket)) then
      declaration start ⟨.array (.object token.text), ← spanFrom start⟩
    else elementAssignment start (.name token.span token.text)
  | _ =>
    let target ← members bound (.name token.span token.text)
    referenceStmt bound start target

/-- A condition in parentheses. -/
def condition : Parser Expr := do
  expectSymbol .openParen
  let test ← expr
  expectSymbol .closeParen
  return test

/-- A return statement behind its first word. -/
def returnStmt (start : Span) : Parser Stmt := do
  if (← peek) = .symbol .semicolon then
    expectSymbol .semicolon
    return .ret (← spanFrom start) none
  else
    let value ← expr
    expectSymbol .semicolon
    return .ret (← spanFrom start) (some value)

/-- A conditional statement behind its first word. An `else` belongs to the
nearest `if` that is still open. -/
def ifStmt (stmt : Parser Stmt) (start : Span) : Parser Stmt := do
  let test ← condition
  let thenBranch ← stmt
  if (← accept (.keyword .elseKw)) then
    let elseBranch ← stmt
    return .ifThenElse (← spanFrom start) test thenBranch elseBranch
  else return .ifThen (← spanFrom start) test thenBranch

/-- A statement, given how to read the statements inside it. -/
def stmtOver (stmt : Parser Stmt) (bound : Nat) : Parser Stmt := do
  let start ← here
  match (← peek) with
  | .symbol .openBrace =>
    let _ ← advance
    let body ← manyUntil (.symbol .closeBrace) stmt bound
    return .block (← spanFrom start) body
  | .keyword .intKw | .keyword .booleanKw =>
    let written ← type
    declaration start written
  | .keyword .returnKw =>
    let _ ← advance
    returnStmt start
  | .keyword .ifKw =>
    let _ ← advance
    ifStmt stmt start
  | .keyword .whileKw =>
    let _ ← advance
    let test ← condition
    let body ← stmt
    return .loop (← spanFrom start) test body
  | .keyword .thisKw =>
    let token ← advance
    let target ← members bound (.this token.span)
    referenceStmt bound start target
  | .identifier => nameStmt bound start
  | _ => unexpected .statement

/-- A statement in which statements are nested less deeply than the bound. -/
def stmtWithin : Nat → Parser Stmt
  | 0 => unexpected .statement
  | n + 1 => stmtOver (stmtWithin n) n

/-- A statement. -/
def stmt : Parser Stmt := bounded stmtWithin

end MiniJava.Grammar
