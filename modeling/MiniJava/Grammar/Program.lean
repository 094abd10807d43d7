import MiniJava.Grammar.Stmt

/-!
# Grammar of classes and programs

Members of a class are read in the order of the source and then kept apart as
fields and methods. Reading a whole source reports invalid tokens first, and then
the token at which the program could not go on.
-/

namespace MiniJava.Grammar

open MiniJava.Parser

/-- A parameter. -/
def param : Parser Param := do
  let written ← type
  let name ← ident
  return ⟨written.span.join name.span, written, name⟩

/-- A field or a method. -/
inductive Member
  | field (decl : FieldDecl)
  | method (decl : MethodDecl)
  deriving Repr

/-- The declaration of a field, if the member is one. -/
def Member.field? : Member → Option FieldDecl
  | field decl => some decl
  | method _ => none

/-- The declaration of a method, if the member is one. -/
def Member.method? : Member → Option MethodDecl
  | field _ => none
  | method decl => some decl

/-- An access modifier; members are public unless they are private. -/
def privacy : Parser Bool := do
  if (← accept (.keyword .privateKw)) then return true
  else
    let _ ← accept (.keyword .publicKw)
    return false

/-- The type of a field or the result of a method. -/
def memberType : Parser (Located Ty) := do
  if (← peek) = .keyword .voidKw then
    let token ← advance
    return ⟨.void, token.span⟩
  else type

/-- A member of the class with the given name. -/
def member (bound : Nat) (owner : String) : Parser Member := do
  let start ← here
  let isPrivate ← privacy
  let isStatic ← accept (.keyword .staticKw)
  let written ← memberType
  let name ← ident
  if (← peek) = .symbol .semicolon then
    if written.value = .void then fail (.voidField name.value) written.span
    else
      expectSymbol .semicolon
      return .field ⟨← spanFrom start, isPrivate, isStatic, written, name, owner⟩
  else
    expectSymbol .openParen
    let params ← closeList param bound
    expectSymbol .openBrace
    let body ← manyUntil (.symbol .closeBrace) stmt bound
    return .method ⟨← spanFrom start, isPrivate, isStatic, written, name, owner, params, body⟩

/-- A class. -/
def classDecl (bound : Nat) : Parser ClassDecl := do
  let first ← expect (.keyword .classKw)
  let name ← ident
  expectSymbol .openBrace
  let members ← manyUntil (.symbol .closeBrace) (member bound name.value) bound
  return ⟨← spanFrom first.span, name, members.filterMap Member.field?,
    members.filterMap Member.method?⟩

/-- Classes up to the end of the source. -/
def classes : Nat → Parser (List ClassDecl)
  | 0 => return []
  | n + 1 => do
    if (← peek) = .endOfFile then return []
    else
      let first ← classDecl n
      let others ← classes n
      return first :: others

/-- A program. -/
def program : Parser Program := do
  return ⟨← bounded classes⟩

end MiniJava.Grammar

namespace MiniJava

/-- Reads a source as a program. -/
def parse (source : String) : Except (List Diagnostic) Program :=
  let (result, stream) := Grammar.program (TokenStream.ofSource source)
  match result, stream.pending with
  | .ok program, [] => .ok program
  | .ok _, pending => .error pending
  | .error fault, pending => .error (pending ++ [GrammarFault.diagnostic fault])

end MiniJava
