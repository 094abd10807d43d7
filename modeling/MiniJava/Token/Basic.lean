import MiniJava.Diagnostic

/-!
# Tokens

A token is a classified piece of the source. Text that is no lexeme of the
language becomes an `invalid` token that carries the reason, so that the report
about it can be read off the token alone.
-/

namespace MiniJava

/-- The reserved words. -/
inductive Keyword
  | classKw | publicKw | privateKw | staticKw | voidKw | returnKw | intKw | booleanKw
  | thisKw | whileKw | ifKw | elseKw | newKw | trueKw | falseKw | nullKw
  deriving DecidableEq, Repr

namespace Keyword

/-- The spelling of a reserved word. -/
def text : Keyword → String
  | classKw => "class"
  | publicKw => "public"
  | privateKw => "private"
  | staticKw => "static"
  | voidKw => "void"
  | returnKw => "return"
  | intKw => "int"
  | booleanKw => "boolean"
  | thisKw => "this"
  | whileKw => "while"
  | ifKw => "if"
  | elseKw => "else"
  | newKw => "new"
  | trueKw => "true"
  | falseKw => "false"
  | nullKw => "null"

/-- Every reserved word. -/
def all : List Keyword :=
  [classKw, publicKw, privateKw, staticKw, voidKw, returnKw, intKw, booleanKw,
   thisKw, whileKw, ifKw, elseKw, newKw, trueKw, falseKw, nullKw]

/-- The reserved word with this spelling. -/
def ofText? (text : String) : Option Keyword :=
  all.find? (·.text = text)

end Keyword

/-- Operators and punctuation. -/
inductive Symbol
  | equal | notEqual | assign | not | less | lessEq | greater | greaterEq | and | or
  | plus | minus | times | divide
  | openParen | closeParen | openBrace | closeBrace | openBracket | closeBracket
  | semicolon | comma | dot
  deriving DecidableEq, Repr

/-- The spelling of an operator or a punctuation mark. -/
def Symbol.text : Symbol → String
  | equal => "=="
  | notEqual => "!="
  | assign => "="
  | not => "!"
  | less => "<"
  | lessEq => "<="
  | greater => ">"
  | greaterEq => ">="
  | and => "&&"
  | or => "||"
  | plus => "+"
  | minus => "-"
  | times => "*"
  | divide => "/"
  | openParen => "("
  | closeParen => ")"
  | openBrace => "\x7b"
  | closeBrace => "\x7d"
  | openBracket => "["
  | closeBracket => "]"
  | semicolon => ";"
  | comma => ","
  | dot => "."

/-- Why a piece of text is no lexeme. -/
inductive ScanFault
  /-- A block comment that is never closed; it takes the rest of the source. -/
  | openComment
  /-- One `&` without the second. -/
  | loneAnd
  /-- One `|` without the second. -/
  | loneOr
  /-- A word that begins with an underscore. -/
  | underscoreWord
  /-- An ASCII character that begins no lexeme. -/
  | strayAscii
  /-- A character outside ASCII, where no comment hides it. -/
  | strayUnicode
  deriving DecidableEq, Repr

/-- The class of a token. -/
inductive TokenKind
  | keyword (k : Keyword)
  | symbol (s : Symbol)
  | number
  | identifier
  | endOfFile
  | invalid (fault : ScanFault)
  deriving DecidableEq, Repr

/-- How a report names a class of tokens. -/
def TokenKind.describe : TokenKind → String
  | keyword k => "'" ++ k.text ++ "'"
  | symbol s => "'" ++ s.text ++ "'"
  | number => "integer literal"
  | identifier => "identifier"
  | endOfFile => "end of file"
  | invalid _ => "invalid token"

/-- A classified piece of the source. -/
structure Token where
  kind : TokenKind
  text : String
  span : Span
  deriving DecidableEq, Repr

namespace Token

/-- How a report names this token: classes with many spellings show the text. -/
def describe (t : Token) : String :=
  match t.kind with
  | .identifier | .number => t.kind.describe ++ " '" ++ t.text ++ "'"
  | kind => kind.describe

/-- The report on an invalid token. A character outside ASCII is a fault of the
input as such: it is named by its byte offset and has no range. -/
def diagnostic? (t : Token) : Option Diagnostic :=
  match t.kind with
  | .invalid fault =>
    let scan (text : String) : Diagnostic := ⟨.scan, text, some t.span⟩
    some <| match fault with
      | .openComment => scan "unterminated block comment"
      | .loneAnd => scan "single & not allowed"
      | .loneOr => scan "single | not allowed"
      | .underscoreWord => scan s!"identifier '{t.text}' is not valid"
      | .strayAscii => scan s!"unrecognized character '{t.text}'"
      | .strayUnicode =>
        ⟨.io, s!"non-ASCII character in input at byte {t.span.start}", none⟩
  | _ => none

end Token

end MiniJava
