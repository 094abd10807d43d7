import MiniJava.Token.Basic

/-!
# Faults of the grammar

The causes for which tokens do not form a program, and their wording. Most often a
token stands where it cannot; the report then names what was looked for and what
was found.
-/

namespace MiniJava

/-- What a parser was looking for. -/
inductive Expected
  | token (kind : TokenKind)
  | type
  | statement
  | expression
  /-- What can follow a reference at the head of a statement. -/
  | useOfReference
  /-- What can follow the class name of a `new` expression. -/
  | instanceOrArray
  /-- What can follow the word `new`. -/
  | creation
  deriving DecidableEq, Repr

/-- How a report names what was looked for. -/
def Expected.describe : Expected → String
  | token kind => kind.describe
  | type => "type"
  | statement => "statement"
  | expression => "expression"
  | useOfReference => "'=', '[' or '('"
  | instanceOrArray => "'(' or '['"
  | creation => "class name or 'int'"

/-- Why tokens do not form a program. -/
inductive GrammarFault
  | unexpected (expected : Expected) (found : Token)
  | voidField (name : String)
  | literalOutOfRange (text : String)
  deriving DecidableEq, Repr

namespace GrammarFault

/-- The wording of a fault. -/
def message : GrammarFault → String
  | unexpected expected found =>
    s!"expected {expected.describe}, found {found.describe}"
  | voidField name => s!"field '{name}' cannot have type void"
  | literalOutOfRange text => s!"integer literal {text} is out of range"

/-- The report on a fault. -/
def diagnostic (fault : Located GrammarFault) : Diagnostic :=
  ⟨.grammar, fault.value.message, some fault.span⟩

end GrammarFault

end MiniJava
