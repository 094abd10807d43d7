import MiniJava.Grammar.Fault
import MiniJava.Grammar.Stream

/-!
# Parsers

A `Parser` reads from a stream of tokens. Whether it succeeds or fails, it says
where the stream stands afterwards, so a caller can go on reading from the place
of a failure.

Parsers that repeat or nest take a bound on their depth. Every repetition takes at
least one token, so the number of tokens to come is always enough (`bounded`), and
the bound decides nothing.
-/

namespace MiniJava

/-- A reader of a stream: a value or a fault, and where the stream stands then. -/
def Parser (α : Type) : Type :=
  TokenStream → Except (Located GrammarFault) α × TokenStream

namespace Parser

variable {α β : Type}

instance : Monad Parser where
  pure a s := (.ok a, s)
  bind p f s :=
    match p s with
    | (.ok a, s') => f a s'
    | (.error e, s') => (.error e, s')

@[simp]
theorem pure_apply (a : α) (s : TokenStream) : (pure a : Parser α) s = (.ok a, s) := rfl

/-- A parser that succeeds hands its value to the next one. -/
theorem bind_apply_ok {p : Parser α} {f : α → Parser β} {s s' : TokenStream} {a : α}
    (h : p s = (.ok a, s')) : (p >>= f) s = f a s' := by
  show (match p s with
    | (.ok a, s') => f a s'
    | (.error e, s') => (.error e, s')) = f a s'
  rw [h]

/-- A parser that fails ends the reading where it failed. -/
theorem bind_apply_error {p : Parser α} {f : α → Parser β} {s s' : TokenStream}
    {e : Located GrammarFault} (h : p s = (.error e, s')) : (p >>= f) s = (.error e, s') := by
  show (match p s with
    | (.ok a, s') => f a s'
    | (.error e, s') => (.error e, s')) = (.error e, s')
  rw [h]

theorem map_id_apply (p : Parser α) (s : TokenStream) : (id <$> p) s = p s := by
  show (match p s with
    | (.ok a, s') => (.ok a, s')
    | (.error e, s') => (.error e, s')) = p s
  rcases p s with ⟨_ | _, _⟩ <;> rfl

theorem bind_bind_apply {γ : Type} (p : Parser α) (f : α → Parser β) (g : β → Parser γ)
    (s : TokenStream) : (p >>= f >>= g) s = (p >>= fun a => f a >>= g) s := by
  rcases h : p s with ⟨e | a, s'⟩
  · rw [bind_apply_error h, bind_apply_error (bind_apply_error h)]
  · rw [bind_apply_ok h]
    rcases h' : f a s' with ⟨e | b, s''⟩
    · rw [bind_apply_error h', bind_apply_error ((bind_apply_ok h).trans h')]
    · rw [bind_apply_ok h', bind_apply_ok ((bind_apply_ok h).trans h')]

instance : LawfulMonad Parser :=
  LawfulMonad.mk' Parser (fun p => funext (map_id_apply p)) (fun _ _ => rfl)
    (fun p f g => funext (bind_bind_apply p f g))

/-! ## Single tokens -/

/-- The class of the current token. -/
def peek : Parser TokenKind := fun s => (.ok s.current.kind, s)

/-- The range of the current token. -/
def here : Parser Span := fun s => (.ok s.current.span, s)

/-- Takes the current token. -/
def advance : Parser Token := fun s => (.ok s.current, s.next)

/-- Fails at a range of the source. -/
def fail (fault : GrammarFault) (span : Span) : Parser α := fun s => (.error ⟨fault, span⟩, s)

/-- Fails at the current token. -/
def unexpected (expected : Expected) : Parser α := fun s =>
  (.error ⟨.unexpected expected s.current, s.current.span⟩, s)

/-- The range from the beginning of `start` to the end of the token taken last. -/
def spanFrom (start : Span) : Parser Span := fun s =>
  (.ok ⟨start.start, max s.previousStop start.stop⟩, s)

/-- Takes the current token if it is of this class, and says whether it was. -/
def accept (kind : TokenKind) : Parser Bool := do
  if (← peek) = kind then
    let _ ← advance
    return true
  else return false

/-- Takes a token of this class. -/
def expect (kind : TokenKind) : Parser Token := do
  if (← peek) = kind then advance else unexpected (.token kind)

/-- Takes an operator or a punctuation mark. -/
def expectSymbol (s : Symbol) : Parser Unit := do
  let _ ← expect (.symbol s)

/-- Takes a name. -/
def ident : Parser Ident := do
  let token ← expect .identifier
  return ⟨token.text, token.span⟩

/-! ## Repetition -/

/-- Items up to a closing token, which is taken too. -/
def manyUntil (close : TokenKind) (item : Parser α) : Nat → Parser (List α)
  | 0 => return []
  | n + 1 => do
    if (← accept close) then return []
    else
      let first ← item
      let others ← manyUntil close item n
      return first :: others

/-- One or more items with commas between them. -/
def commaSeparated (item : Parser α) : Nat → Parser (List α)
  | 0 => return []
  | n + 1 => do
    let first ← item
    if (← accept (.symbol .comma)) then
      let others ← commaSeparated item n
      return first :: others
    else return [first]

/-- Items between parentheses, of which the opening one is taken already. -/
def closeList (item : Parser α) (bound : Nat) : Parser (List α) := do
  let items ← if (← peek) = .symbol .closeParen then pure [] else commaSeparated item bound
  expectSymbol .closeParen
  return items

/-- Runs a parser with a bound on its depth that no reading can exceed. -/
def bounded (p : Nat → Parser α) : Parser α := fun s => p (s.upcoming.length + 1) s

end Parser

end MiniJava
