import MiniJava.Token.Scanner

/-!
# Streams of tokens

A sequence of tokens with a place in it: the current token is seen, those behind
it are not. Reports on invalid tokens are collected as the tokens come into
sight, and wait until somebody takes them.
-/

namespace MiniJava

/-- A place in a sequence of tokens. -/
structure TokenStream where
  /-- The token that is looked at and not yet taken. -/
  current : Token
  /-- The tokens behind the current one. -/
  upcoming : List Token
  /-- Where the token taken last ended. -/
  previousStop : Nat
  /-- Reports on the invalid tokens seen so far that nobody has taken. -/
  pending : List Diagnostic
  deriving Repr

namespace TokenStream

/-- The beginning of a source. -/
def ofSource (source : String) : TokenStream :=
  match lex source with
  | token :: tokens => ⟨token, tokens, 0, token.diagnostic?.toList⟩
  | [] => ⟨⟨.endOfFile, "", ⟨0, 0⟩⟩, [], 0, []⟩

/-- Takes the current token. The last token of all stays current. -/
def next (s : TokenStream) : TokenStream :=
  match s.upcoming with
  | token :: tokens =>
    ⟨token, tokens, s.current.span.stop, s.pending ++ token.diagnostic?.toList⟩
  | [] => { s with previousStop := s.current.span.stop }

/-- Hands over the reports collected so far and forgets them. -/
def takePending (s : TokenStream) : List Diagnostic × TokenStream :=
  (s.pending, { s with pending := [] })

/-- Taking a token never brings tokens back. -/
theorem length_upcoming_next (s : TokenStream) :
    s.next.upcoming.length = s.upcoming.length - 1 := by
  unfold next
  split
  next h => simp [h]
  next h => simp [h]

end TokenStream

end MiniJava
