import MiniJava.Token.Basic

/-!
# Scanning

The source is read as a list of characters. A scan first splits off the layout
(blanks and comments) in front, then the longest lexeme at the head of what is
left. Both steps only split the list (`splitLayout_append`, `lexeme_append`), and
a lexeme is never empty, so the scanner gets through every source
(`rest_scan_lt`).
-/

namespace MiniJava

/-- The number of bytes that the characters take in UTF-8. -/
def utf8Length (cs : List Char) : Nat :=
  cs.foldr (fun c n => c.utf8Size + n) 0

/-! ## Layout -/

/-- Where a scan stands while it skips layout. -/
inductive LayoutMode
  /-- Between comments. -/
  | outside
  /-- In a comment that ends before the next line break. -/
  | lineComment
  /-- In a comment that ends after the next closing mark. -/
  | blockComment
  deriving DecidableEq, Repr

/-- The characters that separate lexemes outside of comments. -/
def isBlank (c : Char) : Bool :=
  c = ' ' || c = '\t' || c = '\r' || c = '\n'

/-- Whether a block comment whose opening mark was just read is ever closed. -/
def closesComment : List Char → Bool
  | '*' :: '/' :: _ => true
  | _ :: cs => closesComment cs
  | [] => false

/-- Splits the text into the layout in front and what follows it. The opening
mark of a block comment that is never closed is no layout. -/
def splitLayout : LayoutMode → List Char → List Char × List Char
  | .outside, '/' :: '/' :: cs =>
    let (gap, rest) := splitLayout .lineComment cs
    ('/' :: '/' :: gap, rest)
  | .outside, '/' :: '*' :: cs =>
    if closesComment cs then
      let (gap, rest) := splitLayout .blockComment cs
      ('/' :: '*' :: gap, rest)
    else ([], '/' :: '*' :: cs)
  | .outside, c :: cs =>
    if isBlank c then
      let (gap, rest) := splitLayout .outside cs
      (c :: gap, rest)
    else ([], c :: cs)
  | .lineComment, c :: cs =>
    let mode := if c = '\n' || c = '\r' then .outside else .lineComment
    let (gap, rest) := splitLayout mode cs
    (c :: gap, rest)
  | .blockComment, '*' :: '/' :: cs =>
    let (gap, rest) := splitLayout .outside cs
    ('*' :: '/' :: gap, rest)
  | .blockComment, c :: cs =>
    let (gap, rest) := splitLayout .blockComment cs
    (c :: gap, rest)
  | _, [] => ([], [])

theorem splitLayout_append (mode : LayoutMode) (cs : List Char) :
    (splitLayout mode cs).1 ++ (splitLayout mode cs).2 = cs := by
  fun_induction splitLayout mode cs <;> simp_all

/-! ## Lexemes -/

/-- The characters that continue a word. -/
def isWordChar (c : Char) : Bool :=
  c.isAlphanum || c = '_'

/-- The longest operator or punctuation mark at the head of the text. -/
def symbol? : List Char → Option (Symbol × List Char)
  | '=' :: '=' :: cs => some (.equal, cs)
  | '=' :: cs => some (.assign, cs)
  | '!' :: '=' :: cs => some (.notEqual, cs)
  | '!' :: cs => some (.not, cs)
  | '<' :: '=' :: cs => some (.lessEq, cs)
  | '<' :: cs => some (.less, cs)
  | '>' :: '=' :: cs => some (.greaterEq, cs)
  | '>' :: cs => some (.greater, cs)
  | '&' :: '&' :: cs => some (.and, cs)
  | '|' :: '|' :: cs => some (.or, cs)
  | '+' :: cs => some (.plus, cs)
  | '-' :: cs => some (.minus, cs)
  | '*' :: cs => some (.times, cs)
  | '/' :: cs => some (.divide, cs)
  | '(' :: cs => some (.openParen, cs)
  | ')' :: cs => some (.closeParen, cs)
  | '{' :: cs => some (.openBrace, cs)
  | '}' :: cs => some (.closeBrace, cs)
  | '[' :: cs => some (.openBracket, cs)
  | ']' :: cs => some (.closeBracket, cs)
  | ';' :: cs => some (.semicolon, cs)
  | ',' :: cs => some (.comma, cs)
  | '.' :: cs => some (.dot, cs)
  | _ => none

theorem symbol?_append {cs rest : List Char} {s : Symbol} (h : symbol? cs = some (s, rest)) :
    s.text.toList ++ rest = cs := by
  unfold symbol? at h
  split at h <;> cases h <;> rfl

/-- A lexeme at the head of a text, and the text after it. -/
structure Lexeme where
  kind : TokenKind
  text : List Char
  rest : List Char
  deriving Repr

/-- The class of a word that begins with a letter. -/
def wordKind (word : List Char) : TokenKind :=
  match Keyword.ofText? (String.ofList word) with
  | some k => .keyword k
  | none => .identifier

/-- The fault of a character that begins no lexeme. -/
def strayFault (c : Char) : ScanFault :=
  if c = '&' then .loneAnd
  else if c = '|' then .loneOr
  else if c.toNat < 128 then .strayAscii
  else .strayUnicode

/-- The longest lexeme at the head of a text that does not begin with layout. -/
def lexeme (c : Char) (cs : List Char) : Lexeme :=
  if c.isAlpha then
    let word := c :: cs.takeWhile isWordChar
    ⟨wordKind word, word, cs.dropWhile isWordChar⟩
  else if c.isDigit then
    ⟨.number, c :: cs.takeWhile Char.isDigit, cs.dropWhile Char.isDigit⟩
  else if c = '_' then
    ⟨.invalid .underscoreWord, c :: cs.takeWhile isWordChar, cs.dropWhile isWordChar⟩
  else if c = '/' && cs.head? = some '*' then
    ⟨.invalid .openComment, c :: cs, []⟩
  else
    match symbol? (c :: cs) with
    | some (s, rest) => ⟨.symbol s, s.text.toList, rest⟩
    | none => ⟨.invalid (strayFault c), [c], cs⟩

theorem lexeme_append (c : Char) (cs : List Char) :
    (lexeme c cs).text ++ (lexeme c cs).rest = c :: cs := by
  unfold lexeme
  split
  · simp
  · split
    · simp
    · split
      · simp
      · split
        · simp
        · split
          next h => exact symbol?_append h
          next => rfl

theorem lexeme_text_ne_nil (c : Char) (cs : List Char) : (lexeme c cs).text ≠ [] := by
  unfold lexeme
  split
  · simp
  · split
    · simp
    · split
      · simp
      · split
        · simp
        · split
          next s _ _ => cases s <;> simp [Symbol.text]
          next => simp

/-! ## The scanner -/

/-- A scanner under way: the text not yet read, the byte offset where it begins,
and the reports on invalid tokens that nobody has taken yet. -/
structure Scanner where
  rest : List Char
  offset : Nat
  pending : List Diagnostic
  deriving Repr

namespace Scanner

/-- A scanner at the beginning of a source. -/
def ofSource (source : String) : Scanner :=
  ⟨source.toList, 0, []⟩

/-- Reads the next token. At the end of the source it is the end-of-file token,
and stays so. -/
def scan (s : Scanner) : Token × Scanner :=
  match splitLayout .outside s.rest with
  | (gap, []) =>
    let stop := s.offset + utf8Length gap
    (⟨.endOfFile, "", ⟨stop, stop⟩⟩, ⟨[], stop, s.pending⟩)
  | (gap, c :: cs) =>
    let l := lexeme c cs
    let start := s.offset + utf8Length gap
    let stop := start + utf8Length l.text
    let token : Token := ⟨l.kind, String.ofList l.text, ⟨start, stop⟩⟩
    (token, ⟨l.rest, stop, s.pending ++ token.diagnostic?.toList⟩)

/-- Hands over the reports collected so far and forgets them. -/
def takePending (s : Scanner) : List Diagnostic × Scanner :=
  (s.pending, { s with pending := [] })

/-- Every token but the last takes up some of the text. -/
theorem rest_scan_lt (s : Scanner) (h : s.scan.1.kind ≠ .endOfFile) :
    s.scan.2.rest.length < s.rest.length := by
  have hsplit := splitLayout_append .outside s.rest
  unfold scan at h ⊢
  split
  next hs => simp [hs] at h
  next gap c cs hs =>
    rw [hs] at hsplit
    have happ := congrArg List.length (lexeme_append c cs)
    have hpos := List.length_pos_iff.mpr (lexeme_text_ne_nil c cs)
    have hlen := congrArg List.length hsplit
    simp only [List.length_append, List.length_cons] at happ hlen
    show (lexeme c cs).rest.length < s.rest.length
    omega

/-- All tokens from here on, up to and including the end-of-file token. -/
def tokens (s : Scanner) : List Token :=
  match _scanned : s.scan with
  | (token, next) =>
    if _last : token.kind = .endOfFile then [token]
    else token :: next.tokens
  termination_by s.rest.length
  decreasing_by
    have := rest_scan_lt s (by rw [_scanned]; exact _last)
    rwa [_scanned] at this

end Scanner

/-- The tokens of a source, the end-of-file token last. -/
def lex (source : String) : List Token :=
  (Scanner.ofSource source).tokens

end MiniJava
