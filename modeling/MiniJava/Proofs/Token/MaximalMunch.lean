import MiniJava.Proofs.Token.Comments

/-!
# The longest match

Tokens are declared by rules: a rule takes certain texts from the head of an input (`Taken`). Of all
texts that the rules take where a token begins, the token is the longest one (`Munched`), and its
class can be read off its text (`TokenKind.Fits`). Where no rule takes anything, the token is one
character (`lex_maximal_munch`).

What the scanner can find is listed once, in `Lexeme.Found`. A rule that takes a text beginning with
a given character takes characters of one kind only, so a longer match would have to go on behind
the place where the scanner stopped.
-/

namespace MiniJava

open List

/-! ## The rules -/

def IsLetter (c : Char) : Prop := ('a' ≤ c ∧ c ≤ 'z') ∨ ('A' ≤ c ∧ c ≤ 'Z')

def IsDecimal (c : Char) : Prop := '0' ≤ c ∧ c ≤ '9'

def InWord (c : Char) : Prop := IsLetter c ∨ IsDecimal c ∨ c = '_'

/-- One or more digits. -/
def IsNumber (text : List Char) : Prop := text ≠ [] ∧ ∀ c ∈ text, IsDecimal c

/-- A letter, and then letters, digits and underscores. -/
def IsWord (text : List Char) : Prop := ∃ c cs, text = c :: cs ∧ IsLetter c ∧ ∀ d ∈ cs, InWord d

/-- An underscore, and then letters, digits and underscores. -/
def IsUnderscoreWord (text : List Char) : Prop := ∃ cs, text = '_' :: cs ∧ ∀ d ∈ cs, InWord d

/-- A block comment that is never closed, which takes the rest of the input. -/
def IsOpenComment (text rest : List Char) : Prop :=
  rest = [] ∧ ∃ body, text = '/' :: '*' :: body ∧ ¬ ['*', '/'] <:+: body

/-- A rule takes the text from the head of an input, of which this is the rest. -/
inductive Taken (rest : List Char) : List Char → Prop
  | keyword (k : Keyword) : Taken rest k.text.toList
  | number {text : List Char} (h : IsNumber text) : Taken rest text
  | word {text : List Char} (h : IsWord text) : Taken rest text
  | underscoreWord {text : List Char} (h : IsUnderscoreWord text) : Taken rest text
  | symbol (s : Symbol) : Taken rest s.text.toList
  | loneAnd : Taken rest ['&']
  | loneOr : Taken rest ['|']
  | openComment {text : List Char} (h : IsOpenComment text rest) : Taken rest text

/-- No rule takes anything from the head of the input. -/
def Unmatched (input : List Char) : Prop := ∀ text rest, text ++ rest = input → ¬ Taken rest text

/-- The text is the longest that a rule takes from the head of the input, or it is one character and
no rule takes anything. -/
inductive Munched (text rest : List Char) : Prop
  | taken (h : Taken rest text)
      (hlongest : ∀ text' rest', text' ++ rest' = text ++ rest → Taken rest' text' →
        text'.length ≤ text.length)
  | unmatched {c : Char} (htext : text = [c]) (hnone : Unmatched (text ++ rest))

/-- What can be seen of a fault in the text that has it. -/
def ScanFault.Shows (text rest : List Char) : ScanFault → Prop
  | .openComment => IsOpenComment text rest
  | .loneAnd => text = ['&']
  | .loneOr => text = ['|']
  | .underscoreWord => IsUnderscoreWord text
  | .strayAscii => Unmatched (text ++ rest) ∧ ∃ c, text = [c] ∧ c.toNat < 128
  | .strayUnicode => Unmatched (text ++ rest) ∧ ∃ c, text = [c] ∧ 128 ≤ c.toNat

/-- Which texts belong to a class of tokens. -/
def TokenKind.Fits (text rest : List Char) : TokenKind → Prop
  | .keyword k => text = k.text.toList
  | .identifier => IsWord text ∧ ∀ k : Keyword, text ≠ k.text.toList
  | .number => IsNumber text
  | .symbol s => text = s.text.toList
  | .invalid fault => fault.Shows text rest
  | .endOfFile => False

/-! ## Characters -/

theorem isLetter_iff {c : Char} : IsLetter c ↔ c.isAlpha = true := by
  show _ ↔ (decide (c.val ≥ 65 ∧ c.val ≤ 90) || (decide (c.val ≥ 97) && decide (c.val ≤ 122))) =
    true
  simp [IsLetter, Char.le_def, or_comm]

theorem isDecimal_iff {c : Char} : IsDecimal c ↔ c.isDigit = true := by
  simp [IsDecimal, Char.isDigit, Char.le_def]

theorem inWord_iff {c : Char} : InWord c ↔ isWordChar c = true := by
  simp [InWord, isLetter_iff, isDecimal_iff, isWordChar, Char.isAlphanum, or_assoc]

/-! ## What a rule can take -/

variable {c : Char} {cs text rest : List Char}

theorem isWordChar_of_isAlpha (h : c.isAlpha = true) : isWordChar c = true :=
  inWord_iff.mp (.inl (isLetter_iff.mpr h))

theorem isWordChar_of_isDigit (h : c.isDigit = true) : isWordChar c = true :=
  inWord_iff.mp (.inr (.inl (isDecimal_iff.mpr h)))

theorem exists_head_symbol (s : Symbol) :
    ∃ c cs, s.text.toList = c :: cs ∧ isWordChar c = false := by
  cases s <;> exact ⟨_, _, rfl, by decide⟩

/-- What a rule takes, by the character with which the text begins. -/
inductive TakenFrom (rest : List Char) (c : Char) (cs : List Char) : Prop
  | word (hc : c.isAlpha = true ∨ c = '_') (hcs : ∀ d ∈ cs, isWordChar d = true)
  | number (hc : c.isDigit = true) (hcs : ∀ d ∈ cs, d.isDigit = true)
  | mark (hc : isWordChar c = false)
      (h : (∃ s : Symbol, c :: cs = s.text.toList) ∨ c :: cs = ['&'] ∨ c :: cs = ['|'] ∨
        IsOpenComment (c :: cs) rest)

/-- What is taken is told by its first character. -/
theorem Taken.exists_head (h : Taken rest text) : ∃ c cs, text = c :: cs ∧ TakenFrom rest c cs := by
  cases h with
  | keyword k =>
    have hword : ∃ c cs, k.text.toList = c :: cs ∧ c.isAlpha = true ∧
        ∀ d ∈ cs, isWordChar d = true := by
      cases k <;> exact ⟨_, _, rfl, by decide, all_eq_true.mp (by decide)⟩
    obtain ⟨c, cs, htext, hc, hcs⟩ := hword
    exact ⟨c, cs, htext, .word (.inl hc) hcs⟩
  | number h =>
    obtain ⟨hne, hdigits⟩ := h
    cases text with
    | nil => exact absurd rfl hne
    | cons c cs =>
      obtain ⟨hc, hcs⟩ := forall_mem_cons.mp hdigits
      exact ⟨c, cs, rfl, .number (isDecimal_iff.mp hc) fun d hd => isDecimal_iff.mp (hcs d hd)⟩
  | word h =>
    obtain ⟨c, cs, htext, hc, hcs⟩ := h
    exact ⟨c, cs, htext, .word (.inl (isLetter_iff.mp hc)) fun d hd => inWord_iff.mp (hcs d hd)⟩
  | underscoreWord h =>
    obtain ⟨cs, htext, hcs⟩ := h
    exact ⟨'_', cs, htext, .word (.inr rfl) fun d hd => inWord_iff.mp (hcs d hd)⟩
  | symbol s =>
    obtain ⟨c, cs, htext, hc⟩ := exists_head_symbol s
    exact ⟨c, cs, htext, .mark hc (.inl ⟨s, htext.symm⟩)⟩
  | loneAnd => exact ⟨'&', [], rfl, .mark (by decide) (.inr (.inl rfl))⟩
  | loneOr => exact ⟨'|', [], rfl, .mark (by decide) (.inr (.inr (.inl rfl)))⟩
  | openComment h =>
    obtain ⟨hrest, body, htext, hbody⟩ := h
    exact ⟨'/', '*' :: body, htext,
      .mark (by decide) (.inr (.inr (.inr ⟨hrest, body, rfl, hbody⟩)))⟩

/-- What is taken behind a character of words are characters of words. -/
theorem TakenFrom.inWord (h : TakenFrom rest c cs) (hc : isWordChar c = true) :
    ∀ d ∈ cs, isWordChar d = true := by
  cases h with
  | word _ hcs => exact hcs
  | number _ hcs =>
    intro d hd
    exact isWordChar_of_isDigit (hcs d hd)
  | mark hmark =>
    rw [hmark] at hc
    cases hc

/-- What is taken behind a digit are digits. -/
theorem TakenFrom.isDigit (h : TakenFrom rest c cs) (hc : c.isDigit = true) :
    ∀ d ∈ cs, d.isDigit = true := by
  cases h with
  | word hletter =>
    rcases hletter with hletter | rfl
    · rw [not_isAlpha_of_isDigit hc] at hletter
      cases hletter
    · exact absurd hc (by decide)
  | number _ hcs => exact hcs
  | mark hmark =>
    rw [isWordChar_of_isDigit hc] at hmark
    cases hmark

/-! ## The scanner takes the longest text -/

/-- If a rule takes characters of one kind behind the first character of the input, it takes no more
than all of them. -/
theorem Taken.length_le {p : Char → Bool} {taken rest' : List Char} (h : Taken rest' taken)
    (happend : taken ++ rest' = c :: cs)
    (hp : ∀ ds, TakenFrom rest' c ds → ∀ d ∈ ds, p d = true) :
    taken.length ≤ (c :: cs.takeWhile p).length := by
  obtain ⟨_, ds, rfl, hfrom⟩ := h.exists_head
  obtain ⟨rfl, hcs⟩ := cons.inj happend
  have hsplit : cs.takeWhile p = ds ++ rest'.takeWhile p := by
    rw [← hcs]
    exact takeWhile_append_of_pos (hp ds hfrom)
  rw [hsplit, length_cons, length_cons, length_append]
  omega

theorem isWordChar_of_symbol? {s : Symbol} (h : symbol? (c :: cs) = some (s, rest)) :
    isWordChar c = false := by
  obtain ⟨_, _, htext, hd⟩ := exists_head_symbol s
  have happend := symbol?_append h
  rw [htext] at happend
  obtain ⟨rfl, -⟩ := cons.inj happend
  exact hd

/-- No mark at the head of an input is longer than the one that is found. -/
theorem length_le_of_symbol? {s found : Symbol} {rest' : List Char}
    (h : symbol? (s.text.toList ++ rest') = some (found, rest)) :
    s.text.toList.length ≤ found.text.toList.length := by
  have hpos : ∀ s : Symbol, 1 ≤ s.text.toList.length := by
    intro s
    cases s <;> decide
  -- A mark of two characters is found before the mark that is its first character.
  cases s with
  | equal | notEqual | lessEq | greaterEq | and | or =>
    cases h
    exact Nat.le_refl _
  | _ => exact hpos found

/-- Some mark is found where a mark stands. -/
theorem symbol?_ne_none (s : Symbol) (rest : List Char) :
    symbol? (s.text.toList ++ rest) ≠ none := by
  cases s with
  | assign | not | less | greater =>
    cases rest with
    | nil => exact Option.some_ne_none _
    | cons d =>
      by_cases hd : d = '='
      · subst hd
        exact Option.some_ne_none _
      · simp [symbol?, Symbol.text, hd]
  | _ => exact Option.some_ne_none _

/-- Behind a character that begins no word and no number, and where no comment is open, a rule takes
a mark or half of one. -/
theorem Taken.mark {taken rest' : List Char} (h : Taken rest' taken)
    (happend : taken ++ rest' = c :: cs)
    (hc : isWordChar c = false) (hcomment : ∀ tail, c = '/' → cs ≠ '*' :: tail) :
    (∃ s : Symbol, taken = s.text.toList) ∨ taken = ['&'] ∨ taken = ['|'] := by
  obtain ⟨_, _, rfl, hfrom⟩ := h.exists_head
  obtain ⟨rfl, hcs⟩ := cons.inj happend
  cases hfrom with
  | word hd =>
    rcases hd with hd | rfl
    · rw [isWordChar_of_isAlpha hd] at hc
      cases hc
    · cases hc
  | number hd =>
    rw [isWordChar_of_isDigit hd] at hc
    cases hc
  | mark _ hmark =>
    rcases hmark with hsymbol | hand | hor | ⟨-, _, hbody, -⟩
    · exact .inl hsymbol
    · exact .inr (.inl hand)
    · exact .inr (.inr hor)
    · obtain ⟨hslash, rfl⟩ := cons.inj hbody
      exact absurd hcs.symm (hcomment _ hslash)

/-- Where a character begins no lexeme, no rule takes anything but half of a mark. -/
theorem Lexeme.Found.half_of_taken {taken rest' : List Char} (halpha : c.isAlpha = false)
    (hdigit : c.isDigit = false) (hunderscore : c ≠ '_') (hsymbol : symbol? (c :: cs) = none)
    (happend : taken ++ rest' = c :: cs) (htaken : Taken rest' taken) :
    taken = [c] ∧ (c = '&' ∨ c = '|') := by
  have hword : isWordChar c = false :=
    by simp [isWordChar, Char.isAlphanum, halpha, hdigit, hunderscore]
  have hcomment : ∀ tail, c = '/' → cs ≠ '*' :: tail := by
    intro _ hc hcs
    subst hc hcs
    cases hsymbol
  rcases htaken.mark happend hword hcomment with ⟨s, rfl⟩ | rfl | rfl
  · rw [← happend] at hsymbol
    exact absurd hsymbol (symbol?_ne_none s rest')
  · obtain ⟨rfl, -⟩ := cons.inj happend
    exact ⟨rfl, .inl rfl⟩
  · obtain ⟨rfl, -⟩ := cons.inj happend
    exact ⟨rfl, .inr rfl⟩

theorem inWord_takeWhile (cs : List Char) : ∀ d ∈ cs.takeWhile isWordChar, InWord d := by
  intro d hd
  exact inWord_iff.mpr (all_eq_true.mp all_takeWhile d hd)

theorem isWord_takeWhile (hc : c.isAlpha = true) (cs : List Char) :
    IsWord (c :: cs.takeWhile isWordChar) :=
  ⟨c, _, rfl, isLetter_iff.mpr hc, inWord_takeWhile cs⟩

theorem isUnderscoreWord_takeWhile (cs : List Char) :
    IsUnderscoreWord ('_' :: cs.takeWhile isWordChar) :=
  ⟨_, rfl, inWord_takeWhile cs⟩

theorem isNumber_takeWhile (hc : c.isDigit = true) (cs : List Char) :
    IsNumber (c :: cs.takeWhile Char.isDigit) := by
  refine ⟨cons_ne_nil _ _, forall_mem_cons.mpr ⟨isDecimal_iff.mpr hc, ?_⟩⟩
  intro d hd
  exact isDecimal_iff.mpr (all_eq_true.mp all_takeWhile d hd)

/-- Where no layout begins, the scanner takes the longest text that a rule takes. -/
theorem munched_lexeme (h : ¬ BeginsLayout (c :: cs)) :
    Munched (lexeme c cs).text (lexeme c cs).rest := by
  have happend := lexeme_append c cs
  have hfound := found_lexeme c cs
  generalize lexeme c cs = l at happend hfound ⊢
  cases hfound with
  | word hc =>
    refine .taken (.word (isWord_takeWhile hc cs)) ?_
    intro taken rest' happend' htaken
    exact htaken.length_le (happend'.trans happend) fun _ hfrom =>
      hfrom.inWord (isWordChar_of_isAlpha hc)
  | number hc =>
    refine .taken (.number (isNumber_takeWhile hc cs)) ?_
    intro taken rest' happend' htaken
    exact htaken.length_le (happend'.trans happend) fun _ hfrom => hfrom.isDigit hc
  | underscoreWord hc =>
    subst hc
    refine .taken (.underscoreWord (isUnderscoreWord_takeWhile cs)) ?_
    intro taken rest' happend' htaken
    exact htaken.length_le (happend'.trans happend) fun _ hfrom => hfrom.inWord rfl
  | openComment hc hcs =>
    subst hc hcs
    have hopen : ¬ ['*', '/'] <:+: _ := fun hclosed => h (.blockComment hclosed)
    refine .taken (.openComment ⟨rfl, _, rfl, hopen⟩) ?_
    -- The comment goes on to the end of the input, so nothing is longer.
    intro taken rest' happend' _
    have hlength := congrArg List.length happend'
    rw [append_nil, length_append] at hlength
    omega
  | @symbol s rest hcomment hsymbol =>
    refine .taken (.symbol s) ?_
    intro taken rest' happend' htaken
    rw [happend] at happend'
    have hpos : 1 ≤ s.text.toList.length := by cases s <;> decide
    have hword := isWordChar_of_symbol? hsymbol
    rcases htaken.mark happend' hword hcomment with ⟨_, rfl⟩ | rfl | rfl
    · rw [← happend'] at hsymbol
      exact length_le_of_symbol? hsymbol
    · exact hpos
    · exact hpos
  | stray halpha hdigit hunderscore hsymbol =>
    by_cases hhalf : c = '&' ∨ c = '|'
    · refine .taken ?_ ?_
      · rcases hhalf with rfl | rfl
        · exact .loneAnd
        · exact .loneOr
      · intro _ _ happend' htaken
        obtain ⟨rfl, -⟩ :=
          Lexeme.Found.half_of_taken halpha hdigit hunderscore hsymbol happend' htaken
        exact Nat.le_refl _
    · refine .unmatched rfl ?_
      intro _ _ happend' htaken
      exact hhalf (Lexeme.Found.half_of_taken halpha hdigit hunderscore hsymbol happend' htaken).2

/-! ## The class is that of the text -/

theorem ofText?_text (k : Keyword) : Keyword.ofText? k.text = some k := by
  cases k <;> decide

/-- The class of the text that the scanner finds is one that the text belongs to. -/
theorem fits_lexeme (h : ¬ BeginsLayout (c :: cs)) :
    (lexeme c cs).kind.Fits (lexeme c cs).text (lexeme c cs).rest := by
  have hfound := found_lexeme c cs
  generalize lexeme c cs = l at hfound ⊢
  cases hfound with
  | word hc =>
    show (wordKind (c :: cs.takeWhile isWordChar)).Fits (c :: cs.takeWhile isWordChar) _
    unfold wordKind
    split
    next k hk =>
      show c :: cs.takeWhile isWordChar = k.text.toList
      rw [ofText?_eq_some hk, String.toList_ofList]
    next hnone =>
      refine ⟨isWord_takeWhile hc cs, ?_⟩
      intro _ htext
      rw [htext, String.ofList_toList, ofText?_text] at hnone
      cases hnone
  | number hc => exact isNumber_takeWhile hc cs
  | underscoreWord hc =>
    subst hc
    exact isUnderscoreWord_takeWhile cs
  | openComment hc hcs =>
    subst hc hcs
    exact ⟨rfl, _, rfl, fun hclosed => h (.blockComment hclosed)⟩
  | symbol => exact rfl
  | stray halpha hdigit hunderscore hsymbol =>
    show (strayFault c).Shows [c] cs
    by_cases hand : c = '&'
    · subst hand
      exact rfl
    · by_cases hor : c = '|'
      · subst hor
        exact rfl
      · have hnone : Unmatched (c :: cs) := by
          intro _ _ happend htaken
          have hhalf := Lexeme.Found.half_of_taken halpha hdigit hunderscore hsymbol happend htaken
          exact hhalf.2.elim hand hor
        unfold strayFault
        rw [if_neg hand, if_neg hor]
        by_cases hascii : c.toNat < 128
        · rw [if_pos hascii]
          exact ⟨hnone, c, rfl, hascii⟩
        · rw [if_neg hascii]
          exact ⟨hnone, c, rfl, Nat.le_of_not_lt hascii⟩

/-- A character that no rule takes is a stray one, also where nothing follows it. -/
theorem kind_of_unmatched (h : Unmatched (c :: rest)) :
    (lexeme c []).kind = .invalid (if c.toNat < 128 then .strayAscii else .strayUnicode) := by
  have hnone : ¬ Taken rest [c] := h [c] rest rfl
  have hfound := found_lexeme c []
  generalize lexeme c [] = l at hfound ⊢
  cases hfound with
  | word hc => exact absurd (.word ⟨c, [], rfl, isLetter_iff.mpr hc, nofun⟩) hnone
  | number hc =>
    refine absurd (.number ⟨cons_ne_nil _ _, ?_⟩) hnone
    exact forall_mem_singleton.mpr (isDecimal_iff.mpr hc)
  | underscoreWord hc =>
    subst hc
    exact absurd (.underscoreWord ⟨[], rfl, nofun⟩) hnone
  | openComment _ hcs => cases hcs
  | @symbol s rest' _ hsymbol =>
    obtain ⟨_, _, htext, -⟩ := exists_head_symbol s
    have happend := symbol?_append hsymbol
    rw [htext] at happend
    obtain ⟨rfl, hds⟩ := cons.inj happend
    obtain ⟨rfl, -⟩ := append_eq_nil_iff.mp hds
    exact absurd (htext ▸ .symbol s) hnone
  | stray =>
    have hand : c ≠ '&' := by
      intro hc
      subst hc
      exact hnone .loneAnd
    have hor : c ≠ '|' := by
      intro hc
      subst hc
      exact hnone .loneOr
    show TokenKind.invalid (strayFault c) = _
    unfold strayFault
    rw [if_neg hand, if_neg hor]

theorem kind_of_isLexeme {kind : TokenKind} (h : IsLexeme kind text) :
    ∃ c cs, text = c :: cs ∧ (lexeme c cs).kind = kind := by
  have hend : Separates [] := nofun
  obtain ⟨c, cs, htext, hlexeme, -⟩ := h.lexeme_eq hend
  rw [append_nil] at hlexeme
  exact ⟨c, cs, htext, by rw [hlexeme]⟩

/-- A text belongs to one class only, the one that the scanner gives to the text by itself. -/
theorem TokenKind.Fits.kind_eq {kind : TokenKind} (h : kind.Fits text rest) :
    ∃ c cs, text = c :: cs ∧ (lexeme c cs).kind = kind := by
  cases kind with
  | keyword k =>
    obtain rfl : text = k.text.toList := h
    exact kind_of_isLexeme (.keyword k)
  | symbol s =>
    obtain rfl : text = s.text.toList := h
    exact kind_of_isLexeme (.symbol s)
  | number =>
    obtain ⟨hne, hdigits⟩ := h
    cases text with
    | nil => exact absurd rfl hne
    | cons =>
      obtain ⟨hc, hcs⟩ := forall_mem_cons.mp hdigits
      exact kind_of_isLexeme (.number (isDecimal_iff.mp hc) fun d hd => isDecimal_iff.mp (hcs d hd))
  | identifier =>
    obtain ⟨⟨c, cs, rfl, hc, hcs⟩, hother⟩ := h
    refine kind_of_isLexeme (.identifier (isLetter_iff.mp hc)
      (fun d hd => inWord_iff.mp (hcs d hd)) ?_)
    cases hk : Keyword.ofText? (String.ofList (c :: cs)) with
    | none => rfl
    | some k =>
      refine absurd ?_ (hother k)
      rw [ofText?_eq_some hk, String.toList_ofList]
  | endOfFile => exact h.elim
  | invalid fault =>
    cases fault with
    | openComment =>
      obtain ⟨-, _, rfl, -⟩ := h
      exact ⟨_, _, rfl, rfl⟩
    | loneAnd =>
      obtain rfl : text = ['&'] := h
      exact ⟨_, _, rfl, rfl⟩
    | loneOr =>
      obtain rfl : text = ['|'] := h
      exact ⟨_, _, rfl, rfl⟩
    | underscoreWord =>
      obtain ⟨_, rfl, -⟩ := h
      exact ⟨_, _, rfl, rfl⟩
    | strayAscii =>
      obtain ⟨hnone, c, rfl, hascii⟩ := h
      exact ⟨c, [], rfl, by rw [kind_of_unmatched hnone, if_pos hascii]⟩
    | strayUnicode =>
      obtain ⟨hnone, c, rfl, hascii⟩ := h
      exact ⟨c, [], rfl, by rw [kind_of_unmatched hnone, if_neg (Nat.not_lt.mpr hascii)]⟩

theorem kind_lexeme_eq_iff (h : ¬ BeginsLayout (c :: cs)) (kind : TokenKind) :
    (lexeme c cs).kind = kind ↔ kind.Fits (lexeme c cs).text (lexeme c cs).rest := by
  constructor
  · intro hkind
    rw [← hkind]
    exact fits_lexeme h
  · intro hfits
    obtain ⟨_, _, htext, hkind⟩ := hfits.kind_eq
    obtain ⟨_, _, htext', hkind'⟩ := (fits_lexeme h).kind_eq
    obtain ⟨rfl, rfl⟩ := cons.inj (htext.symm.trans htext')
    rw [← hkind', hkind]

/-! ## Tokens -/

/-- The scanner has come to a place of the source. Comments of the source that it has not gone over
lie in the rest. -/
structure Scanner.StandsIn (source : List Char) (s : Scanner) : Prop where
  place : ∃ front, source = front ++ s.rest ∧ s.offset = utf8Length front
  comments : ∀ start stop, CommentAt source start stop →
    stop ≤ s.offset ∨ CommentBehind s.offset s.rest start stop

theorem Scanner.standsIn_ofSource (source : String) :
    (Scanner.ofSource source).StandsIn source.toList where
  place := ⟨[], rfl, rfl⟩
  comments start stop h := .inr ⟨start, stop, (Nat.zero_add _).symm, (Nat.zero_add _).symm, h⟩

section

variable {source gap : List Char} {s : Scanner} (hs : s.StandsIn source)
  (hrest : s.rest = gap ++ c :: cs) (hgap : IsLayout (c :: cs) gap)
  (hmore : ¬ BeginsLayout (c :: cs))
include hs hrest

theorem Scanner.StandsIn.exists_front :
    ∃ front, source = front ++ (lexeme c cs).text ++ (lexeme c cs).rest ∧
      s.offset + utf8Length gap = utf8Length front := by
  obtain ⟨front, hsource, hoffset⟩ := hs.place
  refine ⟨front ++ gap, ?_, ?_⟩
  · rw [hsource, hrest, append_assoc, append_assoc, lexeme_append]
  · rw [hoffset, utf8Length_append]

include hgap hmore

/-- A comment lies in front of the next token, or behind it in the text that is still to be read. -/
theorem Scanner.StandsIn.comment_apart {start stop : Nat} (h : CommentAt source start stop) :
    stop ≤ s.offset + utf8Length gap ∨
      CommentBehind (s.offset + utf8Length gap + utf8Length (lexeme c cs).text) (lexeme c cs).rest
        start stop := by
  rcases hs.comments start stop h with _ | ⟨_, _, hstart, hstop, hothers⟩
  · exact .inl (by omega)
  · rw [hrest] at hothers
    rcases hothers.of_gap hgap hmore with _ | hbehind
    · exact .inl (by omega)
    · rw [Nat.add_assoc]
      exact .inr (.add hstart hstop hbehind)

end

theorem Scanner.StandsIn.scan {source : List Char} {s : Scanner} (hs : s.StandsIn source)
    (hkind : s.scan.1.kind ≠ .endOfFile) : s.scan.2.StandsIn source := by
  rcases exists_gap s.rest with hgap | ⟨_, c, cs, hrest, hgap, hmore⟩
  · rw [scan_of_isLayout hgap] at hkind
    exact absurd rfl hkind
  · rw [scan_of_lexeme hrest hgap hmore]
    obtain ⟨front, hsource, hfront⟩ := hs.exists_front hrest
    refine ⟨⟨front ++ (lexeme c cs).text, hsource, ?_⟩, ?_⟩
    · show _ + _ + utf8Length (lexeme c cs).text = _
      rw [hfront, utf8Length_append]
    · intro _ _ h
      rcases hs.comment_apart hrest hgap hmore h with hle | hbehind
      · exact .inl (Nat.le_add_right_of_le hle)
      · exact .inr hbehind

/-- Where the scanner stands, the next token is what `lexeme` finds behind the gap. -/
theorem Scanner.exists_scan_eq {s : Scanner} (hkind : s.scan.1.kind ≠ .endOfFile) :
    ∃ gap c cs, s.rest = gap ++ c :: cs ∧ IsLayout (c :: cs) gap ∧ ¬ BeginsLayout (c :: cs) ∧
      s.scan.1 = (lexeme c cs).token (s.offset + utf8Length gap) := by
  rcases exists_gap s.rest with hgap | ⟨gap, c, cs, hrest, hgap, hmore⟩
  · rw [scan_of_isLayout hgap] at hkind
    exact absurd rfl hkind
  · exact ⟨gap, c, cs, hrest, hgap, hmore, by rw [scan_of_lexeme hrest hgap hmore]⟩

/-- The tokens of a source are the longest matches of the rules. Between them there is nothing but
layout. At the place of a token no layout begins, its text is the longest that a rule takes there,
or one character if none takes any, and it is of a class if and only if its text belongs to the
class. No token overlaps a comment. -/
theorem lex_maximal_munch (source : String) :
    Covers 0 source.toList (lex source) ∧
    (∀ t ∈ lex source, t.kind ≠ .endOfFile → ∃ front rest,
      source.toList = front ++ t.text.toList ++ rest ∧ t.span.start = utf8Length front ∧
      ¬ BeginsLayout (t.text.toList ++ rest) ∧ Munched t.text.toList rest ∧
      ∀ kind, t.kind = kind ↔ kind.Fits t.text.toList rest) ∧
    ∀ start stop, CommentAt source.toList start stop → ∀ t ∈ lex source, t.kind ≠ .endOfFile →
      t.span.stop ≤ start ∨ stop ≤ t.span.start := by
  have hstands := Scanner.standsIn_ofSource source
  refine ⟨covers_tokens (.ofSource source), ?_, ?_⟩
  · refine Scanner.forall_mem_tokens_of (·.StandsIn source.toList) (fun s hs => hs.scan) ?_ hstands
    intro s hs hkind
    obtain ⟨_, c, cs, hrest, _, hmore, hscan⟩ := Scanner.exists_scan_eq hkind
    obtain ⟨front, hsource, hfront⟩ := hs.exists_front hrest
    rw [hscan]
    refine ⟨front, (lexeme c cs).rest, ?_, hfront, ?_, ?_, ?_⟩ <;> rw [Lexeme.toList_text_token]
    · exact hsource
    · rw [lexeme_append]
      exact hmore
    · exact munched_lexeme hmore
    · exact kind_lexeme_eq_iff hmore
  · intro _ _ hcomment
    refine Scanner.forall_mem_tokens_of (·.StandsIn source.toList) (fun s hs => hs.scan) ?_ hstands
    intro _ hs hkind
    obtain ⟨_, _, _, hrest, hgap, hmore, hscan⟩ := Scanner.exists_scan_eq hkind
    rw [hscan]
    rcases hs.comment_apart hrest hgap hmore hcomment with hle | ⟨_, _, hstart, -, -⟩
    · exact .inr hle
    · exact .inl (hstart ▸ Nat.le_add_right _ _)

end MiniJava
