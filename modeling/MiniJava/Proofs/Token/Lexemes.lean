import MiniJava.Proofs.Token.Tokens

/-!
# Lexemes

`IsLexeme` says which texts are tokens of which class. The scanner finds such a text whole, where a
blank or nothing follows it, and it finds no other text as a token that is valid
(`isLexeme_of_mem_tokens`).
-/

namespace MiniJava

/-- The text is a lexeme of this class. -/
inductive IsLexeme : TokenKind → List Char → Prop
  | keyword (k : Keyword) : IsLexeme (.keyword k) k.text.toList
  | symbol (s : Symbol) : IsLexeme (.symbol s) s.text.toList
  | number {c : Char} {cs : List Char} (hc : c.isDigit = true) (hcs : ∀ d ∈ cs, d.isDigit = true) :
      IsLexeme .number (c :: cs)
  | identifier {c : Char} {cs : List Char} (hc : c.isAlpha = true)
      (hcs : ∀ d ∈ cs, isWordChar d = true)
      (hword : Keyword.ofText? (String.ofList (c :: cs)) = none) : IsLexeme .identifier (c :: cs)

/-- A lexeme can end in front of this text: it is empty or begins with a blank. -/
def Separates (rest : List Char) : Prop := ∀ c ∈ rest.head?, isBlank c = true

/-! ## Where a lexeme ends -/

variable {c : Char}

theorem isBlank_iff : isBlank c = true ↔ c = ' ' ∨ c = '\t' ∨ c = '\r' ∨ c = '\n' := by
  simp [isBlank, or_assoc]

theorem not_isWordChar_of_isBlank (h : isBlank c = true) : isWordChar c = false := by
  rcases isBlank_iff.mp h with rfl | rfl | rfl | rfl <;> decide

theorem not_isDigit_of_isBlank (h : isBlank c = true) : c.isDigit = false := by
  rcases isBlank_iff.mp h with rfl | rfl | rfl | rfl <;> decide

variable {p : Char → Bool} {cs rest : List Char}

/-- Characters of one kind are split off up to a blank. -/
theorem takeWhile_separates (hp : ∀ c, isBlank c = true → p c = false)
    (hcs : ∀ c ∈ cs, p c = true) (h : Separates rest) :
    (cs ++ rest).takeWhile p = cs ∧ (cs ++ rest).dropWhile p = rest := by
  rw [List.takeWhile_append_of_pos hcs, List.dropWhile_append_of_pos hcs]
  cases rest with
  | nil => simp
  | cons b => simp [hp b (h b rfl)]

theorem lexeme_word (hc : c.isAlpha = true) (hcs : ∀ d ∈ cs, isWordChar d = true)
    (h : Separates rest) : lexeme c (cs ++ rest) = ⟨wordKind (c :: cs), c :: cs, rest⟩ := by
  obtain ⟨htake, hdrop⟩ := takeWhile_separates (fun _ => not_isWordChar_of_isBlank) hcs h
  rw [lexeme, if_pos hc, htake, hdrop]

theorem not_isAlpha_of_isDigit (h : c.isDigit = true) : c.isAlpha = false := by
  have hdigit : 48 ≤ c.val ∧ c.val ≤ 57 := by simpa [Char.isDigit] using h
  show (decide (c.val ≥ 65 ∧ c.val ≤ 90) || (decide (c.val ≥ 97) && decide (c.val ≤ 122))) = false
  simp [UInt32.le_iff_toNat_le] at hdigit ⊢
  omega

theorem lexeme_number (hc : c.isDigit = true) (hcs : ∀ d ∈ cs, d.isDigit = true)
    (h : Separates rest) : lexeme c (cs ++ rest) = ⟨.number, c :: cs, rest⟩ := by
  obtain ⟨htake, hdrop⟩ := takeWhile_separates (fun _ => not_isDigit_of_isBlank) hcs h
  rw [lexeme, if_neg (Bool.eq_false_iff.mp (not_isAlpha_of_isDigit hc)), if_pos hc, htake, hdrop]

theorem lexeme_symbol (s : Symbol) (h : Separates rest) :
    ∃ c cs, s.text.toList = c :: cs ∧ lexeme c (cs ++ rest) = ⟨.symbol s, c :: cs, rest⟩ ∧
      splitLayout .outside (c :: cs ++ rest) = ([], c :: cs ++ rest) := by
  cases rest with
  | nil => cases s <;> exact ⟨_, _, rfl, rfl, rfl⟩
  | cons b =>
    rcases isBlank_iff.mp (h b rfl) with rfl | rfl | rfl | rfl <;> cases s <;>
      exact ⟨_, _, rfl, rfl, rfl⟩

/-- No layout begins with a character other than a blank or a slash. -/
theorem splitLayout_of_ne (hblank : isBlank c = false) (hslash : c ≠ '/') (cs : List Char) :
    splitLayout .outside (c :: cs) = ([], c :: cs) := by
  unfold splitLayout
  split <;> simp_all

theorem splitLayout_of_isWordChar (hc : isWordChar c = true) (cs : List Char) :
    splitLayout .outside (c :: cs) = ([], c :: cs) := by
  refine splitLayout_of_ne ?_ ?_ cs
  · rw [← Bool.not_eq_true]
    intro hblank
    rw [not_isWordChar_of_isBlank hblank] at hc
    cases hc
  · rintro rfl
    revert hc
    decide

/-- A blank in front of a text is layout. -/
theorem splitLayout_blank (h : isBlank c = true) (cs : List Char) :
    splitLayout .outside (c :: cs) =
      (c :: (splitLayout .outside cs).1, (splitLayout .outside cs).2) := by
  rcases isBlank_iff.mp h with rfl | rfl | rfl | rfl <;> rfl

/-- In front of a blank the scanner finds a lexeme whole. -/
theorem IsLexeme.lexeme_eq {kind : TokenKind} {text : List Char} (h : IsLexeme kind text)
    (hrest : Separates rest) :
    ∃ c cs, text = c :: cs ∧ lexeme c (cs ++ rest) = ⟨kind, text, rest⟩ ∧
      splitLayout .outside (text ++ rest) = ([], text ++ rest) := by
  cases h with
  | keyword k =>
    -- Every keyword is a word, and only the table tells it from an identifier.
    have hword : ∃ c cs, k.text.toList = c :: cs ∧ c.isAlpha = true ∧
        (∀ d ∈ cs, isWordChar d = true) ∧ wordKind (c :: cs) = .keyword k := by
      cases k <;> exact ⟨_, _, rfl, by decide, List.all_eq_true.mp (by decide), by decide⟩
    obtain ⟨c, cs, htext, hc, hcs, hkind⟩ := hword
    rw [htext]
    refine ⟨c, cs, rfl, ?_, splitLayout_of_isWordChar ?_ _⟩
    · rw [lexeme_word hc hcs hrest, hkind]
    · simp [isWordChar, Char.isAlphanum, hc]
  | symbol s =>
    obtain ⟨c, cs, htext, hlexeme, hlayout⟩ := lexeme_symbol s hrest
    rw [htext]
    exact ⟨c, cs, rfl, hlexeme, hlayout⟩
  | number hc hcs =>
    refine ⟨_, _, rfl, lexeme_number hc hcs hrest, splitLayout_of_isWordChar ?_ _⟩
    simp [isWordChar, Char.isAlphanum, hc]
  | identifier hc hcs hword =>
    refine ⟨_, _, rfl, ?_, splitLayout_of_isWordChar ?_ _⟩
    · rw [lexeme_word hc hcs hrest, wordKind, hword]
    · simp [isWordChar, Char.isAlphanum, hc]

/-! ## What the scanner finds -/

theorem ofText?_eq_some {text : String} {k : Keyword} (h : Keyword.ofText? text = some k) :
    k.text = text := by
  simpa using List.find?_some h

/-- What the scanner can find at the head of a text, by the character that it begins with. -/
inductive Lexeme.Found (c : Char) (cs : List Char) : Lexeme → Prop
  | word (hc : c.isAlpha = true) :
      Found c cs ⟨wordKind (c :: cs.takeWhile isWordChar), c :: cs.takeWhile isWordChar,
        cs.dropWhile isWordChar⟩
  | number (hc : c.isDigit = true) :
      Found c cs ⟨.number, c :: cs.takeWhile Char.isDigit, cs.dropWhile Char.isDigit⟩
  | underscoreWord (hc : c = '_') :
      Found c cs ⟨.invalid .underscoreWord, c :: cs.takeWhile isWordChar, cs.dropWhile isWordChar⟩
  | openComment {tail : List Char} (hc : c = '/') (hcs : cs = '*' :: tail) :
      Found c cs ⟨.invalid .openComment, c :: cs, []⟩
  | symbol {s : Symbol} {rest : List Char} (hcomment : ∀ tail, c = '/' → cs ≠ '*' :: tail)
      (hsymbol : symbol? (c :: cs) = some (s, rest)) : Found c cs ⟨.symbol s, s.text.toList, rest⟩
  | stray (halpha : c.isAlpha = false) (hdigit : c.isDigit = false) (hunderscore : c ≠ '_')
      (hsymbol : symbol? (c :: cs) = none) : Found c cs ⟨.invalid (strayFault c), [c], cs⟩

theorem found_lexeme (c : Char) (cs : List Char) : (lexeme c cs).Found c cs := by
  unfold lexeme
  split
  next halpha => exact .word halpha
  next halpha =>
    split
    next hdigit => exact .number hdigit
    next hdigit =>
      split
      next hunderscore => exact .underscoreWord hunderscore
      next hunderscore =>
        split
        next hcomment =>
          simp only [Bool.and_eq_true, decide_eq_true_eq, List.head?_eq_some_iff] at hcomment
          obtain ⟨hc, _, hcs⟩ := hcomment
          exact .openComment hc hcs
        next hcomment =>
          split
          next hsymbol =>
            refine .symbol ?_ hsymbol
            intro _ hc hcs
            simp [hc, hcs] at hcomment
          next hsymbol =>
            exact .stray (Bool.eq_false_iff.mpr halpha) (Bool.eq_false_iff.mpr hdigit) hunderscore
              hsymbol

/-- A text that the scanner finds is a lexeme of its class, or it is invalid. -/
theorem isLexeme_lexeme (c : Char) (cs : List Char)
    (h : ∀ fault, (lexeme c cs).kind ≠ .invalid fault) :
    IsLexeme (lexeme c cs).kind (lexeme c cs).text := by
  have hfound := found_lexeme c cs
  generalize lexeme c cs = l at h hfound ⊢
  cases hfound with
  | word hc =>
    have hcs : ∀ d ∈ cs.takeWhile isWordChar, isWordChar d = true :=
      List.all_eq_true.mp List.all_takeWhile
    show IsLexeme (wordKind _) (c :: cs.takeWhile isWordChar)
    rw [wordKind]
    split
    next k hk =>
      have htext := congrArg String.toList (ofText?_eq_some hk)
      rw [String.toList_ofList] at htext
      rw [← htext]
      exact .keyword k
    next hk => exact .identifier hc hcs hk
  | number hc => exact .number hc (List.all_eq_true.mp List.all_takeWhile)
  | symbol => exact .symbol _
  | underscoreWord | openComment | stray => exact absurd rfl (h _)

namespace Scanner

/-- What holds of the next token wherever the scanner stands holds of all tokens. The places where
it stands may have a property that one step keeps. -/
theorem forall_mem_tokens_of (Stands : Scanner → Prop) {P : Token → Prop}
    (hstep : ∀ s, Stands s → s.scan.1.kind ≠ .endOfFile → Stands s.scan.2)
    (h : ∀ s, Stands s → P s.scan.1) {s : Scanner} (hs : Stands s) : ∀ t ∈ s.tokens, P t := by
  induction hn : s.rest.length using Nat.strongRecOn generalizing s with
  | ind _ ih =>
    rw [tokens_eq]
    split
    next => exact List.forall_mem_singleton.mpr (h s hs)
    next hmore =>
      exact List.forall_mem_cons.mpr
        ⟨h s hs, ih _ (hn ▸ rest_scan_lt s hmore) (hstep s hs hmore) rfl⟩

/-- What holds of every token that a scanner can read next holds of all tokens. -/
theorem forall_mem_tokens {P : Token → Prop} (h : ∀ s : Scanner, P s.scan.1) (s : Scanner) :
    ∀ t ∈ s.tokens, P t :=
  forall_mem_tokens_of (fun _ => True) (fun _ _ _ => trivial) (fun s _ => h s) trivial

/-- A token that is valid and not the end of the file is a lexeme. -/
theorem isLexeme_of_mem_tokens (s : Scanner) : ∀ t ∈ s.tokens, t.kind ≠ .endOfFile →
    t.diagnostic? = none → IsLexeme t.kind t.text.toList := by
  refine forall_mem_tokens (fun s => ?_) s
  unfold scan
  split
  next => exact fun hmore _ => absurd rfl hmore
  next c cs _ =>
    intro _ hvalid
    show IsLexeme (lexeme c cs).kind (String.ofList (lexeme c cs).text).toList
    rw [String.toList_ofList]
    refine isLexeme_lexeme c cs fun fault hfault => ?_
    unfold Token.diagnostic? at hvalid
    simp [hfault] at hvalid

/-- Lexemes with a blank in front of each. -/
def spaced (ls : List (TokenKind × List Char)) : List Char := ls.flatMap fun l => ' ' :: l.2

theorem separates_spaced (ls : List (TokenKind × List Char)) : Separates (spaced ls) := by
  cases ls with
  | nil => exact nofun
  | cons =>
    intro _ hc
    cases hc
    rfl

end Scanner

end MiniJava
