import MiniJava.Proofs.Token.Lexemes

/-!
# The gaps between tokens

`IsLayout` is the grammar of layout: blanks and comments, all of them complete. It looks at what
follows, because a line comment goes on as far as the line does. The scanner skips nothing but
layout (`finds_splitLayout`), and all of it: what is left does not begin with layout
(`not_beginsLayout_splitLayout`), and no other gap and rest are of this kind (`splitLayout_eq_iff`).

So a scan goes over the gap in front of it and what `lexeme` finds there (`Scanner.scan_of_lexeme`),
or over the last gap of the text (`Scanner.scan_of_isLayout`).
-/

namespace MiniJava

open List

/-! ## Layout -/

/-- The characters that end a line. -/
def IsLineBreak (c : Char) : Prop := c = '\n' ∨ c = '\r'

/-- In front of `rest`, the text is made of blanks and complete comments: a line comment reaches up
to the next line break or the end, a block comment up to the first closing mark. -/
inductive IsLayout (rest : List Char) : List Char → Prop
  | nil : IsLayout rest []
  | blank {c : Char} {gap : List Char} (hc : c = ' ' ∨ c = '\t' ∨ c = '\r' ∨ c = '\n')
      (h : IsLayout rest gap) : IsLayout rest (c :: gap)
  | lineComment {body gap : List Char} (hbody : ∀ c ∈ body, ¬ IsLineBreak c)
      (hend : ∀ c ∈ (gap ++ rest).head?, IsLineBreak c) (h : IsLayout rest gap) :
      IsLayout rest ('/' :: '/' :: body ++ gap)
  | blockComment {body gap : List Char} (hbody : ¬ ['*', '/'] <:+: body ++ ['*'])
      (h : IsLayout rest gap) : IsLayout rest ('/' :: '*' :: body ++ '*' :: '/' :: gap)

/-- What a split in each mode finds: layout, or what is left of a comment and then layout. -/
def LayoutMode.Finds (text gap rest : List Char) : LayoutMode → Prop
  | .outside => IsLayout rest gap
  | .lineComment => ∃ body gap', gap = body ++ gap' ∧ (∀ c ∈ body, ¬ IsLineBreak c) ∧
      (∀ c ∈ (gap' ++ rest).head?, IsLineBreak c) ∧ IsLayout rest gap'
  | .blockComment => closesComment text = true →
      ∃ body gap', gap = body ++ '*' :: '/' :: gap' ∧ ¬ ['*', '/'] <:+: body ++ ['*'] ∧
        IsLayout rest gap'

variable {gap rest body cs : List Char}

/-- A comment that goes on behind a character is not closed by that character. -/
theorem not_closing_cons {c : Char} (hopen : ∀ tail, c = '*' → cs = '/' :: tail → False)
    (hcs : body ++ '*' :: '/' :: gap ++ rest = cs) (h : ¬ ['*', '/'] <:+: body ++ ['*']) :
    ¬ ['*', '/'] <:+: c :: body ++ ['*'] := by
  intro hinfix
  rcases infix_cons_iff.mp hinfix with hprefix | hinfix
  · obtain ⟨_, htail⟩ := hprefix
    obtain ⟨hc, hbody⟩ := cons.inj htail
    cases body with
    | nil => cases hbody
    | cons =>
      obtain ⟨hd, -⟩ := cons.inj hbody
      exact hopen _ hc.symm (hcs.symm.trans (by rw [← hd]; rfl))
  · exact h hinfix

/-- Splitting finds the layout in front, whatever mode it starts in. -/
theorem finds_splitLayout (mode : LayoutMode) (cs : List Char) :
    mode.Finds cs (splitLayout mode cs).1 (splitLayout mode cs).2 := by
  fun_induction splitLayout mode cs with
  | case1 _ _ _ hsplit ih =>
    rw [hsplit] at ih
    obtain ⟨_, _, rfl, hbody, hend, hgap⟩ := ih
    exact .lineComment hbody hend hgap
  | case2 _ hclosed _ _ hsplit ih =>
    rw [hsplit] at ih
    obtain ⟨_, _, rfl, hbody, hgap⟩ := ih hclosed
    exact .blockComment hbody hgap
  | case3 _ _ => exact .nil
  | case4 _ _ _ _ hblank _ _ hsplit ih =>
    rw [hsplit] at ih
    exact .blank (isBlank_iff.mp hblank) ih
  | case5 => exact .nil
  | case6 c _ mode gap _ hsplit ih =>
    rw [hsplit] at ih
    -- A line break ends the comment, but is layout itself.
    by_cases hbreak : c = '\n' ∨ c = '\r'
    · have hmode : mode = .outside := by simp [mode, hbreak]
      rw [hmode] at ih
      have hblank : c = ' ' ∨ c = '\t' ∨ c = '\r' ∨ c = '\n' := by
        rcases hbreak with rfl | rfl <;> decide
      refine ⟨[], c :: gap, rfl, forall_mem_nil _, ?_, .blank hblank ih⟩
      rintro _ ⟨⟩
      exact hbreak
    · have hmode : mode = .lineComment := by simp [mode, hbreak]
      rw [hmode] at ih
      obtain ⟨body, gap', rfl, hbody, hend, hgap⟩ := ih
      exact ⟨c :: body, gap', rfl, forall_mem_cons.mpr ⟨hbreak, hbody⟩, hend, hgap⟩
  | case7 _ gap _ hsplit ih =>
    rw [hsplit] at ih
    exact fun _ => ⟨[], gap, rfl, by decide, ih⟩
  | case8 c cs hopen _ _ hsplit ih =>
    rw [hsplit] at ih
    intro hclosed
    have hclosed' : closesComment cs = true := by
      rwa [closesComment] at hclosed
      exact hopen
    obtain ⟨body, gap', rfl, hbody, hgap⟩ := ih hclosed'
    have hcs := splitLayout_append .blockComment cs
    rw [hsplit] at hcs
    exact ⟨c :: body, gap', rfl, not_closing_cons hopen hcs hbody, hgap⟩
  | case9 mode =>
    cases mode with
    | outside => exact .nil
    | lineComment =>
      refine ⟨[], [], rfl, forall_mem_nil _, ?_, .nil⟩
      rintro _ ⟨⟩
    | blockComment => rintro ⟨⟩

/-! ## No layout is left -/

/-- A blank or a comment stands at the head of the text. -/
inductive BeginsLayout : List Char → Prop
  | blank {c : Char} {cs : List Char} (hc : c = ' ' ∨ c = '\t' ∨ c = '\r' ∨ c = '\n') :
      BeginsLayout (c :: cs)
  | lineComment {cs : List Char} : BeginsLayout ('/' :: '/' :: cs)
  | blockComment {cs : List Char} (hclosed : ['*', '/'] <:+: cs) : BeginsLayout ('/' :: '*' :: cs)

theorem closesComment_iff (cs : List Char) : closesComment cs = true ↔ ['*', '/'] <:+: cs := by
  fun_induction closesComment cs with
  | case1 _ => simp [infix_cons_iff]
  | case2 _ _ hopen ih =>
    rw [ih, infix_cons_iff]
    constructor
    · intro h
      exact .inr h
    · intro h
      rcases h with ⟨tail, htail⟩ | h
      · obtain ⟨hc, hcs⟩ := cons.inj htail
        exact (hopen tail hc.symm hcs.symm).elim
      · exact h
  | case3 => simp

/-- Nothing is split off a text that does not begin with layout. -/
theorem splitLayout_eq_nil (h : ¬ BeginsLayout cs) : splitLayout .outside cs = ([], cs) := by
  cases cs with
  | nil => rfl
  | cons c cs =>
    by_cases hblock : ∃ tail, c = '/' ∧ cs = '*' :: tail
    · obtain ⟨tail, rfl, rfl⟩ := hblock
      have hopen : ¬ closesComment tail = true := by
        intro hclosed
        exact h (.blockComment ((closesComment_iff tail).mp hclosed))
      rw [splitLayout, if_neg hopen]
    · have hblank : ¬ isBlank c = true := by
        intro hc
        exact h (.blank (isBlank_iff.mp hc))
      rw [splitLayout, if_neg hblank]
      · intro tail hc hcs
        subst hc hcs
        exact h .lineComment
      · intro tail hc hcs
        exact hblock ⟨tail, hc, hcs⟩

/-- What is left behind layout does not begin with layout, wherever the split began. -/
theorem not_beginsLayout_splitLayout (mode : LayoutMode) (cs : List Char) :
    ¬ BeginsLayout (splitLayout mode cs).2 := by
  fun_induction splitLayout mode cs with
  | case1 _ _ _ hsplit ih | case2 _ _ _ _ hsplit ih | case4 _ _ _ _ _ _ _ hsplit ih
  | case6 _ _ _ _ _ hsplit ih | case7 _ _ _ hsplit ih | case8 _ _ _ _ _ hsplit ih =>
    rwa [hsplit] at ih
  | case3 cs hopen =>
    intro h
    cases h with
    | blank hc => revert hc; decide
    | blockComment hclosed => exact hopen ((closesComment_iff cs).mpr hclosed)
  | case5 _ _ hline hblock hblank =>
    intro h
    cases h with
    | blank hc => exact hblank (isBlank_iff.mpr hc)
    | lineComment => exact hline _ rfl rfl
    | blockComment => exact hblock _ rfl rfl
  | case9 =>
    intro h
    cases h

/-! ## All layout is split off -/

/-- In a line comment, the text up to the next line break is split off, and the layout behind it. -/
theorem splitLayout_lineComment {more : List Char} (hbody : ∀ c ∈ body, ¬ IsLineBreak c)
    (hend : ∀ c ∈ more.head?, IsLineBreak c) :
    splitLayout .lineComment (body ++ more) =
      (body ++ (splitLayout .outside more).1, (splitLayout .outside more).2) := by
  induction body with
  | nil =>
    cases more with
    | nil => rfl
    | cons c =>
      -- The line break is the first blank of the layout behind the comment.
      rcases hend c rfl with rfl | rfl <;> rfl
  | cons c _ ih =>
    obtain ⟨hc, hbody⟩ := forall_mem_cons.mp hbody
    have hmode : ¬ (decide (c = '\n') || decide (c = '\r')) = true := by
      simpa [IsLineBreak] using hc
    rw [cons_append, splitLayout, if_neg hmode, ih hbody]
    rfl

/-- In a block comment, the text up to the first closing mark is split off, and the layout behind
it. -/
theorem splitLayout_blockComment (more : List Char) (hbody : ¬ ['*', '/'] <:+: body ++ ['*']) :
    splitLayout .blockComment (body ++ '*' :: '/' :: more) =
      (body ++ '*' :: '/' :: (splitLayout .outside more).1, (splitLayout .outside more).2) := by
  induction body with
  | nil => rfl
  | cons c body ih =>
    have hopen : ∀ tail, c = '*' → body ++ '*' :: '/' :: more = '/' :: tail → False := by
      intro _ hc htail
      cases body with
      | nil => cases htail
      | cons _ body =>
        obtain ⟨rfl, -⟩ := cons.inj htail
        subst hc
        exact hbody ⟨[], body ++ ['*'], rfl⟩
    have hinner : ¬ ['*', '/'] <:+: body ++ ['*'] := by
      intro h
      exact hbody (h.trans (suffix_cons c _).isInfix)
    rw [cons_append, splitLayout, ih hinner]
    · rfl
    · exact hopen

/-- Layout in front of a text that does not begin with layout is split off whole. -/
theorem splitLayout_of_isLayout (hgap : IsLayout rest gap) (hrest : ¬ BeginsLayout rest) :
    splitLayout .outside (gap ++ rest) = (gap, rest) := by
  induction hgap with
  | nil => exact splitLayout_eq_nil hrest
  | blank hc _ ih => rw [cons_append, splitLayout_blank (isBlank_iff.mpr hc), ih]
  | @lineComment body gap hbody hend h ih =>
    rw [append_assoc, cons_append, cons_append, splitLayout, splitLayout_lineComment hbody hend, ih]
    rfl
  | @blockComment body gap hbody h ih =>
    have hclosed : closesComment (body ++ '*' :: '/' :: (gap ++ rest)) = true :=
      (closesComment_iff _).mpr ⟨body, gap ++ rest, by simp⟩
    rw [append_assoc, cons_append, cons_append, cons_append, cons_append,
      splitLayout, if_pos hclosed, splitLayout_blockComment _ hbody, ih]
    rfl

/-- A text can be split into layout and a text that does not begin with layout in one way, and the
scanner finds it. -/
theorem splitLayout_eq_iff {text : List Char} :
    splitLayout .outside text = (gap, rest) ↔
      text = gap ++ rest ∧ IsLayout rest gap ∧ ¬ BeginsLayout rest := by
  constructor
  · intro h
    have happend := splitLayout_append .outside text
    have hfinds := finds_splitLayout .outside text
    have hend := not_beginsLayout_splitLayout .outside text
    rw [h] at happend hfinds hend
    exact ⟨happend.symm, hfinds, hend⟩
  · intro h
    obtain ⟨htext, hgap, hend⟩ := h
    rw [htext]
    exact splitLayout_of_isLayout hgap hend

/-- A text is layout, or a gap and then a text that does not begin with layout. -/
theorem exists_gap (text : List Char) :
    IsLayout [] text ∨
    ∃ gap c cs, text = gap ++ c :: cs ∧ IsLayout (c :: cs) gap ∧ ¬ BeginsLayout (c :: cs) := by
  obtain ⟨htext, hgap, hrest⟩ := splitLayout_eq_iff.mp (Prod.eta (splitLayout .outside text)).symm
  generalize (splitLayout .outside text).1 = gap at htext hgap
  generalize (splitLayout .outside text).2 = rest at htext hgap hrest
  cases rest with
  | nil =>
    rw [htext, append_nil]
    exact .inl hgap
  | cons c cs => exact .inr ⟨gap, c, cs, htext, hgap, hrest⟩

/-! ## Scanning -/

/-- The token that a lexeme makes where it begins. -/
def Lexeme.token (l : Lexeme) (start : Nat) : Token :=
  ⟨l.kind, String.ofList l.text, ⟨start, start + utf8Length l.text⟩⟩

@[simp]
theorem Lexeme.toList_text_token (l : Lexeme) (start : Nat) :
    (l.token start).text.toList = l.text :=
  String.toList_ofList

namespace Scanner

variable {s : Scanner}

/-- Behind the last token there is layout, and then the end of the file. -/
theorem scan_of_isLayout (h : IsLayout [] s.rest) :
    s.scan =
      (⟨.endOfFile, "", ⟨s.offset + utf8Length s.rest, s.offset + utf8Length s.rest⟩⟩,
        ⟨[], s.offset + utf8Length s.rest, s.pending⟩) := by
  have hsplit : splitLayout .outside s.rest = (s.rest, []) :=
    splitLayout_eq_iff.mpr ⟨(append_nil _).symm, h, nofun⟩
  unfold scan
  rw [hsplit]

/-- Before the end, a scan goes over a gap and the lexeme behind it. -/
theorem scan_of_lexeme {c : Char} (hrest : s.rest = gap ++ c :: cs) (hgap : IsLayout (c :: cs) gap)
    (hmore : ¬ BeginsLayout (c :: cs)) :
    s.scan =
      ((lexeme c cs).token (s.offset + utf8Length gap),
        ⟨(lexeme c cs).rest, s.offset + utf8Length gap + utf8Length (lexeme c cs).text,
          s.pending ++ ((lexeme c cs).token (s.offset + utf8Length gap)).diagnostic?.toList⟩) := by
  have hsplit : splitLayout .outside s.rest = (gap, c :: cs) :=
    splitLayout_eq_iff.mpr ⟨hrest, hgap, hmore⟩
  unfold scan
  rw [hsplit]
  rfl

end Scanner

/-! ## Lexemes with gaps around them -/

/-- The text is made of these lexemes in turn, with gaps in front of them and a last one behind
them. Each lexeme ends at a blank or at the end of the text. -/
inductive Spells : List (TokenKind × List Char) → List Char → Prop
  | last {gap : List Char} (hgap : IsLayout [] gap) : Spells [] gap
  | lexeme {kind : TokenKind} {text gap rest : List Char} {ls : List (TokenKind × List Char)}
      (hgap : IsLayout (text ++ rest) gap) (hlexeme : IsLexeme kind text) (hrest : Separates rest)
      (h : Spells ls rest) : Spells ((kind, text) :: ls) (gap ++ (text ++ rest))

namespace Scanner

variable {s : Scanner}

/-- A lexeme behind a gap is scanned as it is. -/
theorem scan_of_isLexeme {kind : TokenKind} {text : List Char} (hs : s.rest = gap ++ (text ++ rest))
    (hgap : IsLayout (text ++ rest) gap) (hlexeme : IsLexeme kind text) (hrest : Separates rest) :
    s.scan.1.kind = kind ∧ s.scan.1.text = String.ofList text ∧ s.scan.2.rest = rest := by
  obtain ⟨c, cs, rfl, hfound, hlayout⟩ := hlexeme.lexeme_eq hrest
  obtain ⟨-, -, hmore⟩ := splitLayout_eq_iff.mp hlayout
  rw [scan_of_lexeme hs hgap hmore]
  show (lexeme c (cs ++ rest)).kind = kind ∧ String.ofList (lexeme c (cs ++ rest)).text = _ ∧
    (lexeme c (cs ++ rest)).rest = rest
  rw [hfound]
  exact ⟨rfl, rfl, rfl⟩

/-- What spells lexemes is scanned as these lexemes. -/
theorem tokens_of_spells {ls : List (TokenKind × List Char)} (h : Spells ls s.rest) :
    s.tokens.map (fun t => (t.kind, t.text)) =
      ls.map (fun l => (l.1, String.ofList l.2)) ++ [(.endOfFile, "")] := by
  generalize htext : s.rest = text at h
  induction h generalizing s with
  | last hgap =>
    rw [tokens_eq, scan_of_isLayout (htext ▸ hgap)]
    rfl
  | lexeme hgap hlexeme hrest _ ih =>
    obtain ⟨hkind, hword, hnext⟩ := scan_of_isLexeme htext hgap hlexeme hrest
    have hmore : s.scan.1.kind ≠ .endOfFile := by
      rw [hkind]
      intro hend
      rw [hend] at hlexeme
      cases hlexeme
    rw [tokens_eq, if_neg hmore, map_cons, hkind, hword, ih hnext]
    rfl

/-- Lexemes with a blank in front of each are scanned as they are. -/
theorem tokens_spaced {ls : List (TokenKind × List Char)} (h : ∀ l ∈ ls, IsLexeme l.1 l.2)
    (hs : s.rest = spaced ls) :
    s.tokens.map (fun t => (t.kind, t.text)) =
      ls.map (fun l => (l.1, String.ofList l.2)) ++ [(.endOfFile, "")] := by
  have hspells : Spells ls (spaced ls) := by
    clear hs
    induction ls with
    | nil => exact .last .nil
    | cons l ls ih =>
      obtain ⟨hl, hls⟩ := forall_mem_cons.mp h
      have hgap : IsLayout (l.2 ++ spaced ls) [' '] := .blank (.inl rfl) .nil
      exact .lexeme hgap hl (separates_spaced ls) (ih hls)
  rw [← hs] at hspells
  exact tokens_of_spells hspells

end Scanner

end MiniJava
