import MiniJava.Proofs.Token.Histories

/-!
# Scanning undoes spelling

A list of lexemes can be written down in many ways: between two of them, in front of the first and
behind the last there is room for blanks and comments of all kinds. The scanner sees none of it
(`lex_written`).

A separator is layout in front of every text (`IsSeparator.append`), because each of its comments
ends in it. So what is written down spells the lexemes, in the sense of `Spells`.
-/

namespace MiniJava

open List

/-! ## Separators -/

/-- Blanks and comments in turn. A line comment ends with its line, and a block comment may have any
text but its closing mark. -/
inductive IsSeparator : List Char → Prop
  | nil : IsSeparator []
  | blank {c : Char} {gap : List Char} (hc : c = ' ' ∨ c = '\t' ∨ c = '\r' ∨ c = '\n')
      (h : IsSeparator gap) : IsSeparator (c :: gap)
  | lineComment {body gap : List Char} {c : Char} (hbody : ∀ d ∈ body, ¬ IsLineBreak d)
      (hc : IsLineBreak c) (h : IsSeparator gap) : IsSeparator ('/' :: '/' :: body ++ c :: gap)
  | blockComment {body gap : List Char} (hbody : ¬ ['*', '/'] <:+: body) (h : IsSeparator gap) :
      IsSeparator ('/' :: '*' :: body ++ '*' :: '/' :: gap)

/-- A line comment that the end of the text ends. -/
def IsLastLine (text : List Char) : Prop :=
  ∃ body, text = '/' :: '/' :: body ∧ ∀ c ∈ body, ¬ IsLineBreak c

/-- A blank is the first character. -/
def BeginsBlank (text : List Char) : Prop :=
  ∃ c cs, text = c :: cs ∧ (c = ' ' ∨ c = '\t' ∨ c = '\r' ∨ c = '\n')

/-- The star of the closing mark does not close the comment any earlier. -/
theorem not_closing_concat {body : List Char} (h : ¬ ['*', '/'] <:+: body) :
    ¬ ['*', '/'] <:+: body ++ ['*'] := by
  intro hclosing
  rcases infix_concat_iff.mp hclosing with hlast | hinner
  · rcases suffix_concat_iff.mp hlast with hnil | ⟨_, hfront, -⟩
    · cases hnil
    · have hstar := congrArg List.getLast? hfront
      rw [getLast?_concat] at hstar
      cases hstar
  · exact h hinner

/-- A separator in front of layout is layout. -/
theorem IsSeparator.append {gap more rest : List Char} (h : IsSeparator gap)
    (hmore : IsLayout rest more) : IsLayout rest (gap ++ more) := by
  induction h with
  | nil => exact hmore
  | blank hc _ ih => exact .blank hc ih
  | @lineComment body gap c hbody hc _ ih =>
    have hblank : c = ' ' ∨ c = '\t' ∨ c = '\r' ∨ c = '\n' := by
      rcases hc with hc | hc
      · exact .inr (.inr (.inr hc))
      · exact .inr (.inr (.inl hc))
    rw [append_assoc]
    -- The line break is layout by itself, so it may end the comment.
    refine .lineComment hbody ?_ (.blank hblank ih)
    intro _ hd
    cases hd
    exact hc
  | @blockComment body gap hbody _ ih =>
    rw [append_assoc]
    exact .blockComment (not_closing_concat hbody) ih

theorem IsSeparator.isLayout {gap : List Char} (h : IsSeparator gap) (rest : List Char) :
    IsLayout rest gap := by
  have hnil : IsLayout rest [] := .nil
  have hlayout := h.append hnil
  rwa [append_nil] at hlayout

theorem isLayout_of_isLastLine {text : List Char} (h : IsLastLine text) : IsLayout [] text := by
  obtain ⟨body, rfl, hbody⟩ := h
  have hlayout : IsLayout [] ('/' :: '/' :: body ++ []) := .lineComment hbody nofun .nil
  rwa [append_nil] at hlayout

/-! ## Writing lexemes down -/

/-- A lexeme of a class, and what is written behind it. -/
structure Piece where
  kind : TokenKind
  text : List Char
  gap : List Char

/-- Lexemes with a text in front of them, one behind each of them, and a last one. -/
def written (lead : List Char) (pieces : List Piece) (tail : List Char) : List Char :=
  lead ++ pieces.flatMap (fun p => p.text ++ p.gap) ++ tail

/-- The texts around the lexemes are separators. Those between two lexemes begin with a blank.
Behind the last lexeme there is nothing, or what is there begins with a blank and may end in a line
comment. -/
structure WellSpaced (lead : List Char) (pieces : List Piece) (tail : List Char) : Prop where
  lead : IsSeparator lead
  lexemes : ∀ p ∈ pieces, IsLexeme p.kind p.text
  gaps : ∀ p ∈ pieces, IsSeparator p.gap
  between : ∀ p ∈ pieces.dropLast, BeginsBlank p.gap
  behind : ∀ p ∈ pieces.getLast?, BeginsBlank p.gap ∨ (p.gap = [] ∧ tail = [])
  tail : tail = [] ∨ IsLastLine tail

theorem separates_of_beginsBlank {gap : List Char} (h : BeginsBlank gap) (more : List Char) :
    Separates (gap ++ more) := by
  obtain ⟨_, _, rfl, hc⟩ := h
  intro _ hd
  cases hd
  exact isBlank_iff.mpr hc

namespace WellSpaced

variable {lead tail : List Char} {p : Piece} {pieces : List Piece}

/-- Behind the first lexeme, the others are well spaced as well. -/
theorem rest (h : WellSpaced lead (p :: pieces) tail) : WellSpaced p.gap pieces tail where
  lead := h.gaps p mem_cons_self
  lexemes q hq := h.lexemes q (mem_cons_of_mem p hq)
  gaps q hq := h.gaps q (mem_cons_of_mem p hq)
  between q hq := by
    refine h.between q ?_
    cases pieces with
    | nil => cases hq
    | cons => exact mem_cons_of_mem p hq
  behind q hq := by
    refine h.behind q ?_
    cases pieces with
    | nil => cases hq
    | cons =>
      rw [getLast?_cons_cons]
      exact hq
  tail := h.tail

/-- The first lexeme ends at a blank or at the end. -/
theorem separates (h : WellSpaced lead (p :: pieces) tail) :
    Separates (written p.gap pieces tail) := by
  cases pieces with
  | nil =>
    show Separates (p.gap ++ [] ++ tail)
    rw [append_nil]
    rcases h.behind p rfl with hblank | ⟨hgap, htail⟩
    · exact separates_of_beginsBlank hblank tail
    · rw [hgap, htail]
      exact nofun
  | cons =>
    unfold written
    rw [append_assoc]
    exact separates_of_beginsBlank (h.between p mem_cons_self) _

/-- What is written down spells the lexemes. -/
theorem spells (h : WellSpaced lead pieces tail) :
    Spells (pieces.map fun p => (p.kind, p.text)) (written lead pieces tail) := by
  induction pieces generalizing lead with
  | nil =>
    have htail : IsLayout [] tail := by
      rcases h.tail with htail | htail
      · rw [htail]
        exact .nil
      · exact isLayout_of_isLastLine htail
    show Spells [] (lead ++ [] ++ tail)
    rw [append_nil]
    exact .last (h.lead.append htail)
  | cons p pieces ih =>
    have hparts : written lead (p :: pieces) tail = lead ++
        (p.text ++ written p.gap pieces tail) := by
      simp only [written, flatMap_cons, append_assoc]
    rw [hparts]
    exact .lexeme (h.lead.isLayout _) (h.lexemes p mem_cons_self) h.separates (ih h.rest)

end WellSpaced

/-! ## Reports -/

theorem isInvalid_of_isLexeme {kind : TokenKind} {text : List Char} (h : IsLexeme kind text) :
    kind.isInvalid = false := by
  cases h <;> rfl

/-- Where no token is invalid, nothing is reported. -/
theorem History.reports_eq_nil {source : String} (h : ∀ t ∈ lex source, t.kind.isInvalid = false)
    (calls : List ScannerCall) : (ofCalls source calls).reports = [] := by
  have hkept := kept_ofCalls source calls
  have hvalid : (ofCalls source calls).tokens.filter (·.kind.isInvalid) = [] := by
    rw [filter_eq_nil_iff, hkept.read]
    refine forall_mem_map.mpr ?_
    intro k _
    unfold tokenAt
    cases hk : (lex source)[k]? with
    | none => exact Bool.false_ne_true
    | some t => exact Bool.eq_false_iff.mp (h t (mem_of_getElem? hk))
  have hreports := hkept.reports
  rw [hvalid] at hreports
  exact forall₂_nil_left_iff.mp hreports

/-- Lexemes that are written down with separators around them are scanned as these lexemes, whatever
the separators are. Nothing is reported, no matter what is called on the scanner. -/
theorem lex_written {lead tail : List Char} {pieces : List Piece}
    (h : WellSpaced lead pieces tail) :
    (lex (String.ofList (written lead pieces tail))).map (fun t => (t.kind, t.text)) =
      pieces.map (fun p => (p.kind, String.ofList p.text)) ++ [(.endOfFile, "")] ∧
    ∀ calls, (History.ofCalls (String.ofList (written lead pieces tail)) calls).reports = [] := by
  have htokens : (lex (String.ofList (written lead pieces tail))).map (fun t => (t.kind, t.text)) =
      pieces.map (fun p => (p.kind, String.ofList p.text)) ++ [(.endOfFile, "")] := by
    have hspells := h.spells
    rw [← String.toList_ofList (l := written lead pieces tail)] at hspells
    rw [lex, Scanner.tokens_of_spells (s := .ofSource _) hspells, map_map]
    rfl
  refine ⟨htokens, History.reports_eq_nil ?_⟩
  intro t ht
  have hmem := mem_map_of_mem (f := fun t : Token => (t.kind, t.text)) ht
  rw [htokens] at hmem
  rcases mem_append.mp hmem with hmem | hmem
  · obtain ⟨p, hp, hpt⟩ := mem_map.mp hmem
    rw [← (Prod.mk.inj hpt).1]
    exact isInvalid_of_isLexeme (h.lexemes p hp)
  · rw [(Prod.mk.inj (mem_singleton.mp hmem)).1]
    rfl

/-- Lexemes that could be taken for others, with comments that look like lexemes around them. -/
def crowdedPieces : List Piece :=
  [⟨.keyword .ifKw, ['i', 'f'], [' ', '/', '/', '/', '*', '\r']⟩,
   ⟨.identifier, ['i', 'f', '_', '1'], ['\t', '/', '*', 'é', '=', '/', '/', '*', '*', '/']⟩,
   ⟨.symbol .assign, ['='], [' ']⟩,
   ⟨.symbol .equal, ['=', '='], ['\n', '/', '*', '*', '/', '/', '*', '/', '*', '/']⟩,
   ⟨.number, ['0', '7'], [' ']⟩]

theorem wellSpaced_crowdedPieces :
    WellSpaced ['/', '*', '&', '*', '/'] crowdedPieces ['/', '/', '_'] where
  lead := @IsSeparator.blockComment ['&'] [] (by decide) .nil
  lexemes := by
    have hword : IsLexeme .identifier ['i', 'f', '_', '1'] :=
      .identifier (by decide) (all_eq_true.mp (by decide)) (by decide)
    have hnumber : IsLexeme .number ['0', '7'] := .number (by decide) (all_eq_true.mp (by decide))
    simp only [crowdedPieces, forall_mem_cons]
    exact ⟨.keyword .ifKw, hword, .symbol .assign, .symbol .equal, hnumber, nofun⟩
  gaps := by
    have hline : IsSeparator [' ', '/', '/', '/', '*', '\r'] :=
      .blank (.inl rfl) (@IsSeparator.lineComment ['/', '*'] [] '\r' (by simp [IsLineBreak])
        (.inr rfl) .nil)
    have hblock : IsSeparator ['\t', '/', '*', 'é', '=', '/', '/', '*', '*', '/'] :=
      .blank (.inr (.inl rfl))
        (@IsSeparator.blockComment ['é', '=', '/', '/', '*'] [] (by decide) .nil)
    have hblocks : IsSeparator ['\n', '/', '*', '*', '/', '/', '*', '/', '*', '/'] :=
      .blank (.inr (.inr (.inr rfl))) (@IsSeparator.blockComment [] _ (by decide)
        (@IsSeparator.blockComment ['/'] [] (by decide) .nil))
    have hspace : IsSeparator [' '] := .blank (.inl rfl) .nil
    simp only [crowdedPieces, forall_mem_cons]
    exact ⟨hline, hblock, hspace, hblocks, hspace, nofun⟩
  between := by
    simp [crowdedPieces, BeginsBlank]
  behind := by
    simp [crowdedPieces, BeginsBlank]
  tail := .inr ⟨['_'], rfl, by simp [IsLineBreak]⟩

theorem lex_written_crowdedPieces :
    WellSpaced ['/', '*', '&', '*', '/'] crowdedPieces ['/', '/', '_'] ∧
    (lex (String.ofList (written ['/', '*', '&', '*', '/'] crowdedPieces ['/', '/', '_']))).map
        (fun t => (t.kind, t.text)) =
      [(.keyword .ifKw, "if"), (.identifier, "if_1"), (.symbol .assign, "="),
        (.symbol .equal, "=="), (.number, "07"), (.endOfFile, "")] :=
  ⟨wellSpaced_crowdedPieces, (lex_written wellSpaced_crowdedPieces).1⟩

end MiniJava
