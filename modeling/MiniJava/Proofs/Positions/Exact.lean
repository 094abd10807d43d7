import MiniJava.Proofs.Grammar.InvalidTokens
import MiniJava.Proofs.Positions.Faults
import MiniJava.Proofs.Positions.Laid

/-!
# Positions are exact

Every node of a program lies on the tokens it was read from, and every report that has a range
points at a token or a node (`positions_exact`).

A program that was read lies on the tokens of its source (`exists_fills_of_parse`). What the theorem
says of single nodes then holds of any outlines that lie on tokens.
-/

namespace MiniJava

open Grammar Outline List

variable {source : String} {p : Program}

theorem TokenStream.orderly_ofSource (source : String) : (TokenStream.ofSource source).Orderly := by
  refine ⟨(TokenStream.ended_ofSource source).1, ?_⟩
  rw [TokenStream.tokens_ofSource]
  exact ordered_lex source

/-- A program lies on the tokens in front of the end of the file. -/
theorem exists_fills_of_parse (h : parse source = .ok p) :
    ∃ ts last, lex source = ts ++ [last] ∧ last.kind = .endOfFile ∧ Fills ts p.outlines := by
  obtain ⟨s, hread, -⟩ := parse_eq_ok.mp h
  obtain ⟨_, _, hclasses, hpure⟩ := Parser.bind_ok_iff.mp hread
  cases hpure
  have hs := TokenStream.orderly_ofSource source
  obtain ⟨⟨-, us, hus, hfills⟩, hlast⟩ :=
    laid_classes _ hs (Nat.le_of_eq (length_map _)) hclasses
  obtain ⟨-, hupcoming⟩ := current_of_program hs.ended hread
  have htokens := hus.tokens
  rw [TokenStream.tokens_ofSource, TokenStream.tokens, hupcoming] at htokens
  exact ⟨us, s.current, htokens, hlast, hfills⟩

/-- Every node of a program lies on tokens of the source that follow each other. -/
theorem exists_on_of_parse (h : parse source = .ok p) {o : Outline} (ho : o ∈ nodesOf p.outlines) :
    ∃ us, us <:+: lex source ∧ On us o := by
  obtain ⟨ts, last, hlex, -, hfills⟩ := exists_fills_of_parse h
  obtain ⟨us, hus, hon⟩ := hfills.isInfix_of_mem ho
  rw [hlex]
  exact ⟨us, hus.trans (prefix_append ts [last]).isInfix, hon⟩

variable {span : Span} {us : List Token} {d : Diagnostic}

/-- What is in a node lies within its range, one part behind the other. -/
theorem parts_of_on {wraps : Bool} {parts : List Outline} (hus : Ordered us)
    (h : On us (.node span wraps parts)) :
    (∀ a ∈ parts.filterMap span?, a.Inside span) ∧
    (parts.filterMap span?).Pairwise Span.Before := by
  obtain ⟨vs, hvs, hparts⟩ := h.exists_fills
  have hordered := hus.sublist hvs.sublist
  refine ⟨fun a ha => ?_, hparts.pairwise hordered⟩
  have hne : vs ≠ [] := by
    rintro rfl
    obtain ⟨q, hq, hspan⟩ := mem_filterMap.mp ha
    obtain ⟨_, hws, hon⟩ := hparts.exists_on hq
    cases q with
    | own => cases hspan
    | node => exact hon.ne_nil trivial (infix_nil.mp hws)
  have hinner := hparts.inside hordered ha
  have houter := hus.inside hvs hne
  rw [h.span_eq]
  exact ⟨houter.1.trans hinner.1, hinner.2.trans houter.2⟩

/-- The text in the range of a name is that name. -/
theorem slices_of_on (hus : us <:+: lex source) {x : Ident} (h : On us x.outline) :
    x.span.Slices source x.value := by
  obtain ⟨t, rfl, hterminal⟩ := exists_of_on_token h.fills.on_of_singleton
  rw [h.span_eq, rangeOf_singleton, ← (Token.terminal_eq_identifier.mp hterminal).2]
  exact slices_of_mem_lex (hus.subset (mem_singleton_self t))

/-- A range from the first to the last of some tokens is a range of the source. -/
theorem rangeOf_le_utf8ByteSize (hus : us <:+: lex source) (hne : us ≠ []) :
    (rangeOf us).start ≤ (rangeOf us).stop ∧ (rangeOf us).stop ≤ source.utf8ByteSize := by
  refine ⟨((ordered_lex source).sublist hus.sublist).start_le_stop, ?_⟩
  obtain ⟨front, last, rfl⟩ : ∃ front last, us = front ++ [last] :=
    ⟨_, _, (dropLast_concat_getLast hne).symm⟩
  rw [rangeOf_append_stop front (cons_ne_nil last []), rangeOf_singleton]
  have hlast := slices_of_mem_lex
    (hus.subset (mem_append_right _ (mem_singleton_self last)))
  exact hlast.stop_valid.le_rawEndPos

/-! ## Reports -/

/-- The range is that of a token of the source, or of a node of the program that it is. -/
def Span.PointsInto (span : Span) (source : String) : Prop :=
  (∃ t ∈ lex source, t.span = span) ∨ ∃ p, parse source = .ok p ∧ span ∈ spansOf p.outlines

theorem Span.PointsInto.le (h : span.PointsInto source) :
    span.start ≤ span.stop ∧ span.stop ≤ source.utf8ByteSize := by
  obtain ⟨t, ht, rfl⟩ | ⟨_, hp, hspan⟩ := h
  · obtain ⟨front, behind, hsplit⟩ := append_of_mem ht
    have hinfix : [t] <:+: lex source := ⟨front, behind, by rw [hsplit, append_assoc]; rfl⟩
    exact rangeOf_le_utf8ByteSize hinfix (cons_ne_nil t [])
  · obtain ⟨o, ho, hspan⟩ := mem_filterMap.mp hspan
    obtain ⟨_, hus, hon⟩ := exists_on_of_parse hp ho
    cases o with
    | own => cases hspan
    | node =>
      cases hspan
      rw [hon.span_eq]
      exact rangeOf_le_utf8ByteSize hus (hon.ne_nil trivial)

/-- The report on an invalid token points at the token, if it has a range. -/
theorem Token.span_of_diagnostic? {t : Token} (h : t.diagnostic? = some d)
    (hspan : d.span = some span) : t.span = span := by
  obtain ⟨⟨fault, hkind⟩, -⟩ := Token.invalid_of_diagnostic? h
  unfold Token.diagnostic? at h
  rw [hkind] at h
  cases fault <;> cases h <;> cases hspan <;> rfl

/-- What is reported of a source that is not parsed points at a token. -/
theorem exists_token_of_parse {reports : List Diagnostic} (h : parse source = .error reports)
    (hd : d ∈ reports) (hspan : d.span = some span) :
    ∃ t ∈ lex source, t.span = span := by
  obtain ⟨us, s', _, -, hus, rfl, hblames⟩ := exists_blames_of_parse h
  have htokens := (hus.takes (TokenStream.ended_ofSource source).1).tokens
  rw [TokenStream.tokens_ofSource] at htokens
  have hcurrent : s'.current ∈ lex source := by
    rw [htokens]
    exact mem_append_right us mem_cons_self
  obtain hd | hd := mem_append.mp hd
  · -- The report on an invalid token.
    exact ⟨s'.current, hcurrent, Token.span_of_diagnostic? (Option.mem_toList.mp hd) hspan⟩
  · cases mem_singleton.mp hd
    cases hspan
    cases hblames with
    | unexpected => exact ⟨s'.current, hcurrent, rfl⟩
    | other _ hwhere =>
      obtain hfalse | ⟨t, ht, heq⟩ := hwhere
      · exact hfalse.elim
      · refine ⟨t, ?_, heq⟩
        rw [htokens]
        exact mem_append_left _ ht

/-- Every report on a source that has a range points at a token or a node. -/
theorem pointsInto_of_compile {reports : List Diagnostic} (h : compile source = .error reports)
    (hd : d ∈ reports) (hspan : d.span = some span) :
    span.PointsInto source := by
  cases hp : parse source with
  | error _ =>
    rw [compile, hp] at h
    cases h
    exact .inl (exists_token_of_parse hp hd hspan)
  | ok p =>
    refine .inr ⟨p, hp, ?_⟩
    cases hidentify : identify p with
    | error _ =>
      simp only [compile, hp, hidentify, Except.mapError, bind, Except.bind] at h
      cases h
      cases mem_singleton.mp hd
      cases hspan
      exact mem_spans_of_identify hidentify
    | ok table =>
      cases htypes : typeCheck table p with
      | nil =>
        obtain ⟨_, hmain, rfl⟩ := (compile_eq_error_iff hp hidentify htypes reports).mp h
        cases mem_singleton.mp hd
        exact mem_spans_of_findMain hmain hspan
      | cons _ _ =>
        simp only [compile, hp, hidentify, Except.mapError, bind, Except.bind, htypes] at h
        cases h
        obtain ⟨_, he, rfl⟩ := mem_map.mp hd
        cases hspan
        rw [← htypes] at he
        exact mem_spans_of_typeCheck he

/-- Positions are exact. A program lies on its tokens, and so does each of its nodes: the range of a
node reaches from its first token to its last one, with the parentheses around an expression, and
takes in what is inside; what stands side by side lies apart, in the order of the source; and the
text in the range of a name is the name. Every report that has a range points into the source, at a
token or at a node. -/
theorem positions_exact (source : String) :
    (∀ p, parse source = .ok p →
      (∃ ts last, lex source = ts ++ [last] ∧ last.kind = .endOfFile ∧ Fills ts p.outlines) ∧
      (p.outlines.filterMap span?).Pairwise Span.Before ∧
      (∀ span wraps parts, .node span wraps parts ∈ nodesOf p.outlines →
        (∃ us, us <:+: lex source ∧ us ≠ [] ∧ On us (.node span wraps parts) ∧ span = rangeOf us) ∧
        (∀ a ∈ parts.filterMap span?, a.Inside span) ∧
        (parts.filterMap span?).Pairwise Span.Before) ∧
      ∀ x : Ident, x.outline ∈ nodesOf p.outlines → x.span.Slices source x.value) ∧
    ∀ reports, compile source = .error reports → ∀ d ∈ reports, ∀ span, d.span = some span →
      span.start ≤ span.stop ∧ span.stop ≤ source.utf8ByteSize ∧ span.PointsInto source := by
  refine ⟨fun p hp => ⟨exists_fills_of_parse hp, ?_, ?_, ?_⟩, ?_⟩
  · obtain ⟨_, _, hlex, -, hfills⟩ := exists_fills_of_parse hp
    have hordered := ordered_lex source
    rw [hlex] at hordered
    exact hfills.pairwise hordered.left
  · intro _ _ _ hnode
    obtain ⟨us, hus, hon⟩ := exists_on_of_parse hp hnode
    have hordered := (ordered_lex source).sublist hus.sublist
    exact ⟨⟨us, hus, hon.ne_nil trivial, hon, hon.span_eq⟩, parts_of_on hordered hon⟩
  · intro _ hx
    obtain ⟨_, hus, hon⟩ := exists_on_of_parse hp hx
    exact slices_of_on hus hon
  · intro _ hcompile _ hd _ hspan
    have hpoints := pointsInto_of_compile hcompile hd hspan
    exact ⟨hpoints.le.1, hpoints.le.2, hpoints⟩

end MiniJava
