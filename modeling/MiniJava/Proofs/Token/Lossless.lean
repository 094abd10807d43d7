import MiniJava.Proofs.Token.Gaps

/-!
# Scanning loses nothing

A source is layout, a token, layout, a token, and so on, with layout behind the last token
(`lex_lossless`). `Covers` puts layout and tokens together, with the byte at which each token begins
and ends.

The scanner goes through the source once, so the invariant is about what is left of it: from its
offset on, the rest is covered by the tokens still to come (`covers_tokens`).
-/

namespace MiniJava

/-! ## Bytes -/

theorem utf8Length_ofList (cs : List Char) : utf8Length cs = (String.ofList cs).utf8ByteSize := by
  induction cs with
  | nil => rfl
  | cons _ _ ih =>
    rw [String.ofList_cons, String.utf8ByteSize_append, String.utf8ByteSize_singleton, ← ih]
    rfl

theorem utf8Length_toList (s : String) : utf8Length s.toList = s.utf8ByteSize := by
  rw [utf8Length_ofList, String.ofList_toList]

theorem utf8Length_append (cs ds : List Char) :
    utf8Length (cs ++ ds) = utf8Length cs + utf8Length ds := by
  simp only [utf8Length_ofList, String.ofList_append, String.utf8ByteSize_append]

/-- The range begins and ends between characters of the source, and this is the text there. -/
structure Span.Slices (span : Span) (source text : String) : Prop where
  start_valid : String.Pos.Raw.IsValid source ⟨span.start⟩
  stop_valid : String.Pos.Raw.IsValid source ⟨span.stop⟩
  bytes : source.toByteArray.extract span.start span.stop = text.toByteArray

/-- A text is found between the bytes in front of it and the bytes behind it. -/
theorem slices_of_append (front text behind : String) :
    Span.Slices ⟨front.utf8ByteSize, front.utf8ByteSize + text.utf8ByteSize⟩
      (front ++ text ++ behind) text where
  start_valid := String.Pos.Raw.isValid_iff_exists_append.mpr
    ⟨front, text ++ behind, String.append_assoc, rfl⟩
  stop_valid := String.Pos.Raw.isValid_iff_exists_append.mpr
    ⟨front ++ text, behind, rfl, by rw [String.rawEndPos, String.utf8ByteSize_append]⟩
  bytes := by
    rw [String.append_assoc, String.toByteArray_append, String.toByteArray_append]
    exact (ByteArray.extract_append_size_add (i := 0)).trans (ByteArray.extract_append_eq_left rfl)

/-! ## Tokens and the layout between them -/

/-- From an offset on, the text is made of layout and the texts of the tokens in turn. The last
token is the end of the file, behind the last layout. -/
inductive Covers : Nat → List Char → List Token → Prop
  | last {start : Nat} {gap : List Char} (hgap : IsLayout [] gap) :
      Covers start gap
        [⟨.endOfFile, "", ⟨start + utf8Length gap, start + utf8Length gap⟩⟩]
  | token {start : Nat} {gap rest : List Char} {t : Token} {ts : List Token}
      (hgap : IsLayout (t.text.toList ++ rest) gap) (hmore : t.kind ≠ .endOfFile)
      (htext : t.text ≠ "") (hspan : t.span =
        ⟨start + utf8Length gap, start + utf8Length gap + t.text.utf8ByteSize⟩)
      (h : Covers t.span.stop rest ts) : Covers start (gap ++ t.text.toList ++ rest) (t :: ts)

theorem lexeme_kind_ne_endOfFile (c : Char) (cs : List Char) : (lexeme c cs).kind ≠ .endOfFile := by
  intro h
  have hlexeme := isLexeme_lexeme c cs (fun fault hfault => by rw [h] at hfault; cases hfault)
  rw [h] at hlexeme
  cases hlexeme

/-- One step of the scanner goes over layout and a token, or over the last layout. -/
theorem scan_cases (s : Scanner) :
    (IsLayout [] s.rest ∧ s.scan.1 =
      ⟨.endOfFile, "", ⟨s.offset + utf8Length s.rest, s.offset + utf8Length s.rest⟩⟩) ∨
    ∃ gap, s.rest = gap ++ s.scan.1.text.toList ++ s.scan.2.rest ∧
      IsLayout (s.scan.1.text.toList ++ s.scan.2.rest) gap ∧ s.scan.1.kind ≠ .endOfFile ∧
      s.scan.1.text ≠ "" ∧
      s.scan.1.span = ⟨s.offset + utf8Length gap,
        s.offset + utf8Length gap + s.scan.1.text.utf8ByteSize⟩ ∧
      s.scan.2.offset = s.scan.1.span.stop := by
  rcases exists_gap s.rest with hgap | ⟨gap, c, cs, hrest, hgap, hmore⟩
  · rw [Scanner.scan_of_isLayout hgap]
    exact .inl ⟨hgap, rfl⟩
  · have hlexeme := lexeme_append c cs
    rw [Scanner.scan_of_lexeme hrest hgap hmore]
    refine .inr ⟨gap, ?_, ?_, lexeme_kind_ne_endOfFile c cs, ?_, ?_, rfl⟩
    · rw [Lexeme.toList_text_token, List.append_assoc, hlexeme, hrest]
    · rw [Lexeme.toList_text_token, hlexeme]
      exact hgap
    · intro hempty
      exact lexeme_text_ne_nil c cs (String.ofList_eq_empty_iff.mp hempty)
    · show _ = Span.mk _ (_ + (String.ofList _).utf8ByteSize)
      rw [← utf8Length_ofList]
      rfl

/-- From its offset on, a scanner covers the rest of the text with the tokens still to come. -/
theorem covers_tokens (s : Scanner) : Covers s.offset s.rest s.tokens := by
  induction hn : s.rest.length using Nat.strongRecOn generalizing s with
  | ind _ ih =>
    rw [Scanner.tokens_eq]
    rcases scan_cases s with ⟨hgap, hlast⟩ | ⟨_, hrest, hgap, hmore, htext, hspan, hoffset⟩
    · rw [hlast, if_pos rfl]
      exact .last hgap
    · have hothers := ih _ (hn ▸ Scanner.rest_scan_lt s hmore) s.scan.2 rfl
      rw [hoffset] at hothers
      rw [if_neg hmore, hrest]
      exact .token hgap hmore htext hspan hothers

namespace Covers

variable {start : Nat} {text : List Char} {ts : List Token}

theorem exists_last (h : Covers start text ts) :
    ∃ front, ts = front ++
        [⟨.endOfFile, "", ⟨start + utf8Length text, start + utf8Length text⟩⟩] ∧
      ∀ t ∈ front, t.kind ≠ .endOfFile ∧ t.span.start < t.span.stop := by
  induction h with
  | last => exact ⟨[], rfl, nofun⟩
  | @token start gap rest t ts hgap hmore htext hspan h ih =>
    obtain ⟨front, hfront, hothers⟩ := ih
    have hstop : t.span.stop + utf8Length rest =
        start + utf8Length (gap ++ t.text.toList ++ rest) := by
      rw [utf8Length_append, utf8Length_append, utf8Length_toList, hspan]
      show start + utf8Length gap + t.text.utf8ByteSize + utf8Length rest = _
      omega
    have hnonempty : t.span.start < t.span.stop := by
      have hpos : t.text.utf8ByteSize ≠ 0 := by rwa [Ne, String.utf8ByteSize_eq_zero_iff]
      rw [hspan]
      show start + utf8Length gap < start + utf8Length gap + t.text.utf8ByteSize
      omega
    rw [hstop] at hfront
    exact ⟨t :: front, by rw [hfront]; rfl, List.forall_mem_cons.mpr ⟨⟨hmore, hnonempty⟩, hothers⟩⟩

/-- No token begins before the one in front of it ends. -/
theorem pairwise (h : Covers start text ts) :
    (∀ t ∈ ts, start ≤ t.span.start) ∧ ts.Pairwise fun t u => t.span.stop ≤ u.span.start := by
  induction h with
  | last =>
    exact ⟨List.forall_mem_singleton.mpr (Nat.le_add_right _ _), List.pairwise_singleton _ _⟩
  | token _ _ _ hspan _ ih =>
    obtain ⟨hstarts, hothers⟩ := ih
    refine ⟨List.forall_mem_cons.mpr ⟨?_, fun u hu => ?_⟩,
      List.pairwise_cons.mpr ⟨hstarts, hothers⟩⟩
    · rw [hspan]
      exact Nat.le_add_right _ _
    · refine Nat.le_trans ?_ (hstarts u hu)
      rw [hspan]
      exact Nat.le_trans (Nat.le_add_right _ _) (Nat.le_add_right _ _)

/-- The text of a token is what stands at its range. -/
theorem slices (h : Covers start text ts) (front : String) (hfront : front.utf8ByteSize = start) :
    ∀ t ∈ ts, t.span.Slices (front ++ String.ofList text) t.text := by
  induction h generalizing front with
  | @last start gap =>
    refine List.forall_mem_singleton.mpr ?_
    have hslices := slices_of_append (front ++ String.ofList gap) "" ""
    rw [String.append_empty, String.append_empty, String.utf8ByteSize_append, hfront,
      ← utf8Length_ofList] at hslices
    exact hslices
  | @token start gap rest t ts hgap hmore htext hspan h ih =>
    have hparts : front ++ String.ofList (gap ++ t.text.toList ++ rest) =
        front ++ String.ofList gap ++ t.text ++ String.ofList rest := by
      simp only [String.ofList_append, String.ofList_toList, String.append_assoc]
    have hown := slices_of_append (front ++ String.ofList gap) t.text (String.ofList rest)
    rw [String.utf8ByteSize_append, hfront, ← utf8Length_ofList, ← hspan] at hown
    rw [hparts]
    refine List.forall_mem_cons.mpr ⟨hown, ih _ ?_⟩
    rw [String.utf8ByteSize_append, String.utf8ByteSize_append, hfront, ← utf8Length_ofList, hspan]

end Covers

/-- A source is its tokens and the layout around them. The last token is the end of the file, at the
end of the source. The others are not empty, they follow each other without overlapping, and each
has the text of the source that lies in its range. -/
theorem lex_lossless (source : String) :
    Covers 0 source.toList (lex source) ∧
    ∃ ts, lex source = ts ++ [⟨.endOfFile, "", ⟨source.utf8ByteSize, source.utf8ByteSize⟩⟩] ∧
      (∀ t ∈ ts, t.kind ≠ .endOfFile ∧ t.span.start < t.span.stop ∧
        t.span.stop ≤ source.utf8ByteSize ∧ t.span.Slices source t.text) ∧
      ts.Pairwise fun t u => t.span.stop ≤ u.span.start := by
  have hcovers : Covers 0 source.toList (lex source) := covers_tokens (.ofSource source)
  obtain ⟨ts, hts, hothers⟩ := hcovers.exists_last
  have hslices : ∀ t ∈ lex source, t.span.Slices source t.text := by
    have hslices := hcovers.slices "" rfl
    rwa [String.ofList_toList, String.empty_append] at hslices
  have hpairwise := hcovers.pairwise.2
  rw [Nat.zero_add, utf8Length_toList] at hts
  rw [hts] at hslices hpairwise
  refine ⟨hcovers, ts, hts, fun t ht => ?_, (List.pairwise_append.mp hpairwise).1⟩
  have hslice := hslices t (List.mem_append_left _ ht)
  exact ⟨(hothers t ht).1, (hothers t ht).2, hslice.stop_valid.le_rawEndPos, hslice⟩

end MiniJava
