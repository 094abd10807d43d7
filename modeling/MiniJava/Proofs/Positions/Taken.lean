import MiniJava.Proofs.Grammar.Streams
import MiniJava.Proofs.Token.Lossless

/-!
# The tokens that were taken

Which tokens a parser has taken, with their places in the source. `Passes` says how they were taken,
one after the other, and `Takes` where they stand in the stream.

Tokens follow each other in the source (`Ordered`), so from the first to the last of some tokens in
a row there is one range (`rangeOf`). A parser finds this range in two ways: from the place where it
began to the end of the token taken last (`Takes.spanFrom_eq`), or by joining the ranges of its
first and its last part (`join_rangeOf`).
-/

namespace MiniJava

open Grammar List

/-- One range does not reach beyond another. -/
def Span.Inside (a b : Span) : Prop := b.start ≤ a.start ∧ a.stop ≤ b.stop

/-- One range ends before another begins. -/
def Span.Before (a b : Span) : Prop := a.stop ≤ b.start

/-! ## Ranges of tokens -/

/-- The range from the beginning of the first token to the end of the last one. -/
def rangeOf (ts : List Token) : Span :=
  ⟨ts.head?.elim 0 (·.span.start), ts.getLast?.elim 0 (·.span.stop)⟩

/-- Each token ends before the next one begins, and none but the end of the file is empty. -/
structure Ordered (ts : List Token) : Prop where
  forward : ∀ t ∈ ts, t.span.start ≤ t.span.stop
  solid : ∀ t ∈ ts, t.kind ≠ .endOfFile → t.span.start < t.span.stop
  apart : ts.Pairwise fun t u => t.span.Before u.span

section

variable {t : Token} {ts us mid : List Token}

@[simp]
theorem rangeOf_singleton (t : Token) : rangeOf [t] = t.span := rfl

theorem rangeOf_append_start (hts : ts ≠ []) (us : List Token) :
    (rangeOf (ts ++ us)).start = (rangeOf ts).start := by
  cases ts with
  | nil => exact absurd rfl hts
  | cons => rfl

theorem rangeOf_append_stop (ts : List Token) (hus : us ≠ []) :
    (rangeOf (ts ++ us)).stop = (rangeOf us).stop := by
  obtain ⟨_, hlast⟩ := getLast?_isSome.mpr hus |> Option.isSome_iff_exists.mp
  rw [rangeOf, rangeOf, getLast?_append, hlast]
  rfl

theorem Ordered.sublist (h : Ordered us) (hts : ts.Sublist us) : Ordered ts :=
  ⟨fun t ht => h.forward t (hts.subset ht), fun t ht => h.solid t (hts.subset ht),
    h.apart.sublist hts⟩

theorem Ordered.left (h : Ordered (ts ++ us)) : Ordered ts :=
    h.sublist (sublist_append_left ts us)

theorem Ordered.right (h : Ordered (ts ++ us)) : Ordered us :=
    h.sublist (sublist_append_right ts us)

/-- What comes first ends before what comes later begins. -/
theorem Ordered.before (h : Ordered (ts ++ us)) (hts : ts ≠ []) (hus : us ≠ []) :
    (rangeOf ts).Before (rangeOf us) := by
  obtain ⟨front, last, rfl⟩ : ∃ front last, ts = front ++ [last] :=
    ⟨_, _, (dropLast_concat_getLast hts).symm⟩
  obtain ⟨first, _, rfl⟩ := exists_cons_of_ne_nil hus
  rw [Span.Before, rangeOf_append_stop front (cons_ne_nil last [])]
  refine (pairwise_append.mp h.apart).2.2 last ?_ first mem_cons_self
  exact mem_append_right _ (mem_singleton_self last)

/-- Tokens in a row end no earlier than the first of them does. -/
theorem Ordered.stop_le_stop (h : Ordered (t :: ts)) : t.span.stop ≤ (rangeOf (t :: ts)).stop := by
  induction ts generalizing t with
  | nil => exact Nat.le_refl _
  | cons u us ih =>
    have hordered : Ordered ([t] ++ u :: us) := h
    have hapart := hordered.before (cons_ne_nil t []) (cons_ne_nil u us)
    have hforward := hordered.right.forward u mem_cons_self
    rw [← singleton_append, rangeOf_append_stop [t] (cons_ne_nil u us)]
    exact (hapart.trans hforward).trans (ih hordered.right)

theorem Ordered.start_le_stop (h : Ordered ts) : (rangeOf ts).start ≤ (rangeOf ts).stop := by
  cases ts with
  | nil => exact Nat.le_refl 0
  | cons t => exact (h.forward t mem_cons_self).trans h.stop_le_stop

/-- Tokens in front of the end of the file have a range that is not empty. -/
theorem Ordered.start_lt_stop (h : Ordered ts) (hts : ts ≠ [])
    (hmore : ∀ t ∈ ts, t.kind ≠ .endOfFile) : (rangeOf ts).start < (rangeOf ts).stop := by
  cases ts with
  | nil => exact absurd rfl hts
  | cons t =>
    have hfirst := h.solid t mem_cons_self (hmore t mem_cons_self)
    exact Nat.lt_of_lt_of_le hfirst h.stop_le_stop

/-- In front of the end of the file, tokens begin one behind the other. -/
theorem Ordered.pairwise_start (h : Ordered ts) (hmore : ∀ t ∈ ts, t.kind ≠ .endOfFile) :
    ts.Pairwise fun t u => t.span.start < u.span.start :=
  h.apart.imp_of_mem fun ht _ hbefore => Nat.lt_of_lt_of_le (h.solid _ ht (hmore _ ht)) hbefore

/-- Some of the tokens in a row do not reach beyond all of them. -/
theorem Ordered.inside (h : Ordered ts) (hus : us <:+: ts) (hne : us ≠ []) :
    (rangeOf us).Inside (rangeOf ts) := by
  obtain ⟨before, behind, rfl⟩ := hus
  have hmid := h.left.right.start_le_stop
  constructor
  · cases hbefore : before with
    | nil =>
      rw [nil_append, rangeOf_append_start hne]
    | cons first others =>
      have hfirst : before ≠ [] := hbefore ▸ cons_ne_nil first others
      have hapart : (rangeOf before).stop ≤ (rangeOf us).start := h.left.before hfirst hne
      have hstart := h.left.left.start_le_stop
      rw [← hbefore, append_assoc, rangeOf_append_start hfirst]
      exact hstart.trans hapart
  · cases hbehind : behind with
    | nil =>
      rw [append_nil, rangeOf_append_stop before hne]
    | cons first others =>
      have hlast : behind ≠ [] := hbehind ▸ cons_ne_nil first others
      have hapart : (rangeOf us).stop ≤ (rangeOf behind).start := by
        rw [append_assoc] at h
        exact h.right.before hne hlast
      have hstop := h.right.start_le_stop
      rw [← hbehind, rangeOf_append_stop _ hlast]
      exact hapart.trans hstop

/-- The first and the last part of some tokens reach from the beginning to the end. -/
theorem join_rangeOf (h : Ordered (ts ++ (mid ++ us))) (hts : ts ≠ []) (hus : us ≠ []) :
    (rangeOf ts).join (rangeOf us) = rangeOf (ts ++ (mid ++ us)) := by
  have hfirst := h.left.start_le_stop
  have hlast := h.right.right.start_le_stop
  have hapart : (rangeOf ts).stop ≤ (rangeOf us).start :=
    (h.sublist ((sublist_append_right mid us).append_left ts)).before hts hus
  have hmid : mid ++ us ≠ [] := append_ne_nil_of_right_ne_nil mid hus
  have hstart := rangeOf_append_start hts (mid ++ us)
  have hstop := (rangeOf_append_stop ts hmid).trans (rangeOf_append_stop mid hus)
  rw [Span.join, Nat.min_eq_left (by omega), Nat.max_eq_right (by omega), ← hstart, ← hstop]

end

/-- Each token lies where its text is in the source. -/
theorem slices_of_mem_lex {source : String} {t : Token} (ht : t ∈ lex source) :
    t.span.Slices source t.text := by
  have hslices := (covers_tokens (.ofSource source)).slices "" rfl t ht
  rwa [show (Scanner.ofSource source).rest = source.toList from rfl, String.ofList_toList,
    String.empty_append] at hslices

theorem ordered_lex (source : String) : Ordered (lex source) := by
  have hcovers : Covers 0 source.toList (lex source) := covers_tokens (.ofSource source)
  obtain ⟨_, hfront, hsolid⟩ := hcovers.exists_last
  -- Only the end of the file is empty.
  have hcases : ∀ t ∈ lex source, (t.kind ≠ .endOfFile ∧ t.span.start < t.span.stop) ∨
      (t.kind = .endOfFile ∧ t.span.start = t.span.stop) := by
    intro t ht
    rw [hfront] at ht
    obtain ht | ht := mem_append.mp ht
    · exact .inl (hsolid t ht)
    · rw [mem_singleton.mp ht]
      exact .inr ⟨rfl, rfl⟩
  refine ⟨fun t ht => ?_, fun t ht hmore => ?_, hcovers.pairwise.2⟩
  · obtain ⟨-, h⟩ | ⟨-, h⟩ := hcases t ht
    · exact Nat.le_of_lt h
    · exact Nat.le_of_eq h
  · exact ((hcases t ht).resolve_right fun h => hmore h.1).2

/-! ## Streams -/

namespace TokenStream

/-- The tokens from the current one on. -/
def tokens (s : TokenStream) : List Token := s.current :: s.upcoming

/-- From one stream, these tokens have been taken up to another. -/
structure Takes (s : TokenStream) (us : List Token) (s' : TokenStream) : Prop where
  tokens : s.tokens = us ++ s'.tokens
  stop : s'.previousStop = us.getLast?.elim s.previousStop (·.span.stop)

variable {s s' s'' : TokenStream} {us vs : List Token}

theorem tokens_ofSource (source : String) : (ofSource source).tokens = lex source := by
  obtain ⟨_, _, hsplit, -, -⟩ := (Scanner.ofSource source).exists_tokens
  unfold ofSource
  cases hlex : lex source with
  | nil => exact absurd (hlex.symm.trans hsplit) (by simp)
  | cons _ _ => rfl

theorem terminals_eq (s : TokenStream) : s.terminals = s.tokens.map Token.terminal := rfl

theorem takes_refl (s : TokenStream) : s.Takes [] s := ⟨rfl, rfl⟩

theorem Takes.trans (h : s.Takes us s') (h' : s'.Takes vs s'') : s.Takes (us ++ vs) s'' := by
  refine ⟨by rw [h.tokens, h'.tokens, append_assoc], ?_⟩
  rw [h'.stop, h.stop, getLast?_append]
  cases vs.getLast? <;> rfl

/-- A token other than the last one can be taken. -/
theorem Ended.takes_next (h : s.Ended) (hmore : s.current.kind ≠ .endOfFile) :
    s.Takes [s.current] s.next := by
  obtain ⟨_, upcoming, _, _⟩ := s
  cases upcoming with
  | cons => exact ⟨rfl, rfl⟩
  | nil =>
    obtain ⟨front, _, hsplit, hlast, -⟩ := h
    cases front with
    | nil =>
      obtain ⟨rfl, -⟩ := cons.inj hsplit
      exact absurd hlast hmore
    | cons => exact absurd (cons.inj hsplit).2.symm (by simp)

/-- The end of the file is still ahead, and nothing before it ends a file. -/
theorem Takes.exists_last (h : s.Takes us s') (hs : s.Ended) :
    ∃ rest last, s'.tokens = rest ++ [last] ∧ last.kind = .endOfFile ∧
      ∀ t ∈ us ++ rest, t.kind ≠ .endOfFile := by
  obtain ⟨front, last, hsplit, hlast, hothers⟩ := hs
  have htokens : us ++ s'.tokens = front ++ [last] := h.tokens.symm.trans hsplit
  obtain ⟨rest, stop, hrest⟩ : ∃ rest stop, s'.tokens = rest ++ [stop] :=
    ⟨_, _, (dropLast_concat_getLast (cons_ne_nil _ _)).symm⟩
  rw [hrest, ← append_assoc] at htokens
  obtain ⟨rfl, hend⟩ := append_inj' htokens rfl
  cases hend
  exact ⟨rest, last, hrest, hlast, hothers⟩

theorem Takes.ended (h : s.Takes us s') (hs : s.Ended) : s'.Ended := by
  obtain ⟨rest, last, hrest, hlast, hothers⟩ := h.exists_last hs
  exact ⟨rest, last, hrest, hlast, fun t ht => hothers t (mem_append_right _ ht)⟩

theorem Takes.ne_endOfFile (h : s.Takes us s') (hs : s.Ended) : ∀ t ∈ us, t.kind ≠ .endOfFile := by
  obtain ⟨_, _, -, -, hothers⟩ := h.exists_last hs
  exact fun t ht => hothers t (mem_append_left _ ht)

theorem Takes.ordered (h : s.Takes us s') (hs : Ordered s.tokens) : Ordered s'.tokens := by
  rw [h.tokens] at hs
  exact hs.right

theorem Takes.ordered_taken (h : s.Takes us s') (hs : Ordered s.tokens) : Ordered us := by
  rw [h.tokens] at hs
  exact hs.left

theorem Passes.takes (h : s.Passes us s') (hs : s.Ended) : s.Takes us s' := by
  induction h with
  | refl s => exact takes_refl s
  | next hproper _ ih =>
    have htakes := hs.takes_next hproper.ne_endOfFile
    exact htakes.trans (ih (htakes.ended hs))

/-- The range from the place where a parser began is that of the tokens it has taken since. -/
theorem Takes.spanFrom_eq (h : s.Takes us s') (hs : Ordered s.tokens) (hus : us ≠ []) :
    (⟨s.current.span.start, max s'.previousStop s.current.span.stop⟩ : Span) = rangeOf us := by
  obtain ⟨_, others, rfl⟩ := exists_cons_of_ne_nil hus
  obtain ⟨rfl, -⟩ := cons.inj h.tokens
  have hreach := (h.ordered_taken hs).stop_le_stop
  have hlast : s'.previousStop = (rangeOf (s.current :: others)).stop := by
    rw [h.stop, rangeOf]
    cases hget : (s.current :: others).getLast? with
    | none => exact absurd (getLast?_eq_none_iff.mp hget) hus
    | some _ => rfl
  rw [Nat.max_eq_left (by omega), hlast]
  rfl

end TokenStream

end MiniJava
