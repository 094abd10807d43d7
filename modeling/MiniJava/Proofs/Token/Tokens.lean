import MiniJava.Token.Scanner

/-!
# The tokens of a source

A source is a list of tokens of which the last one, and no other, is the end of the file.

Scanning ends because every token takes up some of the text. With a bound on the number of
tokens in its place, scanning goes by that number alone (`tokensWithin`), and a text of
known length can be scanned by evaluation.
-/

namespace MiniJava

namespace Scanner

theorem tokens_eq (s : Scanner) :
    s.tokens = if s.scan.1.kind = .endOfFile then [s.scan.1] else s.scan.1 :: s.scan.2.tokens := by
  rw [tokens]
  rfl

/-- The tokens from here on, at most as many as given. -/
def tokensWithin : Nat → Scanner → List Token
  | 0, _ => []
  | n + 1, s =>
    if s.scan.1.kind = .endOfFile then [s.scan.1] else s.scan.1 :: tokensWithin n s.scan.2

/-- There are no more tokens than there are characters, but for the last one. -/
theorem tokens_eq_tokensWithin {n : Nat} {s : Scanner} (h : s.rest.length < n) :
    s.tokens = s.tokensWithin n := by
  induction n generalizing s with
  | zero => cases h
  | succ _ ih =>
    rw [tokens_eq, tokensWithin]
    split
    next => rfl
    next hmore =>
      have hless := rest_scan_lt s hmore
      rw [ih (by omega)]

/-- The end of the file is the last token, and no other. -/
theorem exists_tokens (s : Scanner) :
    ∃ ts last, s.tokens = ts ++ [last] ∧ last.kind = .endOfFile ∧
      ∀ t ∈ ts, t.kind ≠ .endOfFile := by
  induction hn : s.rest.length using Nat.strongRecOn generalizing s with
  | ind _ ih =>
    rw [tokens_eq]
    split
    next hlast => exact ⟨[], s.scan.1, rfl, hlast, nofun⟩
    next hmore =>
      obtain ⟨ts, last, hts, hlast, hothers⟩ := ih _ (hn ▸ rest_scan_lt s hmore) s.scan.2 rfl
      exact ⟨s.scan.1 :: ts, last,
        by rw [hts]; rfl, hlast, List.forall_mem_cons.mpr ⟨hmore, hothers⟩⟩

end Scanner

/-- A source is scanned by going through its characters once. -/
theorem lex_eq_tokensWithin (source : String) :
    lex source = (Scanner.ofSource source).tokensWithin (source.toList.length + 1) :=
  Scanner.tokens_eq_tokensWithin (Nat.lt_succ_self _)

end MiniJava
