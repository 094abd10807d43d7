import MiniJava.Proofs.Grammar.Rules
import MiniJava.Proofs.Token.Tokens

/-!
# Reading from a stream

A stream is seen through the terminals that are still to come (`TokenStream.terminals`). A parser
that takes tokens moves along this list up to the end of the file (`Ended`), and whether it succeeds
depends on the head of the list alone. In front of given terminals (`At`) no token is invalid, so no
report waits when the parser is done. What has been taken from the stream are lexemes (`Passes`): no
parser takes an invalid token or the end of the file.

For the parsers of single tokens there is what they do in front of a token (`…_apply`), and what
follows if they succeed (`…_eq_ok`, `…_eq_true`).
-/

namespace MiniJava

open Grammar

namespace Token

variable {t : Token}

theorem terminal_eq_symbol {sym : Symbol} : t.terminal = .symbol sym ↔ t.kind = .symbol sym := by
  unfold terminal
  cases t.kind <;> simp

theorem terminal_eq_keyword {k : Keyword} : t.terminal = .keyword k ↔ t.kind = .keyword k := by
  unfold terminal
  cases t.kind <;> simp

theorem terminal_eq_identifier {text : String} :
    t.terminal = .identifier text ↔ t.kind = .identifier ∧ t.text = text := by
  unfold terminal
  cases t.kind <;> simp

theorem terminal_eq_number {digits : String} :
    t.terminal = .number digits ↔ t.kind = .number ∧ t.text = digits := by
  unfold terminal
  cases t.kind <;> simp

theorem terminal_eq_endOfFile : t.terminal = .endOfFile ↔ t.kind = .endOfFile := by
  unfold terminal
  cases t.kind <;> simp

end Token

/-- The class of a token that can be taken: neither invalid nor the end of the file. -/
def TokenKind.Proper : TokenKind → Prop
  | .endOfFile | .invalid _ => False
  | .keyword _ | .symbol _ | .number | .identifier => True

variable {kind : TokenKind}

theorem TokenKind.Proper.ne_endOfFile (h : kind.Proper) : kind ≠ .endOfFile := by
  rintro rfl
  exact h

namespace TokenStream

/-- The terminals from the current token on. -/
def terminals (s : TokenStream) : List Terminal := (s.current :: s.upcoming).map Token.terminal

/-- The last token, and no other, is the end of the file. -/
def Ended (s : TokenStream) : Prop :=
  ∃ front last, s.current :: s.upcoming = front ++ [last] ∧ last.kind = .endOfFile ∧
    ∀ t ∈ front, t.kind ≠ .endOfFile

/-- Nothing waits to be reported, and nothing will. -/
structure Quiet (s : TokenStream) : Prop where
  valid : ∀ t ∈ s.upcoming, t.diagnostic? = none
  pending : s.pending = []

/-- The stream stands in front of these terminals, and none of them is invalid. -/
structure At (s : TokenStream) (ts : List Terminal) : Prop where
  ended : s.Ended
  terminals : s.terminals = ts
  quiet : s.Quiet

/-- From one stream, tokens have been taken up to another. -/
structure Advances (s : TokenStream) (ts : List Terminal) (s' : TokenStream) : Prop where
  terminals : s.terminals = ts ++ s'.terminals
  ended : s'.Ended

/-- From one place, these tokens have been taken up to another, and all of them were lexemes. -/
inductive Passes : TokenStream → List Token → TokenStream → Prop
  | refl (s : TokenStream) : Passes s [] s
  | next {s s' : TokenStream} {us : List Token} (hproper : s.current.kind.Proper)
      (h : Passes s.next us s') : Passes s (s.current :: us) s'

variable {s s' s'' : TokenStream} {ts us : List Terminal} {n : Nat}

theorem advances_refl (h : s.Ended) : s.Advances [] s := ⟨rfl, h⟩

theorem Advances.trans (h : s.Advances ts s') (h' : s'.Advances us s'') :
    s.Advances (ts ++ us) s'' :=
  ⟨by rw [h.terminals, h'.terminals, List.append_assoc], h'.ended⟩

/-- A token other than the last one can be taken. -/
theorem Ended.advances_next (h : s.Ended) (hmore : s.current.kind ≠ .endOfFile) :
    s.Advances [s.current.terminal] s.next := by
  obtain ⟨front, last, hsplit, hlast, hothers⟩ := h
  cases front with
  | nil =>
    obtain ⟨hcurrent, -⟩ := List.cons.inj hsplit
    exact absurd (hcurrent ▸ hlast) hmore
  | cons _ front =>
    obtain ⟨rfl, hupcoming⟩ := List.cons.inj hsplit
    obtain ⟨_, upcoming, _, _⟩ := s
    cases upcoming with
    | nil => cases front <;> cases hupcoming
    | cons =>
      exact ⟨rfl, front, last, hupcoming, hlast, fun t ht => hothers t (List.mem_cons_of_mem _ ht)⟩

/-- At the end of the file nothing follows. -/
theorem Ended.terminals_of_endOfFile (h : s.Ended) (hlast : s.current.kind = .endOfFile) :
    s.terminals = [.endOfFile] := by
  obtain ⟨front, _, hsplit, -, hothers⟩ := h
  cases front with
  | nil =>
    obtain ⟨-, hupcoming⟩ := List.cons.inj hsplit
    rw [terminals, hupcoming, List.map_singleton, Token.terminal, hlast]
    rfl
  | cons =>
    obtain ⟨rfl, -⟩ := List.cons.inj hsplit
    exact absurd hlast (hothers _ List.mem_cons_self)

theorem Advances.length (h : s.Advances ts s') :
    s.terminals.length = ts.length + s'.terminals.length := by
  rw [h.terminals, List.length_append]

theorem Advances.length_le (h : s.Advances ts s') (hlength : s.terminals.length ≤ n + ts.length) :
    s'.terminals.length ≤ n := by
  have := h.length
  omega

theorem not_length_le_zero (s : TokenStream) : ¬ s.terminals.length ≤ 0 := by
  intro h
  cases h

section

variable {us vs : List Token}

theorem Passes.trans (h : s.Passes us s') (h' : s'.Passes vs s'') : s.Passes (us ++ vs) s'' := by
  induction h with
  | refl => exact h'
  | next hproper _ ih => exact .next hproper (ih h')

theorem Passes.proper (h : s.Passes us s') : ∀ t ∈ us, t.kind.Proper := by
  induction h with
  | refl => exact List.forall_mem_nil _
  | next hproper _ ih => exact List.forall_mem_cons.mpr ⟨hproper, ih⟩

theorem Passes.advances (h : s.Passes us s') (hs : s.Ended) :
    s.Advances (us.map Token.terminal) s' := by
  induction h with
  | refl => exact advances_refl hs
  | next hproper _ ih =>
    have hnext := hs.advances_next hproper.ne_endOfFile
    exact hnext.trans (ih hnext.ended)

end

theorem Quiet.next (h : s.Quiet) : s.next.Quiet := by
  obtain ⟨_, upcoming, _, pending⟩ := s
  cases upcoming with
  | nil => exact ⟨h.valid, h.pending⟩
  | cons token =>
    obtain ⟨hvalid, hvalids⟩ := List.forall_mem_cons.mp h.valid
    refine ⟨hvalids, ?_⟩
    show pending ++ token.diagnostic?.toList = []
    rw [hvalid, show pending = [] from h.pending]
    rfl

namespace At

variable {t : Terminal}

theorem current (h : s.At (t :: ts)) : s.current.terminal = t := (List.cons.inj h.terminals).1

theorem next (h : s.At (t :: ts)) (hmore : t ≠ .endOfFile) : s.next.At ts := by
  have hkind : s.current.kind ≠ .endOfFile := by
    rw [Ne, ← Token.terminal_eq_endOfFile, h.current]
    exact hmore
  have hadvances := h.ended.advances_next hkind
  refine ⟨hadvances.ended, ?_, h.quiet.next⟩
  have hsplit := hadvances.terminals.symm.trans h.terminals
  exact (List.cons.inj hsplit).2

end At

end TokenStream

namespace Parser

variable {α β : Type} {s s' : TokenStream}

theorem bind_ok_iff {p : Parser α} {f : α → Parser β} {b : β} :
    (p >>= f) s = (.ok b, s') ↔ ∃ a mid, p s = (.ok a, mid) ∧ f a mid = (.ok b, s') := by
  constructor
  · intro h
    rcases hp : p s with ⟨_ | a, mid⟩
    · rw [bind_apply_error hp] at h
      cases h
    · rw [bind_apply_ok hp] at h
      exact ⟨a, mid, rfl, h⟩
  · rintro ⟨_, _, hp, h⟩
    rw [bind_apply_ok hp, h]

/-! ## Steps that take nothing or anything -/

theorem bind_peek (f : TokenKind → Parser β) (s : TokenStream) :
    (peek >>= f) s = f s.current.kind s := rfl

theorem bind_here (f : Span → Parser β) (s : TokenStream) :
    (here >>= f) s = f s.current.span s := rfl

theorem bind_advance (f : Token → Parser β) (s : TokenStream) :
    (advance >>= f) s = f s.current s.next := rfl

theorem bind_spanFrom (start : Span) (f : Span → Parser β) (s : TokenStream) :
    (spanFrom start >>= f) s = f ⟨start.start, max s.previousStop start.stop⟩ s := rfl

/-! ## Steps that take a certain token -/

theorem expect_apply_of_eq (h : s.current.kind = kind) :
    expect kind s = (.ok s.current, s.next) := by
  show (if s.current.kind = kind then advance else unexpected (.token kind)) s = _
  rw [if_pos h]
  rfl

theorem expect_eq_ok {t : Token} (h : expect kind s = (.ok t, s')) :
    s.current.kind = kind ∧ t = s.current ∧ s' = s.next := by
  by_cases hkind : s.current.kind = kind
  · rw [expect_apply_of_eq hkind] at h
    cases h
    exact ⟨hkind, rfl, rfl⟩
  · change (if s.current.kind = kind then advance else unexpected (.token kind)) s = _ at h
    rw [if_neg hkind] at h
    cases h

theorem accept_apply_of_eq (h : s.current.kind = kind) : accept kind s = (.ok true, s.next) := by
  show (if s.current.kind = kind then _ else _ : Parser Bool) s = _
  rw [if_pos h]
  rfl

theorem accept_apply_of_ne (h : s.current.kind ≠ kind) : accept kind s = (.ok false, s) := by
  show (if s.current.kind = kind then _ else _ : Parser Bool) s = _
  rw [if_neg h]
  rfl

theorem accept_eq_true (h : accept kind s = (.ok true, s')) :
    s.current.kind = kind ∧ s' = s.next := by
  by_cases hkind : s.current.kind = kind
  · rw [accept_apply_of_eq hkind] at h
    cases h
    exact ⟨hkind, rfl⟩
  · rw [accept_apply_of_ne hkind] at h
    cases h

theorem accept_eq_false (h : accept kind s = (.ok false, s')) : s.current.kind ≠ kind ∧ s = s' := by
  by_cases hkind : s.current.kind = kind
  · rw [accept_apply_of_eq hkind] at h
    cases h
  · rw [accept_apply_of_ne hkind] at h
    cases h
    exact ⟨hkind, rfl⟩

/-- A mark or a word that has been taken. -/
theorem advances_of_kind (hs : s.Ended) (h : s.current.kind = kind) (hkind : kind ≠ .endOfFile) :
    s.Advances [kind.terminal s.current.text] s.next := by
  have hadvances := hs.advances_next (h ▸ hkind)
  rw [Token.terminal, h] at hadvances
  exact hadvances

theorem expectSymbol_apply {sym : Symbol} {ts : List Terminal} (h : s.At (.symbol sym :: ts)) :
    expectSymbol sym s = (.ok (), s.next) :=
  bind_ok_iff.mpr ⟨_, _, expect_apply_of_eq (Token.terminal_eq_symbol.mp h.current), rfl⟩

theorem ident_apply {text : String} {ts : List Terminal} (h : s.At (.identifier text :: ts)) :
    ident s = (.ok ⟨text, s.current.span⟩, s.next) := by
  obtain ⟨hkind, htext⟩ := Token.terminal_eq_identifier.mp h.current
  rw [← htext]
  exact bind_ok_iff.mpr ⟨_, _, expect_apply_of_eq hkind, rfl⟩

end Parser

end MiniJava
