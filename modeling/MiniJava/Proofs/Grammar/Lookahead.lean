import MiniJava.Proofs.Grammar.Bodies

/-!
# What parsers look at

A parser decides by the class and the text (`Token.face`) of the tokens that it has taken and of the
current one. It copies places into what it builds and into its faults, and looks at no place and no
token further ahead.

The two streams are related in any way that is kept when both go one token further (`Pairing`). What
else the relation says is then known where both parsers end.

How many tokens are to come decides the bounds of repetition and nesting, so the two runs have
different bounds. They are compared under the only assumption that each bound is enough for its own
stream (`Parser.Tracks`).
-/

namespace MiniJava

open Grammar List

/-- What can be told of a token without its place. -/
def Token.face (t : Token) : TokenKind × String := (t.kind, t.text)

theorem Token.face_eq_iff {t u : Token} : t.face = u.face ↔ t.kind = u.kind ∧ t.text = u.text :=
  Prod.mk_inj

theorem Token.describe_of_face {t u : Token} (h : t.face = u.face) : t.describe = u.describe := by
  obtain ⟨hkind, htext⟩ := Token.face_eq_iff.mp h
  rw [Token.describe, Token.describe, hkind, htext]

/-- Pairs of streams that show the same token, and still do when both go on, up to rests of these
lengths. -/
structure Pairing where
  /-- Both streams stand at the same place. -/
  Pairs : TokenStream → TokenStream → Prop
  rest : Nat
  rest' : Nat
  ended : ∀ {s t}, Pairs s t → s.Ended ∧ t.Ended
  face : ∀ {s t}, Pairs s t → s.current.face = t.current.face
  length : ∀ {s t}, Pairs s t → s.upcoming.length + rest' = t.upcoming.length + rest
  next : ∀ {s t}, Pairs s t → s.current.kind ≠ .endOfFile → rest ≤ s.next.upcoming.length →
    Pairs s.next t.next

namespace TokenStream

variable {s s' : TokenStream}

/-- Taking a token other than the last one leaves one less to come. -/
theorem Ended.length_next (h : s.Ended) (hmore : s.current.kind ≠ .endOfFile) :
    s.next.upcoming.length + 1 = s.upcoming.length := by
  have hlength := (h.advances_next hmore).length
  simp only [terminals, length_map, length_cons, length_nil] at hlength
  omega

/-- At the end of the file, and only there, no token is to come. -/
theorem Ended.upcoming_eq_nil (h : s.Ended) : s.upcoming = [] ↔ s.current.kind = .endOfFile := by
  constructor
  · intro hnone
    by_contra hmore
    have hlength := h.length_next hmore
    rw [hnone] at hlength
    cases hlength
  · intro hlast
    exact map_eq_nil_iff.mp (cons.inj (h.terminals_of_endOfFile hlast)).2

theorem length_next_le (s : TokenStream) : s.next.upcoming.length ≤ s.upcoming.length :=
  s.length_upcoming_next.trans_le (Nat.sub_le _ 1)

theorem Passes.length_le {us : List Token} (h : s.Passes us s') :
    s'.upcoming.length ≤ s.upcoming.length := by
  induction h with
  | refl => exact Nat.le_refl _
  | @next s s' us _ _ ih => exact ih.trans s.length_next_le

end TokenStream

variable {start start' : Span} {S : Span → Prop}

namespace Parser

variable {α β γ δ : Type} {P : Pairing} {bare : α → γ} {bare' : β → δ} {n m n' m' : Nat}
  {kind : TokenKind} {p q : Parser α}

/-- What a parser gives, without ranges: a value, or the message of its fault. -/
def outcome (bare : α → γ) : Except (Located GrammarFault) α → Except String γ
  | .ok a => .ok (bare a)
  | .error e => .error e.value.message

/-- The parser does not give tokens back. -/
def Shrinks (p : Parser α) : Prop := ∀ s, (p s).2.upcoming.length ≤ s.upcoming.length

/-- One parser does on a stream that is shorter than `n` what the other does on one shorter than
`m`, as long as it stays in front of the rest. -/
structure Tracks (P : Pairing) (n m : Nat) (bare : α → γ) (p q : Parser α) : Prop where
  shrinks : Shrinks p
  follows : ∀ ⦃s t : TokenStream⦄, P.Pairs s t → s.upcoming.length < n → t.upcoming.length < m →
    P.rest ≤ (p s).2.upcoming.length →
    outcome bare (p s).1 = outcome bare (q t).1 ∧ P.Pairs (p s).2 (q t).2

/-- The same in front of a token of this class. -/
structure TracksAt (P : Pairing) (n m : Nat) (kind : TokenKind) (bare : α → γ) (p q : Parser α) :
    Prop where
  shrinks : Shrinks p
  follows : ∀ ⦃s t : TokenStream⦄, P.Pairs s t → s.upcoming.length < n → t.upcoming.length < m →
    s.current.kind = kind → P.rest ≤ (p s).2.upcoming.length →
    outcome bare (p s).1 = outcome bare (q t).1 ∧ P.Pairs (p s).2 (q t).2

/-! ## Steps -/

theorem Shrinks.bind {p : Parser α} {f : α → Parser β} (h : Shrinks p) (hf : ∀ a, Shrinks (f a)) :
    Shrinks (p >>= f) := by
  intro s
  have hfirst := h s
  rcases hp : p s with ⟨e | a, s'⟩ <;> rw [hp] at hfirst
  · rw [bind_apply_error hp]
    exact hfirst
  · rw [bind_apply_ok hp]
    exact (hf a s').trans hfirst

theorem shrinks_advance {f : Token → Parser α} (h : ∀ t, Shrinks (f t)) : Shrinks (advance >>= f) :=
  fun s => (h s.current s.next).trans s.length_next_le

theorem Prompt.shrinks {L : Nonterminal α} (h : Prompt S n p L) : Shrinks p := by
  intro s
  obtain ⟨_, hus, -⟩ := h.explains s
  exact hus.length_le

theorem Tracks.of_le (h : Tracks P n m bare p q) (hn : n' ≤ n) (hm : m' ≤ m) :
    Tracks P n' m' bare p q :=
  ⟨h.shrinks, fun _ _ hst hs ht => h.follows hst (hs.trans_le hn) (ht.trans_le hm)⟩

theorem Tracks.at (h : Tracks P n m bare p q) (kind : TokenKind) : TracksAt P n m kind bare p q :=
  ⟨h.shrinks, fun _ _ hst hs ht _ => h.follows hst hs ht⟩

theorem tracks_pure {a b : α} (h : bare a = bare b) : Tracks P n m bare (pure a) (pure b) :=
  ⟨fun _ => Nat.le_refl _, fun _ _ hst _ _ _ => ⟨congrArg Except.ok h, hst⟩⟩

theorem tracks_fail {fault fault' : GrammarFault} {span span' : Span}
    (h : fault.message = fault'.message) :
    Tracks P n m bare (fail fault span) (fail fault' span') :=
  ⟨fun _ => Nat.le_refl _, fun _ _ hst _ _ _ => ⟨congrArg Except.error h, hst⟩⟩

theorem tracks_unexpected (expected : Expected) :
    Tracks P n m bare (unexpected expected) (unexpected expected) := by
  refine ⟨fun _ => Nat.le_refl _, fun s t hst _ _ _ => ⟨congrArg Except.error ?_, hst⟩⟩
  exact congrArg (fun found => s!"expected {expected.describe}, found {found}")
    (Token.describe_of_face (P.face hst))

theorem tracks_here {f g : Span → Parser α} (h : ∀ a b, Tracks P n m bare (f a) (g b)) :
    Tracks P n m bare (here >>= f) (here >>= g) :=
  ⟨fun s => (h s.current.span s.current.span).shrinks s,
    fun s t => (h s.current.span t.current.span).follows (s := s) (t := t)⟩

theorem tracks_spanFrom {f g : Span → Parser α} (h : ∀ a b, Tracks P n m bare (f a) (g b)) :
    Tracks P n m bare (spanFrom start >>= f) (spanFrom start' >>= g) :=
  ⟨fun s => (h _ start).shrinks s, fun s t => (h _ _).follows (s := s) (t := t)⟩

theorem tracks_peek {f g : TokenKind → Parser α}
    (h : ∀ kind, TracksAt P n m kind bare (f kind) (g kind)) :
    Tracks P n m bare (peek >>= f) (peek >>= g) := by
  refine ⟨fun s => (h s.current.kind).shrinks s, fun s t hst hs ht hahead => ?_⟩
  have hkind := (Token.face_eq_iff.mp (P.face hst)).1
  rw [bind_peek, bind_peek, ← hkind]
  exact (h _).follows hst hs ht rfl hahead

/-- A token of a known class is taken, and there is one token less behind it. -/
theorem tracksAt_advance {f g : Token → Parser α} (hkind : kind.Proper)
    (h : ∀ a b, a.face = b.face → Tracks P n' m' bare (f a) (g b)) (hn : n ≤ n' + 1)
    (hm : m ≤ m' + 1) : TracksAt P n m kind bare (advance >>= f) (advance >>= g) := by
  refine ⟨shrinks_advance fun token => (h token token rfl).shrinks, ?_⟩
  intro s t hst _ _ hcurrent hahead
  have hface := P.face hst
  have hrest := h s.current t.current hface
  have hmore : s.current.kind ≠ .endOfFile := hcurrent ▸ hkind.ne_endOfFile
  have hmore' : t.current.kind ≠ .endOfFile := (Token.face_eq_iff.mp hface).1 ▸ hmore
  have hlength := (P.ended hst).1.length_next hmore
  have hlength' := (P.ended hst).2.length_next hmore'
  have hnext := P.next hst hmore (hahead.trans (hrest.shrinks s.next))
  exact hrest.follows hnext (by omega) (by omega) hahead

theorem tracksAt_take {f g : Token → Parser α} (hkind : kind.Proper)
    (h : ∀ a b, a.face = b.face → Tracks P n m bare (f a) (g b)) :
    TracksAt P n m kind bare (advance >>= f) (advance >>= g) :=
  tracksAt_advance hkind h (Nat.le_succ n) (Nat.le_succ m)

/-- A bound that goes down by the token that is taken. -/
theorem tracksAt_enter {f g : Token → Parser α} (hkind : kind.Proper)
    (h : ∀ a b, a.face = b.face → Tracks P n m bare (f a) (g b)) :
    TracksAt P (n + 1) (m + 1) kind bare (advance >>= f) (advance >>= g) :=
  tracksAt_advance hkind h (Nat.le_refl _) (Nat.le_refl _)

variable {f g : Bool → Parser α}

theorem tracks_accept (hkind : kind.Proper) (htrue : Tracks P n' m' bare (f true) (g true))
    (hn : n ≤ n' + 1) (hm : m ≤ m' + 1) (hfalse : Tracks P n m bare (f false) (g false)) :
    Tracks P n m bare (accept kind >>= f) (accept kind >>= g) := by
  have htaken : TracksAt P n m kind bare (advance >>= fun _ => f true)
      (advance >>= fun _ => g true) :=
    tracksAt_advance hkind (fun _ _ _ => htrue) hn hm
  constructor
  · intro s
    by_cases hcurrent : s.current.kind = kind
    · rw [bind_apply_ok (accept_apply_of_eq hcurrent)]
      exact htaken.shrinks s
    · rw [bind_apply_ok (accept_apply_of_ne hcurrent)]
      exact hfalse.shrinks s
  · intro s _ hst hs ht hahead
    have hsame := (Token.face_eq_iff.mp (P.face hst)).1
    by_cases hcurrent : s.current.kind = kind
    · rw [bind_apply_ok (accept_apply_of_eq hcurrent)] at hahead ⊢
      rw [bind_apply_ok (accept_apply_of_eq (hsame ▸ hcurrent))]
      exact htaken.follows hst hs ht hcurrent hahead
    · rw [bind_apply_ok (accept_apply_of_ne hcurrent)] at hahead ⊢
      rw [bind_apply_ok (accept_apply_of_ne (hsame ▸ hcurrent))]
      exact hfalse.follows hst hs ht hahead

/-- One parser behind the other. If the first takes at least `k` tokens, the bounds may be smaller
by so many for the second. -/
theorem Tracks.bind_of_length {f g : α → Parser β} {k : Nat} (hp : Tracks P n m bare p q)
    (htakes : ∀ ⦃s s' a⦄, s.Ended → s.upcoming.length < n → p s = (.ok a, s') →
      s'.upcoming.length + k ≤ s.upcoming.length)
    (hf : ∀ a b, bare a = bare b → Tracks P n' m' bare' (f a) (g b)) (hn : n ≤ n' + k)
    (hm : m ≤ m' + k) : Tracks P n m bare' (p >>= f) (q >>= g) := by
  refine ⟨hp.shrinks.bind fun a => (hf a a rfl).shrinks, ?_⟩
  intro s t hst hs ht hahead
  have hfirst := hp.follows hst hs ht
  rcases hps : p s with ⟨e | a, s'⟩ <;> rcases hqt : q t with ⟨e' | b, t'⟩ <;>
    rw [hps, hqt] at hfirst <;> dsimp only at hfirst
  · -- Both have failed, with the same fault.
    rw [bind_apply_error hps] at hahead ⊢
    obtain ⟨hout, hrest⟩ := hfirst hahead
    rw [bind_apply_error hqt]
    exact ⟨congrArg Except.error (Except.error.inj hout), hrest⟩
  · rw [bind_apply_error hps] at hahead
    cases (hfirst hahead).1
  · -- The second parser does not give tokens back, so the first has stayed in front of the rest
    -- too.
    rw [bind_apply_ok hps] at hahead
    cases (hfirst (hahead.trans ((hf a a rfl).shrinks s'))).1
  · rw [bind_apply_ok hps] at hahead ⊢
    obtain ⟨hout, hrest⟩ := hfirst (hahead.trans ((hf a a rfl).shrinks s'))
    rw [bind_apply_ok hqt]
    have hless := htakes (P.ended hst).1 hs hps
    have hlength := P.length hst
    have hlength' := P.length hrest
    exact (hf a b (Except.ok.inj hout)).follows hrest (by omega) (by omega) hahead

theorem Tracks.bind {f g : α → Parser β} (hp : Tracks P n m bare p q)
    (hf : ∀ a b, bare a = bare b → Tracks P n m bare' (f a) (g b)) :
    Tracks P n m bare' (p >>= f) (q >>= g) := by
  refine hp.bind_of_length (k := 0) ?_ hf (Nat.le_refl n) (Nat.le_refl m)
  intro s _ _ _ _ hps
  have hshrinks := hp.shrinks s
  rwa [hps] at hshrinks

theorem tracks_ite {c : Prop} [Decidable c] {p' q' : Parser α} (h : Tracks P n m bare p q)
    (h' : Tracks P n m bare p' q') :
    Tracks P n m bare (if c then p else p') (if c then q else q') := by
  split
  · exact h
  · exact h'

/-! ## Bounds -/

/-- Two bounds that go down together. The induction is on one of them, for every value of the
other. -/
theorem bounds_induction {motive : Nat → Nat → Prop} (hzero : ∀ l, motive 0 l)
    (hzero' : ∀ k ≤ n, motive k 0)
    (hstep : ∀ k l, k < n → l < m → motive k l → motive (k + 1) (l + 1)) : motive n m := by
  have h (k l : Nat) (hk : k ≤ n) (hl : l ≤ m) : motive k l := by
    induction k generalizing l with
    | zero => exact hzero l
    | succ k ih =>
      cases l with
      | zero => exact hzero' _ hk
      | succ l => exact hstep k l hk hl (ih l (Nat.le_of_lt hk) (Nat.le_of_lt hl))
  exact h n m (Nat.le_refl n) (Nat.le_refl m)

/-- Parsers that nest or repeat, each round with a smaller bound than the last. No stream is shorter
than zero, so there is nothing to show of the smallest bounds. -/
theorem tracks_of_step {ι : Type} {bare : α → γ} {R : ι → ι → Prop} {p q : Nat → ι → Parser α}
    (hshrinks : ∀ k ≤ n, ∀ i, Shrinks (p k i))
    (hstep : ∀ k l, k < n → l < m → (∀ i j, R i j → Tracks P k l bare (p k i) (q l j)) →
      ∀ i j, R i j → Tracks P (k + 1) (l + 1) bare (p (k + 1) i) (q (l + 1) j))
    {i j : ι} (hij : R i j) : Tracks P n m bare (p n i) (q m j) := by
  refine bounds_induction (motive := fun k l => ∀ i j, R i j → Tracks P k l bare (p k i) (q l j))
    ?_ ?_ hstep i j hij
  · exact fun l i _ _ => ⟨hshrinks 0 (Nat.zero_le n) i,
      fun _ _ _ hs => absurd hs (Nat.not_lt_zero _)⟩
  · exact fun k hk i _ _ => ⟨hshrinks _ hk i, fun _ _ _ _ ht => absurd ht (Nat.not_lt_zero _)⟩

theorem tracks_of_round {p q : Nat → Parser α} (hshrinks : ∀ k ≤ n, Shrinks (p k))
    (hstep : ∀ k l, k < n → l < m → Tracks P k l bare (p k) (q l) →
      Tracks P (k + 1) (l + 1) bare (p (k + 1)) (q (l + 1))) : Tracks P n m bare (p n) (q m) := by
  refine tracks_of_step (p := fun k (_ : Unit) => p k) (q := fun l _ => q l) (R := Eq)
    (fun k hk _ => hshrinks k hk) ?_ (rfl : () = ())
  exact fun k l hk hl ih i _ _ => hstep k l hk hl (ih i i rfl)

/-- Parsers whose bound does not count the end of the file, where they must do the same with any
bound. -/
theorem tracks_of_step_end {ι : Type} {bare : α → γ} {R : ι → ι → Prop} {p q : Nat → ι → Parser α}
    (hshrinks : ∀ k i, Shrinks (p k i))
    (hend : ∀ k l i j, R i j → ∀ ⦃s t⦄, P.Pairs s t → s.current.kind = .endOfFile → P.rest = 0 →
      outcome bare (p k i s).1 = outcome bare (q l j t).1 ∧ P.Pairs (p k i s).2 (q l j t).2)
    (hstep : ∀ k l, k < n → l < m → (∀ i j, R i j → Tracks P (k + 1) (l + 1) bare (p k i) (q l j)) →
      ∀ i j, R i j → Tracks P (k + 2) (l + 2) bare (p (k + 1) i) (q (l + 1) j))
    {i j : ι} (hij : R i j) : Tracks P (n + 1) (m + 1) bare (p n i) (q m j) := by
  have hlast : ∀ k l i j, R i j → ∀ ⦃s t⦄, P.Pairs s t → s.current.kind = .endOfFile →
      P.rest ≤ (p k i s).2.upcoming.length →
      outcome bare (p k i s).1 = outcome bare (q l j t).1 ∧ P.Pairs (p k i s).2 (q l j t).2 := by
    intro k l i j hij s t hst hkind hahead
    -- Nothing is left in front of the rest, so the rest is empty.
    have hnone := (P.ended hst).1.upcoming_eq_nil.mpr hkind
    have hshorter := hahead.trans (hshrinks k i s)
    rw [hnone] at hshorter
    exact hend k l i j hij hst hkind (Nat.le_zero.mp hshorter)
  refine bounds_induction (motive := fun k l => ∀ i j, R i j →
    Tracks P (k + 1) (l + 1) bare (p k i) (q l j)) ?_ ?_ hstep i j hij
  · refine fun l i j hij => ⟨hshrinks 0 i, fun s t hst hs _ => hlast 0 l i j hij hst ?_⟩
    exact (P.ended hst).1.upcoming_eq_nil.mp (length_eq_zero_iff.mp (Nat.lt_one_iff.mp hs))
  · -- The other stream is at its end, and both show the same token.
    refine fun k _ i j hij => ⟨hshrinks k i, fun s t hst _ ht => hlast k 0 i j hij hst ?_⟩
    rw [(Token.face_eq_iff.mp (P.face hst)).1]
    exact (P.ended hst).2.upcoming_eq_nil.mp (length_eq_zero_iff.mp (Nat.lt_one_iff.mp ht))

theorem tracks_bounded {p : Nat → Parser α} (h : ∀ n m, Tracks P n m bare (p n) (p m)) :
    Tracks P n m bare (bounded p) (bounded p) :=
  ⟨fun s => (h _ 0).shrinks s,
    fun _ _ hst _ _ => (h _ _).follows hst (Nat.lt_succ_self _) (Nat.lt_succ_self _)⟩

/-! ## Single tokens -/

theorem tracks_expect (kind : TokenKind) (hkind : kind.Proper) :
    Tracks P n m Token.face (expect kind) (expect kind) := by
  refine tracks_peek fun found => ?_
  split
  next hfound =>
    have h : TracksAt P n m found Token.face (advance >>= pure) (advance >>= pure) :=
      tracksAt_advance (hfound ▸ hkind) (fun _ _ => tracks_pure) (Nat.le_succ n) (Nat.le_succ m)
    rwa [bind_pure] at h
  next => exact (tracks_unexpected _).at found

theorem tracks_expectSymbol {f g : Unit → Parser α} (sym : Symbol)
    (h : Tracks P n m bare (f ()) (g ())) :
    Tracks P n m bare (expectSymbol sym >>= f) (expectSymbol sym >>= g) := by
  have hexpect : Tracks P n m id (expectSymbol sym) (expectSymbol sym) :=
    (tracks_expect (.symbol sym) trivial).bind fun _ _ _ => tracks_pure rfl
  exact hexpect.bind fun _ _ _ => h

theorem tracks_ident {f g : Ident → Parser α}
    (h : ∀ a b, a.bare = b.bare → Tracks P n m bare (f a) (g b)) :
    Tracks P n m bare (ident >>= f) (ident >>= g) := by
  have hident : Tracks P n m Located.bare ident ident := by
    refine (tracks_expect .identifier trivial).bind fun a b hab => tracks_pure ?_
    rw [Located.bare, Located.bare, (Token.face_eq_iff.mp hab).2]
  exact hident.bind h

theorem tracks_acceptSymbol (sym : Symbol) (htrue : Tracks P n m bare (f true) (g true))
    (hfalse : Tracks P n m bare (f false) (g false)) :
    Tracks P n m bare (accept (.symbol sym) >>= f) (accept (.symbol sym) >>= g) :=
  tracks_accept trivial htrue (Nat.le_succ n) (Nat.le_succ m) hfalse

theorem tracks_acceptKeyword (k : Keyword) (htrue : Tracks P n m bare (f true) (g true))
    (hfalse : Tracks P n m bare (f false) (g false)) :
    Tracks P n m bare (accept (.keyword k) >>= f) (accept (.keyword k) >>= g) :=
  tracks_accept trivial htrue (Nat.le_succ n) (Nat.le_succ m) hfalse

/-! ## Repetition -/

/-- A prompt parser takes a token, unless the language has an empty word. -/
theorem Prompt.length_lt {L : Nonterminal α} (h : Prompt S n p L) (hnil : ∀ a, ¬ L [] a)
    ⦃s s' : TokenStream⦄ ⦃a : α⦄ (hs : s.Ended) (hlength : s.upcoming.length < n)
    (hp : p s = (.ok a, s')) : s'.upcoming.length + 1 ≤ s.upcoming.length := by
  obtain ⟨_, hus, hforms⟩ := h.exists_of_ok hs ((length_map _).trans_le hlength) hp
  cases hus with
  | refl => exact absurd hforms (hnil a)
  | next hproper hus =>
    have hless := hs.length_next hproper.ne_endOfFile
    have hrest := hus.length_le
    omega

section

variable {S : Span → Prop} {L : Nonterminal α} {item item' : Parser α}
  (hitem : Tracks P n m bare item item') (hprompt : Prompt S n item L)
include hitem hprompt

theorem tracks_manyUntil {sym : Symbol} (hnil : ∀ a, ¬ L [] a) :
    Tracks P n m (List.map bare) (manyUntil (.symbol sym) item n)
      (manyUntil (.symbol sym) item' m) := by
  refine tracks_of_round (fun k hk => (prompt_manyUntil hprompt hnil hk).shrinks)
    (fun k l hk hl ih => ?_)
  refine tracks_acceptSymbol sym (tracks_pure rfl) ?_
  refine (hitem.of_le hk hl).bind_of_length (k := 1) ?_ (fun a b hab => ?_) (Nat.le_refl _)
    (Nat.le_refl _)
  · exact fun s s' a hs hlength => hprompt.length_lt hnil hs (hlength.trans_le hk)
  · refine ih.bind fun as bs habs => tracks_pure ?_
    rw [map_cons, map_cons, hab, habs]

theorem tracks_commaSeparated :
    Tracks P n m (List.map bare) (commaSeparated item n) (commaSeparated item' m) := by
  refine tracks_of_round (fun k hk => (prompt_commaSeparated hprompt hk).shrinks)
    (fun k l hk hl ih => ?_)
  refine (hitem.of_le hk hl).bind fun a b hab =>
    tracks_accept trivial ?_ (Nat.le_refl _) (Nat.le_refl _) ?_
  · refine ih.bind fun as bs habs => tracks_pure ?_
    rw [map_cons, map_cons, hab, habs]
  · exact tracks_pure (by rw [map_singleton, map_singleton, hab])

theorem tracks_closeList :
    Tracks P n m (List.map bare) (closeList item n) (closeList item' m) := by
  unfold closeList
  have hitems := tracks_commaSeparated hitem hprompt
  refine tracks_peek fun kind => Tracks.at (tracks_ite ?_ ?_) kind
  · exact tracks_expectSymbol _ (tracks_pure rfl)
  · exact hitems.bind fun _ _ hab => tracks_expectSymbol _ (tracks_pure hab)

end

end Parser

namespace Grammar

open MiniJava.Parser

variable {P : Pairing} {n m : Nat}

/-! ## Expressions -/

variable {operand : Parser Expr} {a b : Ref}

theorem tracks_members (h : a.bare = b.bare) :
    Tracks P n m Ref.bare (members n a) (members m b) := by
  refine tracks_of_step (R := fun a b : Ref => a.bare = b.bare)
    (fun k _ base => (prompt_members (S := fun _ => False) (n := 0) k base).shrinks)
    (fun k l _ _ ih a b hab => ?_) h
  refine tracks_accept trivial ?_ (Nat.le_refl _) (Nat.le_refl _) (tracks_pure hab)
  refine tracks_ident fun f g hfg => ih _ _ ?_
  rw [Ref.bare, Ref.bare, hab, hfg]

theorem operands_of_endOfFile (level : List (Symbol × BinaryOp)) (operand : Parser Expr) (n : Nat)
    (left : Expr) {s : TokenStream} (h : s.current.kind = .endOfFile) :
    operands level operand n left s = (.ok left, s) := by
  cases n with
  | zero => rfl
  | succ =>
    unfold operands
    rw [bind_peek, h]
    rfl

theorem shrinks_operands (level : List (Symbol × BinaryOp)) (hoperand : Shrinks operand) (n : Nat)
    (left : Expr) : Shrinks (operands level operand n left) := by
  induction n generalizing left with
  | zero => exact fun s => Nat.le_refl _
  | succ _ ih =>
    intro s
    unfold operands
    rw [bind_peek]
    cases binaryOp? level s.current.kind with
    | none => exact Nat.le_refl _
    | some => exact shrinks_advance (fun _ => hoperand.bind fun right => ih _) s

theorem tracks_operands {operand' : Parser Expr} (level : List (Symbol × BinaryOp))
    (hoperand : Tracks P (n + 1) (m + 1) Expr.bare operand operand') {a b : Expr}
    (h : a.bare = b.bare) :
    Tracks P (n + 1) (m + 1) Expr.bare (operands level operand n a)
      (operands level operand' m b) := by
  refine tracks_of_step_end (R := fun a b : Expr => a.bare = b.bare)
    (fun k => shrinks_operands level hoperand.shrinks k) ?_ ?_ h
  · intro k l a b hab _ t hst hlast _
    have hlast' : t.current.kind = .endOfFile := (Token.face_eq_iff.mp (P.face hst)).1 ▸ hlast
    rw [operands_of_endOfFile _ _ _ _ hlast, operands_of_endOfFile _ _ _ _ hlast']
    exact ⟨congrArg Except.ok hab, hst⟩
  · -- A round of the loop takes an operator, so the bounds for the others are smaller by one.
    intro _ _ hk hl ih _ _ hab
    have hless := hoperand.of_le (Nat.succ_le_succ (Nat.le_of_lt hk))
      (Nat.succ_le_succ (Nat.le_of_lt hl))
    refine tracks_peek fun kind => ?_
    cases hop : binaryOp? level kind with
    | none => exact (tracks_pure hab).at kind
    | some _ =>
      unfold binaryOp? at hop
      split at hop
      next =>
        refine tracksAt_enter trivial (fun _ _ _ => hless.bind fun c d hcd => ih _ _ ?_)
        rw [Expr.bare, Expr.bare, hab, hcd]
      next => cases hop

theorem tracks_binary {operand' : Parser Expr}
    (hoperand : Tracks P (n + 1) (m + 1) Expr.bare operand operand')
    (levels : List (List (Symbol × BinaryOp))) :
    Tracks P (n + 1) (m + 1) Expr.bare (binary operand n levels) (binary operand' m levels) := by
  induction levels with
  | nil => exact hoperand
  | cons level _ ih => exact ih.bind fun _ _ h => tracks_operands level ih h

theorem unary_of_endOfFile (primary : Parser Expr) (n : Nat) {s : TokenStream}
    (h : s.current.kind = .endOfFile) : unary primary n s = primary s := by
  cases n with
  | zero => rfl
  | succ =>
    unfold unary
    rw [bind_peek, h]
    rfl

section

variable {S : Span → Prop}

theorem tracks_unary {primary primary' : Parser Expr}
    (hprimary : Tracks P (n + 1) (m + 1) Expr.bare primary primary')
    (hprompt : Prompt S (n + 1) primary (FormsExpr 7)) :
    Tracks P (n + 1) (m + 1) Expr.bare (unary primary n) (unary primary' m) := by
  refine tracks_of_step_end (p := fun k (_ : Unit) => unary primary k)
    (q := fun l _ => unary primary' l) (R := Eq) (fun k _ => (prompt_unary hprompt k).shrinks) ?_
    (fun k l hk hl ih _ _ _ => ?_) (rfl : () = ())
  · -- At the end of the file there is no operator, so the bounds do not matter.
    intro k l _ _ _ s t hst hlast hrest
    have hlast' : t.current.kind = .endOfFile := (Token.face_eq_iff.mp (P.face hst)).1 ▸ hlast
    have hnone := (P.ended hst).1.upcoming_eq_nil.mpr hlast
    have hnone' := (P.ended hst).2.upcoming_eq_nil.mpr hlast'
    show outcome _ (unary primary k s).1 = outcome _ (unary primary' l t).1 ∧ _
    rw [unary_of_endOfFile _ _ hlast, unary_of_endOfFile _ _ hlast']
    exact hprimary.follows hst (by simp [hnone]) (by simp [hnone']) (by simp [hrest])
  · -- With an operator, its operand is read within smaller bounds.
    have hless := hprimary.of_le (Nat.succ_le_succ hk) (Nat.succ_le_succ hl)
    refine tracks_peek fun kind => ?_
    cases hop : unaryOp? kind with
    | none => exact hless.at kind
    | some _ =>
      obtain ⟨_, rfl, -⟩ := unaryOf_of_unaryOp hop
      refine tracksAt_enter trivial (fun _ _ _ => (ih () () rfl).bind fun c d hcd => tracks_pure ?_)
      rw [Expr.bare, Expr.bare, hcd]

theorem tracksAt_number : TracksAt P n m .number Expr.bare number number := by
  refine tracksAt_take trivial (fun a b hab => ?_)
  rw [(Token.face_eq_iff.mp hab).2]
  exact tracks_ite (tracks_pure rfl) (tracks_fail rfl)

variable {expr expr' : Parser Expr} (hexpr : Tracks P n m Expr.bare expr expr')
include hexpr

theorem tracks_arraySize {a b : Located Ty} (h : a.bare = b.bare) :
    Tracks P n m Expr.bare (arraySize expr start a) (arraySize expr' start' b) := by
  refine hexpr.bind fun c d hcd => tracks_expectSymbol _ (tracks_spanFrom fun _ _ => tracks_pure ?_)
  rw [Expr.bare, Expr.bare, h, hcd]

theorem tracks_creation : Tracks P n m Expr.bare (creation expr start) (creation expr' start') := by
  refine tracks_peek fun kind => ?_
  cases kind with
  | identifier =>
    refine Tracks.at (tracks_ident fun a b hab => tracks_acceptSymbol _ ?_ ?_) _
    · refine tracks_expectSymbol _ (tracks_spanFrom fun _ _ => tracks_pure ?_)
      rw [Expr.bare, Expr.bare, hab]
    · refine tracks_acceptSymbol _ (tracks_arraySize hexpr ?_) (tracks_unexpected _)
      have hvalue : a.value = b.value := (Located.mk.inj hab).1
      rw [Located.bare, Located.bare, hvalue]
  | keyword k =>
    cases k with
    | intKw =>
      refine tracksAt_take trivial (fun _ _ _ => ?_)
      exact tracks_expectSymbol _ (tracks_arraySize hexpr rfl)
    | _ => exact (tracks_unexpected _).at _
  | _ => exact (tracks_unexpected _).at _

variable (hprompt : Prompt S n expr (FormsExpr 0))
include hprompt

theorem tracks_useOfReference (h : a.bare = b.bare) :
    Tracks P n m Expr.bare (useOfReference expr n start a) (useOfReference expr' m start' b) := by
  refine tracks_acceptSymbol _ ?_ (tracks_acceptSymbol _ ?_ ?_)
  · refine hexpr.bind fun c d hcd => tracks_expectSymbol _
      (tracks_spanFrom fun _ _ => tracks_pure ?_)
    rw [Expr.bare, Expr.bare, h, hcd]
  · refine (tracks_closeList hexpr hprompt).bind fun as bs habs => tracks_spanFrom fun _ _ =>
      tracks_pure ?_
    rw [Expr.bare, Expr.bare, h, Expr.bareOf_eq_map, Expr.bareOf_eq_map, habs]
  · exact tracks_pure (by rw [Expr.bare, Expr.bare, h])

theorem tracks_primary :
    Tracks P (n + 1) (m + 1) Expr.bare (primary expr n) (primary expr' m) := by
  have htarget : ∀ {start start'} {a b : Ref}, a.bare = b.bare →
      Tracks P n m Expr.bare (members n a >>= useOfReference expr n start)
        (members m b >>= useOfReference expr' m start') := fun h =>
    (tracks_members h).bind fun _ _ h => tracks_useOfReference hexpr hprompt h
  refine tracks_here fun start start' => tracks_peek fun kind => ?_
  cases kind with
  | number => exact tracksAt_number
  | identifier =>
    refine tracksAt_enter trivial (fun a b hab => htarget ?_)
    rw [Ref.bare, Ref.bare, (Token.face_eq_iff.mp hab).2]
  | keyword k =>
    cases k with
    | trueKw | falseKw | nullKw =>
      exact tracksAt_advance trivial (fun _ _ _ => tracks_pure rfl) (Nat.le_succ _) (Nat.le_succ _)
    | newKw =>
      exact tracksAt_enter trivial (fun _ _ _ => tracks_creation hexpr)
    | thisKw =>
      exact tracksAt_enter trivial (fun _ _ _ => htarget rfl)
    | _ => exact (tracks_unexpected _).at _
  | symbol sym =>
    cases sym with
    | openParen =>
      refine tracksAt_enter trivial (fun _ _ _ => hexpr.bind fun c d hcd => ?_)
      refine tracks_expectSymbol _ (tracks_spanFrom fun _ _ => tracks_pure ?_)
      rw [Expr.bare_withSpan, Expr.bare_withSpan, hcd]
    | _ => exact (tracks_unexpected _).at _
  | _ => exact (tracks_unexpected _).at _

end

theorem tracks_exprWithin (n m : Nat) : Tracks P n m Expr.bare (exprWithin n) (exprWithin m) := by
  have hprompt := prompt_exprWithin (S := fun _ => False)
  refine tracks_of_round (fun k _ => (hprompt k).shrinks) (fun k l _ _ ih => ?_)
  exact tracks_binary (tracks_unary (tracks_primary ih (hprompt k)) (prompt_primary (hprompt k)))
    precedence

theorem tracks_expr : Tracks P n m Expr.bare expr expr := tracks_bounded tracks_exprWithin

/-- The arguments of a call. -/
theorem tracks_args : Tracks P n m (List.map Expr.bare) (closeList expr n) (closeList expr m) :=
  tracks_closeList tracks_expr (prompt_expr (S := fun _ => False))

/-! ## Types and statements -/

theorem tracks_arrayOrPlain (element : Ty) :
    Tracks P n m Located.bare (arrayOrPlain start element) (arrayOrPlain start' element) :=
  tracks_acceptSymbol _ (tracks_expectSymbol _ (tracks_spanFrom fun _ _ => tracks_pure rfl))
    (tracks_pure rfl)

theorem tracks_type : Tracks P n m Located.bare type type := by
  refine tracks_here fun start start' => tracks_peek fun kind => ?_
  cases kind with
  | identifier =>
    refine tracksAt_take trivial (fun a b hab => ?_)
    rw [(Token.face_eq_iff.mp hab).2]
    exact tracks_arrayOrPlain _
  | keyword k =>
    cases k with
    | intKw =>
      exact tracksAt_take trivial (fun _ _ _ => tracks_arrayOrPlain _)
    | booleanKw =>
      exact tracksAt_take trivial (fun _ _ _ => tracks_pure rfl)
    | _ => exact (tracks_unexpected _).at _
  | _ => exact (tracks_unexpected _).at _

theorem tracks_declaration {a b : Located Ty} (h : a.bare = b.bare) :
    Tracks P n m Stmt.bare (declaration start a) (declaration start' b) := by
  refine tracks_ident fun x y hxy => tracks_expectSymbol _ (tracks_expr.bind fun c d hcd => ?_)
  refine tracks_expectSymbol _ (tracks_spanFrom fun _ _ => tracks_pure ?_)
  rw [Stmt.bare, Stmt.bare, h, hxy, hcd]

theorem tracks_elementAssignment (h : a.bare = b.bare) :
    Tracks P n m Stmt.bare (elementAssignment start a) (elementAssignment start' b) := by
  refine tracks_expr.bind fun c d hcd => tracks_expectSymbol _ (tracks_expectSymbol _ ?_)
  refine tracks_expr.bind fun c' d' hcd' => tracks_expectSymbol _ ?_
  exact tracks_spanFrom fun _ _ => tracks_pure (by rw [Stmt.bare, Stmt.bare, h, hcd, hcd'])

theorem tracks_referenceStmt (h : a.bare = b.bare) :
    Tracks P n m Stmt.bare (referenceStmt n start a) (referenceStmt m start' b) := by
  refine tracks_peek fun kind => ?_
  cases kind with
  | symbol sym =>
    cases sym with
    | assign =>
      refine tracksAt_take trivial (fun _ _ _ => tracks_expr.bind fun c d hcd => ?_)
      refine tracks_expectSymbol _ (tracks_spanFrom fun _ _ => tracks_pure ?_)
      rw [Stmt.bare, Stmt.bare, h, hcd]
    | openBracket =>
      exact tracksAt_take trivial (fun _ _ _ => tracks_elementAssignment h)
    | openParen =>
      refine tracksAt_take trivial (fun _ _ _ => tracks_args.bind fun as bs habs => ?_)
      refine tracks_expectSymbol _ (tracks_spanFrom fun _ _ => tracks_pure ?_)
      rw [Stmt.bare, Stmt.bare, h, Expr.bareOf_eq_map, Expr.bareOf_eq_map, habs]
    | _ => exact (tracks_unexpected _).at _
  | _ => exact (tracks_unexpected _).at _

theorem tracks_targetStmt (h : a.bare = b.bare) :
    Tracks P n m Stmt.bare (members n a >>= referenceStmt n start)
      (members m b >>= referenceStmt m start') :=
  (tracks_members h).bind fun _ _ h => tracks_referenceStmt h

theorem tracksAt_nameStmt :
    TracksAt P (n + 1) (m + 1) .identifier Stmt.bare (nameStmt n start) (nameStmt m start') := by
  refine tracksAt_enter trivial (fun a b hab => ?_)
  have htext := (Token.face_eq_iff.mp hab).2
  have hreference : Tracks P n m Stmt.bare
      (members n (.name a.span a.text) >>= referenceStmt n start)
      (members m (.name b.span b.text) >>= referenceStmt m start') :=
    tracks_targetStmt (by rw [Ref.bare, Ref.bare, htext])
  -- The next token tells a declaration from a use of the name, and brackets may be either.
  refine tracks_peek fun kind => ?_
  cases kind with
  | identifier => exact (tracks_declaration (by rw [Located.bare, Located.bare, htext])).at _
  | symbol sym =>
    cases sym with
    | openBracket =>
      refine tracksAt_take trivial (fun _ _ _ => tracks_acceptSymbol _ ?_ ?_)
      · exact tracks_spanFrom fun _ _ => tracks_declaration
          (by rw [Located.bare, Located.bare, htext])
      · exact tracks_elementAssignment (by rw [Ref.bare, Ref.bare, htext])
    | _ => exact hreference.at _
  | _ => exact hreference.at _

theorem tracks_condition : Tracks P n m Expr.bare condition condition :=
  tracks_expectSymbol _ (tracks_expr.bind fun _ _ h => tracks_expectSymbol _ (tracks_pure h))

theorem tracks_returnStmt : Tracks P n m Stmt.bare (returnStmt start) (returnStmt start') := by
  refine tracks_peek fun kind => Tracks.at (tracks_ite ?_ ?_) kind
  · exact tracks_expectSymbol _ (tracks_spanFrom fun _ _ => tracks_pure rfl)
  · refine tracks_expr.bind fun c d hcd => tracks_expectSymbol _
      (tracks_spanFrom fun _ _ => tracks_pure ?_)
    rw [Stmt.bare, Stmt.bare, Option.map_some, Option.map_some, hcd]

section

variable {stmt stmt' : Parser Stmt} (hstmt : Tracks P n m Stmt.bare stmt stmt')
include hstmt

theorem tracks_ifStmt : Tracks P n m Stmt.bare (ifStmt stmt start) (ifStmt stmt' start') := by
  refine tracks_condition.bind fun c d hcd => hstmt.bind fun a b hab => tracks_acceptKeyword _ ?_ ?_
  · refine hstmt.bind fun a' b' hab' => tracks_spanFrom fun _ _ => tracks_pure ?_
    rw [Stmt.bare, Stmt.bare, hcd, hab, hab']
  · exact tracks_spanFrom fun _ _ => tracks_pure (by rw [Stmt.bare, Stmt.bare, hcd, hab])

theorem tracks_stmtOver (hprompt : Prompt S n stmt FormsStmt) :
    Tracks P (n + 1) (m + 1) Stmt.bare (stmtOver stmt n) (stmtOver stmt' m) := by
  refine tracks_here fun start start' => tracks_peek fun kind => ?_
  cases kind with
  | identifier => exact tracksAt_nameStmt
  | symbol sym =>
    cases sym with
    | openBrace =>
      refine tracksAt_enter trivial (fun _ _ _ => ?_)
      refine (tracks_manyUntil hstmt hprompt not_formsStmt_nil).bind fun as bs habs =>
        tracks_spanFrom fun _ _ => tracks_pure ?_
      rw [Stmt.bare, Stmt.bare, Stmt.bareOf_eq_map, Stmt.bareOf_eq_map, habs]
    | _ => exact (tracks_unexpected _).at _
  | keyword k =>
    cases k with
    | intKw | booleanKw => exact Tracks.at (tracks_type.bind fun _ _ h => tracks_declaration h) _
    | returnKw =>
      exact tracksAt_enter trivial (fun _ _ _ => tracks_returnStmt)
    | ifKw =>
      exact tracksAt_enter trivial (fun _ _ _ => tracks_ifStmt hstmt)
    | whileKw =>
      refine tracksAt_enter trivial (fun _ _ _ => tracks_condition.bind fun c d hcd =>
        hstmt.bind fun a b hab => tracks_spanFrom fun _ _ => tracks_pure ?_)
      rw [Stmt.bare, Stmt.bare, hcd, hab]
    | thisKw =>
      exact tracksAt_enter trivial (fun _ _ _ => tracks_targetStmt rfl)
    | _ => exact (tracks_unexpected _).at _
  | _ => exact (tracks_unexpected _).at _

end

theorem tracks_stmt : Tracks P n m Stmt.bare stmt stmt := by
  have hprompt := prompt_stmtWithin (S := fun _ => False)
  refine tracks_bounded fun n m => tracks_of_round (fun k _ => (hprompt k).shrinks) ?_
  exact fun k l _ _ ih => tracks_stmtOver ih (hprompt k)

/-! ## Classes and programs -/

theorem tracks_param : Tracks P n m Param.bare param param := by
  refine tracks_type.bind fun c d hcd => tracks_ident fun x y hxy => tracks_pure ?_
  rw [Param.bare, Param.bare, hcd, hxy]

theorem tracks_privacy : Tracks P n m id privacy privacy :=
  tracks_acceptKeyword _ (tracks_pure rfl)
    (tracks_acceptKeyword _ (tracks_pure rfl) (tracks_pure rfl))

theorem tracks_static : Tracks P n m id (accept (.keyword .staticKw))
    (accept (.keyword .staticKw)) := by
  have h : Tracks P n m id (accept (.keyword .staticKw) >>= pure)
      (accept (.keyword .staticKw) >>= pure) :=
    tracks_acceptKeyword _ (tracks_pure rfl) (tracks_pure rfl)
  rwa [bind_pure] at h

theorem tracks_memberType : Tracks P n m Located.bare memberType memberType := by
  refine tracks_peek fun kind => ?_
  split
  next hkind =>
    subst hkind
    exact tracksAt_take trivial (fun _ _ _ => tracks_pure rfl)
  next => exact tracks_type.at kind

theorem tracks_member (owner : String) :
    Tracks P n m Member.bare (member n owner) (member m owner) := by
  refine tracks_here fun start start' => tracks_privacy.bind fun isPrivate isPrivate' hprivate => ?_
  obtain rfl : isPrivate = isPrivate' := hprivate
  refine tracks_static.bind fun isStatic isStatic' hstatic => ?_
  obtain rfl : isStatic = isStatic' := hstatic
  refine tracks_memberType.bind fun c d hcd => tracks_ident fun x y hxy => ?_
  have htype : c.value = d.value := (Located.mk.inj hcd).1
  have hname : x.value = y.value := (Located.mk.inj hxy).1
  refine tracks_peek fun kind => Tracks.at (tracks_ite ?_ ?_) kind
  · rw [htype]
    refine tracks_ite (tracks_fail (by rw [hname])) (tracks_expectSymbol _ ?_)
    exact tracks_spanFrom fun _ _ => tracks_pure
      (by simp only [Member.bare, FieldDecl.bare, hcd, hxy])
  · have hparams := tracks_closeList (P := P) (n := n) (m := m) tracks_param
      (prompt_param (S := fun _ => False))
    refine tracks_expectSymbol _ (hparams.bind fun ps qs hps => tracks_expectSymbol _ ?_)
    refine (tracks_manyUntil tracks_stmt (prompt_stmt (S := fun _ => False)) not_formsStmt_nil).bind
      fun as bs habs => ?_
    refine tracks_spanFrom fun _ _ => tracks_pure ?_
    simp only [Member.bare, MethodDecl.bare, hcd, hxy, hps, Stmt.bareOf_eq_map, habs]

theorem tracks_classDecl :
    Tracks P (n + 1) (m + 1) ClassDecl.bare (classDecl n) (classDecl m) := by
  have hword := (prompt_expect (S := fun _ => False) (n := n + 1) (.keyword .classKw) "" trivial
    (.keyword _)).length_lt nofun
  refine (tracks_expect (.keyword .classKw) trivial).bind_of_length hword (fun _ _ _ => ?_)
    (Nat.le_refl _) (Nat.le_refl _)
  refine tracks_ident fun x y hxy => tracks_expectSymbol _ ?_
  have hname : x.value = y.value := (Located.mk.inj hxy).1
  rw [hname]
  refine (tracks_manyUntil (tracks_member y.value) (prompt_member (S := fun _ => False) y.value)
    (not_formsMember_nil y.value)).bind fun as bs habs => tracks_spanFrom fun _ _ => tracks_pure ?_
  simp only [ClassDecl.bare, hxy, map_field?, map_method?, habs]

theorem tracks_classes (n m : Nat) :
    Tracks P n m (List.map ClassDecl.bare) (classes n) (classes m) := by
  refine tracks_of_round (fun k _ => (prompt_classes (S := fun _ => False) k).shrinks)
    (fun k l _ _ ih => ?_)
  refine tracks_peek fun kind => Tracks.at (tracks_ite (tracks_pure rfl) ?_) kind
  have hclass := (prompt_classDecl (S := fun _ => False) (n := k)).length_lt nofun
  refine tracks_classDecl.bind_of_length hclass (fun c d hcd => ?_) (Nat.le_refl _) (Nat.le_refl _)
  refine ih.bind fun cs ds hcds => tracks_pure ?_
  rw [map_cons, map_cons, hcd, hcds]

/-- On two streams that show the same faces up to some rests, the parser of programs gives the same
tree but for the ranges, or fails with the same message, as long as it stays in front of the rest.
-/
theorem tracks_program : Tracks P n m Program.bare program program :=
  (tracks_bounded tracks_classes).bind fun _ _ h => tracks_pure (congrArg Program.mk h)

end Grammar

end MiniJava
