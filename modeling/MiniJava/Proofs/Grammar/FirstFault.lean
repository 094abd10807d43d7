import MiniJava.Proofs.Grammar.InvalidTokens
import MiniJava.Proofs.Grammar.RoundTrip
import MiniJava.Proofs.Layout.Compiled
import MiniJava.Proofs.Positions.Taken

/-!
# The first token that cannot be

A source that is no program is reported at its first token that cannot continue one: with this token
the source could not be made a program any more by changing what follows, and up to it, it still
could (`unexpected_token_first`).

The first half is that a parser does not look ahead (`tracks_program`): it gives up in front of any
other tokens behind this one too. The second half is that it gives up in time (`prompt_program`).
-/

namespace MiniJava

open Grammar List

/-! ## Sources that begin alike -/

/-- The first tokens of both sources are of the same classes and have the same texts. -/
def BeginsLike (source : String) (k : Nat) (source' : String) : Prop :=
  ((lex source').take k).map Token.look = ((lex source).take k).map Token.look

variable {source source' : String} {k : Nat}

theorem BeginsLike.faces (h : BeginsLike source k source') :
    ((lex source').take k).map Token.face = ((lex source).take k).map Token.face := by
  have hfaces : ∀ source, ((lex source).take k).map Token.face =
      (((lex source).take k).map Token.look).map faceOf := by
    intro _
    rw [map_map]
    exact map_congr_left fun t ht => face_of_mem_lex t (mem_of_mem_take ht)
  rw [hfaces, hfaces, h]

theorem beginsLike_of_faces
    (h : ((lex source').take k).map Token.face = ((lex source).take k).map Token.face) :
    BeginsLike source k source' := by
  have hlooks : ∀ ts : List Token, ts.map Token.look =
      (ts.map Token.face).map fun f => Token.look ⟨f.1, f.2, Span.builtin⟩ := by
    intro _
    rw [map_map]
    rfl
  rw [BeginsLike, hlooks, h, ← hlooks]

/-- Two streams that show the same tokens, but for the places, up to the rests. -/
structure SharesFaces (rest rest' : List Token) (s t : TokenStream) : Prop where
  ended : s.Ended
  ended' : t.Ended
  current : s.current.face = t.current.face
  upcoming : ∃ us vs, s.upcoming = us ++ rest ∧ t.upcoming = vs ++ rest' ∧
    us.map Token.face = vs.map Token.face

section

variable {rest rest' : List Token} {s t : TokenStream}

theorem SharesFaces.length (h : SharesFaces rest rest' s t) :
    s.upcoming.length + rest'.length = t.upcoming.length + rest.length := by
  obtain ⟨_, _, hs, ht, hfaces⟩ := h.upcoming
  have hlength := congrArg List.length hfaces
  rw [length_map, length_map] at hlength
  rw [hs, ht, length_append, length_append]
  omega

/-- Whoever takes a token and stays in front of the rest takes the same token in both. -/
theorem SharesFaces.next (h : SharesFaces rest rest' s t) (hmore : s.current.kind ≠ .endOfFile)
    (hahead : rest.length ≤ s.next.upcoming.length) : SharesFaces rest rest' s.next t.next := by
  have hmore' : t.current.kind ≠ .endOfFile := (Token.face_eq_iff.mp h.current).1 ▸ hmore
  have hended := (h.ended.advances_next hmore).ended
  have hended' := (h.ended'.advances_next hmore').ended
  have hlength := h.ended.length_next hmore
  obtain ⟨us, vs, hs, ht, hfaces⟩ := h.upcoming
  cases us with
  | nil =>
    -- The current token would be the last one in front of the rest.
    rw [hs, nil_append] at hlength
    omega
  | cons u us =>
    obtain ⟨v, vs, rfl⟩ := exists_cons_of_ne_nil (show vs ≠ [] by rintro rfl; cases hfaces)
    obtain ⟨hface, hfaces⟩ := cons.inj hfaces
    obtain ⟨_, upcoming, _, _⟩ := s
    obtain ⟨_, upcoming', _, _⟩ := t
    obtain rfl : upcoming = u :: (us ++ rest) := hs
    obtain rfl : upcoming' = v :: (vs ++ rest') := ht
    exact ⟨hended, hended', hface, us, vs, rfl, rfl, hfaces⟩

end

/-- Such streams go on together up to the rests. -/
def sharedPairing (rest rest' : List Token) : Pairing where
  Pairs := SharesFaces rest rest'
  rest := rest.length
  rest' := rest'.length
  ended h := ⟨h.ended, h.ended'⟩
  face h := h.current
  length h := h.length
  next h := h.next

/-! ## What cannot be a program any more -/

/-- Sources that begin alike up to the current token. -/
theorem sharesFaces_of_beginsLike {s' : TokenStream} {us : List Token}
    (htakes : (TokenStream.ofSource source).Takes us s')
    (hlike : BeginsLike source (us.length + 1) source') :
    SharesFaces s'.upcoming ((lex source').drop (us.length + 1)) (.ofSource source)
      (.ofSource source') := by
  have htokens : (TokenStream.ofSource source).tokens = (us ++ [s'.current]) ++ s'.upcoming := by
    rw [htakes.tokens, append_assoc]
    rfl
  have htokens' : (TokenStream.ofSource source').tokens = _ :=
    (TokenStream.tokens_ofSource source').trans
      (take_append_drop (us.length + 1) (lex source')).symm
  have hfaces := hlike.faces
  rw [← TokenStream.tokens_ofSource source, htokens,
    take_left' (show (us ++ [s'.current]).length = us.length + 1 by simp)] at hfaces
  -- The first token is current, and the others come in front of the rest.
  obtain ⟨first, others, hfirst⟩ : ∃ first others, us ++ [s'.current] = first :: others :=
    exists_cons_of_ne_nil (append_ne_nil_of_right_ne_nil us (cons_ne_nil _ _))
  rw [hfirst] at htokens hfaces
  obtain ⟨_, others', hfirst', hface, hothers⟩ := map_eq_cons_iff.mp hfaces
  rw [hfirst'] at htokens'
  obtain ⟨hcurrent, hupcoming⟩ := cons.inj htokens
  obtain ⟨hcurrent', hupcoming'⟩ := cons.inj htokens'
  refine ⟨(TokenStream.ended_ofSource source).1, (TokenStream.ended_ofSource source').1, ?_,
    others, others', hupcoming, hupcoming', hothers.symm⟩
  rw [hcurrent, hcurrent', hface]

/-- Where one source was given up, every other is that begins with the same tokens up to there. -/
theorem parse_ne_ok_of_beginsLike {s' : TokenStream} {us : List Token} {e : Located GrammarFault}
    (hread : program (.ofSource source) = (.error e, s'))
    (htakes : (TokenStream.ofSource source).Takes us s')
    (hlike : BeginsLike source (us.length + 1) source') (p : Program) : parse source' ≠ .ok p := by
  intro hparse
  obtain ⟨_, haccepted, -⟩ := parse_eq_ok.mp hparse
  have hpairs : (sharedPairing s'.upcoming ((lex source').drop (us.length + 1))).Pairs
    (.ofSource source)
      (.ofSource source') := sharesFaces_of_beginsLike htakes hlike
  have hsame := (tracks_program.follows hpairs (Nat.lt_succ_self _) (Nat.lt_succ_self _)
    (by rw [hread]; exact Nat.le_refl _)).1
  rw [hread, haccepted] at hsame
  cases hsame

/-! ## What still can be a program -/

/-- A lexeme is told by what the grammar sees of it. -/
theorem Token.face_of_isLexeme {t : Token} (h : IsLexeme t.kind t.text.toList) :
    (t.terminal.kind, t.terminal.text) = t.face := by
  obtain ⟨_, text, _⟩ := t
  dsimp only at h
  generalize hchars : text.toList = chars at h
  cases h with
  | keyword | symbol => exact Prod.ext rfl (String.toList_injective hchars.symm)
  | number | identifier => rfl

/-- What can be continued to a program can be continued to a source that is parsed. -/
theorem exists_beginsLike_of_viable {us vs : List Token} (hsplit : lex source = us ++ vs)
    (hproper : ∀ t ∈ us, t.kind.Proper)
    (h : Viable (fun ts p => Many FormsClass ts (Program.classes p)) (us.map Token.terminal)) :
    ∃ source' p, BeginsLike source us.length source' ∧ parse source' = .ok p := by
  obtain ⟨ts, p, hts, hforms⟩ := h
  have hlexemes : ∀ t ∈ us, IsLexeme t.kind t.text.toList := by
    intro t ht
    have hmem : t ∈ lex source := hsplit ▸ mem_append_left vs ht
    exact Scanner.isLexeme_of_mem_tokens _ t hmem (hproper t ht).ne_endOfFile
      (Token.diagnostic?_eq_none (hproper t ht))
  have hlexical : ∀ t ∈ us.map Token.terminal ++ ts, t.Lexical := by
    intro t ht
    obtain ht | ht := mem_append.mp ht
    · obtain ⟨token, htoken, rfl⟩ := mem_map.mp ht
      exact Token.lexical_terminal (hlexemes token htoken)
    · exact hts t ht
  let source' := textOf (us.map Token.terminal ++ ts)
  have hprogram : FormsProgram (terminalsOf source') p := by
    rw [terminalsOf_textOf hlexical]
    exact .mk hforms
  obtain ⟨q, hq, hbound⟩ := exists_elseBound_program hprogram
  have htree : q.IsTreeOf source' := ⟨hq, hbound⟩
  obtain ⟨p', hparse, -⟩ := parsesAs_of_isTreeOf htree
  refine ⟨source', p', beginsLike_of_faces ?_, hparse⟩
  have hfaces : (us.map Token.terminal).map (fun t => (t.kind, t.text)) = us.map Token.face := by
    rw [map_map]
    exact map_congr_left fun t ht => Token.face_of_isLexeme (hlexemes t ht)
  have hlex : (lex source').map Token.face = _ := lex_textOf hlexical
  rw [map_take, hlex, map_append, hfaces, append_assoc, hsplit, take_left' rfl]
  exact take_left' (length_map _)

/-! ## Which token is reported -/

/-- Tokens at different places have different ranges. -/
theorem index_eq_of_span {i j : Nat} {t u : Token} (hi : (lex source)[i]? = some t)
    (hj : (lex source)[j]? = some u) (h : t.span = u.span) : i = j := by
  have hordered := ordered_lex source
  obtain ⟨front, last, hsplit, -, hothers⟩ := (Scanner.ofSource source).exists_tokens
  have hsplit : lex source = front ++ [last] := hsplit
  -- The earlier one is not the end of the file, so it ends behind the place where it begins.
  have hnever : ∀ {i j : Nat} {t u : Token}, (lex source)[i]? = some t → (lex source)[j]? = some u →
      t.span = u.span → ¬ i < j := by
    intro i j t _ hi hj h hless
    obtain ⟨hlength, hget⟩ := List.getElem?_eq_some_iff.mp hi
    obtain ⟨hlength', hget'⟩ := List.getElem?_eq_some_iff.mp hj
    have hapart := pairwise_iff_getElem.mp hordered.apart i j hlength hlength' hless
    rw [hget, hget', Span.Before, ← h] at hapart
    have hfront : t ∈ front := by
      have hfewer : i < front.length := by
        have hall := congrArg List.length hsplit
        rw [length_append, length_singleton] at hall
        omega
      rw [hsplit, getElem?_append_left hfewer] at hi
      exact mem_of_getElem? hi
    have hsolid := hordered.solid t (hget ▸ getElem_mem hlength) (hothers t hfront)
    omega
  exact Nat.le_antisymm (Nat.not_lt.mp (hnever hj hi h.symm)) (Nat.not_lt.mp (hnever hi hj h))

theorem head?_append_text {a b : String} {c : Char} (h : a.toList.head? = some c) :
    (a ++ b).toList.head? = some c := by
  rw [String.toList_append, head?_append, h, Option.some_or]

/-- A report in these words is on a token that was not expected. -/
theorem eq_unexpected_of_message {fault : GrammarFault} {x y : String}
    (h : fault.message = s!"expected {x}, found {y}") :
    ∃ expected found, fault = .unexpected expected found := by
  have hfirst : fault.message.toList.head? = some 'e' := by
    rw [h]
    exact head?_append_text (head?_append_text (head?_append_text rfl))
  cases fault with
  | unexpected expected found => exact ⟨expected, found, rfl⟩
  | voidField name =>
    have hother : (GrammarFault.voidField name).message.toList.head? = some 'f' :=
      head?_append_text (head?_append_text rfl)
    cases hother.symm.trans hfirst
  | literalOutOfRange text =>
    have hother : (GrammarFault.literalOutOfRange text).message.toList.head? = some 'i' :=
      head?_append_text (head?_append_text rfl)
    cases hother.symm.trans hfirst

/-- Of what is reported where a parser gave up, one report is about the grammar. -/
theorem eq_diagnostic_of_mem {t : Token} {e : Located GrammarFault} {d : Diagnostic}
    (hd : d ∈ t.diagnostic?.toList ++ [GrammarFault.diagnostic e]) (hkind : d.kind = .grammar) :
    d = GrammarFault.diagnostic e := by
  obtain hd | hd := mem_append.mp hd
  · obtain hscan | hio := (Token.invalid_of_diagnostic? (Option.mem_toList.mp hd)).2
    · rw [hkind] at hscan
      cases hscan
    · rw [hkind] at hio
      cases hio
  · exact mem_singleton.mp hd

/-- The report that something else was expected where this token was found. -/
def Token.unexpectedReport (t : Token) (expected found : String) : Diagnostic :=
  ⟨.grammar, s!"expected {expected}, found {found}", some t.span⟩

/-- A report that a token was not expected is on the first token that cannot be: no source that
begins with the same tokens up to this one is parsed, and some source is that begins with those in
front of it. The other reports on the grammar are on a token that was taken. -/
theorem unexpected_token_first {reports : List Diagnostic} (h : parse source = .error reports) :
    (∀ (k : Nat) (t : Token) (expected found : String), (lex source)[k]? = some t →
      t.unexpectedReport expected found ∈ reports →
      (∀ source', BeginsLike source (k + 1) source' → ∀ p, parse source' ≠ .ok p) ∧
        ∃ source' p, BeginsLike source k source' ∧ parse source' = .ok p) ∧
    ∀ d ∈ reports, d.kind = .grammar →
      (∃ t ∈ lex source, ∃ expected found, d = t.unexpectedReport expected found) ∨
      ∃ taken, lex source = taken ++ (program (.ofSource source)).2.tokens ∧
        (∃ t ∈ taken, d.span = some t.span) ∧
        ((∃ name : String, d.text = s!"field '{name}' cannot have type void") ∨
          ∃ digits : String, d.text = s!"integer literal {digits} is out of range") := by
  obtain ⟨us, s', e, hread, hpasses, rfl, hblames⟩ := exists_blames_of_parse h
  have htakes := hpasses.takes (TokenStream.ended_ofSource source).1
  have hsplit : lex source = us ++ s'.tokens :=
    (TokenStream.tokens_ofSource source).symm.trans htakes.tokens
  constructor
  · intro _ t expected found ht hd
    have hreport := eq_diagnostic_of_mem hd rfl
    obtain ⟨htext, hspan⟩ : s!"expected {expected}, found {found}" = e.value.message ∧
        t.span = e.span :=
      ⟨congrArg Diagnostic.text hreport, Option.some.inj (congrArg Diagnostic.span hreport)⟩
    obtain ⟨x, u, hunexpected⟩ := eq_unexpected_of_message htext.symm
    cases hblames with
    | other hfault => exact absurd hunexpected (hfault x u)
    | unexpected hviable =>
      have hcurrent : (lex source)[us.length]? = some s'.current := by
        rw [hsplit, getElem?_append_right (Nat.le_refl _), Nat.sub_self]
        rfl
      obtain rfl := index_eq_of_span ht hcurrent hspan
      exact ⟨fun source' => parse_ne_ok_of_beginsLike hread htakes,
        exists_beginsLike_of_viable hsplit hpasses.proper hviable⟩
  · intro _ hd hkind
    obtain rfl := eq_diagnostic_of_mem hd hkind
    cases hblames with
    | @unexpected x hviable =>
      refine .inl ⟨s'.current, ?_, x.describe, s'.current.describe, rfl⟩
      rw [hsplit]
      exact mem_append_right us mem_cons_self
    | @other fault span hfault hspan =>
      refine .inr ⟨us, by rw [hread]; exact hsplit, ?_, ?_⟩
      · obtain ⟨t, ht, rfl⟩ := hspan.resolve_left id
        exact ⟨t, ht, rfl⟩
      · cases fault with
        | unexpected x t => exact absurd rfl (hfault x t)
        | voidField name => exact .inl ⟨name, rfl⟩
        | literalOutOfRange digits => exact .inr ⟨digits, rfl⟩

/-- A sum without its second operand. -/
def missingOperand : String := "class A\x7bint f()\x7breturn 1+;\x7d\x7d"

set_option maxRecDepth 4000 in
theorem parse_missingOperand :
    ∃ t, (lex missingOperand)[11]? = some t ∧
      parse missingOperand = .error [t.unexpectedReport "expression" "';'"] := by
  rw [parse, TokenStream.ofSource, lex_eq_tokensWithin]
  exact ⟨_, rfl, rfl⟩

theorem unexpected_token_first_missingOperand :
    (∀ source', BeginsLike missingOperand 12 source' → ∀ p, parse source' ≠ .ok p) ∧
      ∃ source' p, BeginsLike missingOperand 11 source' ∧ parse source' = .ok p := by
  obtain ⟨t, ht, hparse⟩ := parse_missingOperand
  exact (unexpected_token_first hparse).1 11 t _ _ ht mem_cons_self

end MiniJava
