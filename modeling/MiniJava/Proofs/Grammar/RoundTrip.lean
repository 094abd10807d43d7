import MiniJava.Proofs.Grammar.Accepted
import MiniJava.Proofs.Grammar.Parentheses
import MiniJava.Proofs.Token.Gaps

/-!
# Parsing undoes printing

What is printed for a parsed program is parsed as the same program, but for the ranges. So the text
that is printed decides the program. Nothing in a source that the printer leaves out has a say in
it: layout can be changed, and redundant parentheses can be dropped from every source
(`parse_print`).

The printer works on the grammar's side (`spelled_program`), as does dropping parentheses
(`formsProgram_of_drops`). The scanner gives the printed terminals back (`terminalsOf_textOf`), so
the rest is that the grammar decides the tree (`bare_eq_of_isTreeOf`).
-/

namespace MiniJava

open Grammar List

/-! ## Ranges do not matter for what is printed -/

@[simp]
theorem Ref.spell_bare (r : Ref) : r.bare.spell = r.spell := by
  induction r with
  | member _ _ _ ih => rw [Ref.bare, Ref.spell, ih]; rfl
  | _ => rfl

theorem Expr.grouped_bare (k : Nat) (e : Expr) (core : List Terminal) :
    e.bare.grouped k core = e.grouped k core := by
  rw [Expr.grouped, Expr.grouped, Expr.level_bare]

mutual

theorem Expr.core_bare (e : Expr) : e.bare.core = e.core := by
  cases e with
  | literal => rfl
  | unary _ _ operand =>
    simp only [Expr.bare, Expr.core, Expr.grouped_bare, Expr.core_bare operand]
  | binary _ _ left right =>
    simp only [Expr.bare, Expr.core, Expr.grouped_bare, Expr.core_bare left, Expr.core_bare right]
  | ref => simp only [Expr.bare, Expr.core, Ref.spell_bare]
  | index _ _ position =>
    simp only [Expr.bare, Expr.core, Ref.spell_bare, Expr.grouped_bare, Expr.core_bare position]
  | call _ _ args => simp only [Expr.bare, Expr.core, Ref.spell_bare, Expr.spellAll_bare args]
  | newObject => rfl
  | newArray _ _ size =>
    simp only [Expr.bare, Expr.core, Expr.grouped_bare, Expr.core_bare size, Located.bare]

theorem Expr.spellAll_bare (es : List Expr) :
    Expr.spellAll (Expr.bareOf es) = Expr.spellAll es := by
  cases es with
  | nil => rfl
  | cons e es =>
    simp only [Expr.bareOf, Expr.spellAll, Expr.grouped_bare, Expr.core_bare e,
      Expr.spellAll_bare es]

end

theorem Expr.spell_bare (k : Nat) (e : Expr) :
    e.bare.spell k = e.spell k := by
  rw [Expr.spell, Expr.spell, Expr.grouped_bare, Expr.core_bare]

mutual

theorem Stmt.spell_bare (a : Stmt) : a.bare.spell = a.spell := by
  cases a with
  | block _ body => simp only [Stmt.bare, Stmt.spell, Stmt.spellAll_bare body]
  | declare => simp only [Stmt.bare, Stmt.spell, Located.bare, Expr.spell_bare]
  | assign => simp only [Stmt.bare, Stmt.spell, Ref.spell_bare, Expr.spell_bare]
  | assignIndex =>
    simp only [Stmt.bare, Stmt.spell, Ref.spell_bare, Expr.spell_bare]
  | call => simp only [Stmt.bare, Stmt.spell, Ref.spell_bare, Expr.spellAll_bare]
  | ret _ value =>
    cases value with
    | none => rfl
    | some => simp only [Stmt.bare, Option.map_some, Stmt.spell, Expr.spell_bare]
  | ifThen _ _ thenBranch =>
    simp only [Stmt.bare, Stmt.spell, Expr.spell_bare, Stmt.spell_bare thenBranch]
  | ifThenElse _ _ thenBranch elseBranch =>
    simp only [Stmt.bare, Stmt.spell, Expr.spell_bare, Stmt.spell_bare thenBranch,
      Stmt.spell_bare elseBranch]
  | loop _ _ body => simp only [Stmt.bare, Stmt.spell, Expr.spell_bare, Stmt.spell_bare body]

theorem Stmt.spellAll_bare (as : List Stmt) :
    Stmt.spellAll (Stmt.bareOf as) = Stmt.spellAll as := by
  cases as with
  | nil => rfl
  | cons a as => simp only [Stmt.bareOf, Stmt.spellAll, Stmt.spell_bare a, Stmt.spellAll_bare as]

end

theorem MethodDecl.spell_bare (m : MethodDecl) :
    m.bare.spell = m.spell := by
  have hparams : (m.params.map Param.bare).map Param.spell = m.params.map Param.spell := by
    rw [map_map]
    rfl
  simp only [MethodDecl.spell, MethodDecl.bare, Located.bare, hparams, Stmt.spellAll_bare]

theorem ClassDecl.spell_bare (c : ClassDecl) : c.bare.spell = c.spell := by
  have hfields : (c.fields.map FieldDecl.bare).flatMap FieldDecl.spell =
      c.fields.flatMap FieldDecl.spell := by
    rw [flatMap_map]
    rfl
  simp only [ClassDecl.spell, ClassDecl.bare, Located.bare, hfields, flatMap_map,
    MethodDecl.spell_bare]

theorem Program.print_bare (p : Program) : p.bare.print = p.print := by
  simp only [Program.print, Program.spell, Program.bare, flatMap_map, ClassDecl.spell_bare]

/-! ## The text of terminals -/

theorem Terminal.terminal_kind {t : Terminal} (h : t.Lexical) : t.kind.terminal t.text = t := by
  cases t with
  | invalid => cases h
  | _ => rfl

/-- The scanner gives back the terminals that are written. -/
theorem lex_textOf {ts : List Terminal} (h : ∀ t ∈ ts, t.Lexical) :
    (lex (textOf ts)).map (fun t => (t.kind, t.text)) =
      ts.map (fun t => (t.kind, t.text)) ++ [(.endOfFile, "")] := by
  have hlexemes : ∀ l ∈ ts.map (fun t => (t.kind, t.text.toList)), IsLexeme l.1 l.2 :=
    forall_mem_map.mpr h
  have htokens := Scanner.tokens_spaced hlexemes (s := Scanner.ofSource (textOf ts))
    (String.toList_ofList)
  rw [map_map] at htokens
  refine Eq.trans htokens ?_
  congr 1
  exact map_congr_left fun t _ => Prod.ext rfl String.ofList_toList

theorem terminalsOf_textOf {ts : List Terminal} (h : ∀ t ∈ ts, t.Lexical) :
    terminalsOf (textOf ts) = ts ++ [.endOfFile] := by
  have hmap := congrArg (List.map fun x : TokenKind × String => x.1.terminal x.2) (lex_textOf h)
  rw [map_map, map_append, map_map] at hmap
  refine Eq.trans hmap (congrArg (· ++ _) ?_)
  exact (map_congr_left fun t ht => Terminal.terminal_kind (h t ht)).trans (map_id ts)

variable {source : String} {p : Program}

theorem Token.lexical_terminal {t : Token} (h : IsLexeme t.kind t.text.toList) :
    t.terminal.Lexical := by
  obtain ⟨kind, _, _⟩ := t
  cases kind with
  | keyword k => exact .keyword k
  | symbol s => exact .symbol s
  | number | identifier => exact h
  | endOfFile | invalid fault => cases h

/-- The tokens of a program are valid, and can be written. -/
theorem valid_of_respells {us vs : List Terminal}
    (hus : terminalsOf source = us ++ [.endOfFile]) (h : Respells us vs) :
    (∀ t ∈ lex source, t.diagnostic? = none) ∧ ∀ t ∈ us, t.Lexical := by
  have hvalid : ∀ t ∈ lex source, t.diagnostic? = none := by
    intro t ht
    -- An invalid token would be a terminal that no rule of the grammar has.
    by_contra hinvalid
    have hterminal : t.terminal = .invalid := by
      unfold Token.diagnostic? at hinvalid
      unfold Token.terminal
      split at hinvalid
      next hkind => rw [hkind, TokenKind.terminal]
      next => exact absurd rfl hinvalid
    have hmem : Terminal.invalid ∈ us ++ [.endOfFile] := by
      rw [← hus, ← hterminal]
      exact mem_map_of_mem ht
    obtain hmem | hmem := mem_append.mp hmem
    · exact (h.proper _ hmem).1 rfl
    · cases mem_singleton.mp hmem
  refine ⟨hvalid, ?_⟩
  intro t ht
  have hmem : t ∈ terminalsOf source := by
    rw [hus]
    exact mem_append_left _ ht
  obtain ⟨token, htoken, rfl⟩ := mem_map.mp hmem
  have hmore : token.kind ≠ .endOfFile := fun hkind =>
    (h.proper _ ht).2 (Token.terminal_eq_endOfFile.mpr hkind)
  exact Token.lexical_terminal
    (Scanner.isLexeme_of_mem_tokens _ token htoken hmore (hvalid token htoken))

/-! ## The round trip -/

/-- The source is parsed as this program, but for the ranges. -/
def ParsesAs (source : String) (p : Program) : Prop := ∃ q, parse source = .ok q ∧ q.bare = p.bare

theorem parsesAs_of_isTreeOf {q : Program} (h : q.IsTreeOf source) : ParsesAs source q := by
  obtain ⟨-, _, hus, hrespells⟩ := spelled_program h.forms
  exact exists_parse_of_isTreeOf (valid_of_respells hus hrespells).1 h

theorem isTreeOf_of_parse_eq_ok (h : parse source = .ok p) : p.IsTreeOf source := by
  obtain ⟨-, _, hus, hrespells⟩ := spelled_program (formsProgram_of_parse h)
  exact isTreeOf_of_parse (valid_of_respells hus hrespells).1 h

/-- The scanner gives back what is printed for a parsed program. -/
theorem terminalsOf_print (h : parse source = .ok p) :
    terminalsOf p.print = p.spell ++ [.endOfFile] := by
  obtain ⟨-, _, hus, hrespells⟩ := spelled_program (formsProgram_of_parse h)
  exact terminalsOf_textOf (hrespells.lexical (valid_of_respells hus hrespells).2)

/-- A parsed program is a tree of what is printed for it. -/
theorem isTreeOf_print (h : parse source = .ok p) : p.IsTreeOf p.print := by
  refine ⟨?_, (isTreeOf_of_parse_eq_ok h).elseBound⟩
  rw [terminalsOf_print h]
  exact (spelled_program (formsProgram_of_parse h)).1

/-- Terminals of a program have no fewer parentheses than what is printed for it. -/
theorem count_print_le (h : parse source = .ok p) {ts : List Terminal} (hts : FormsProgram ts p) :
    (terminalsOf p.print).count (.symbol .openParen) ≤ ts.count (.symbol .openParen) := by
  obtain ⟨-, _, rfl, hrespells⟩ := spelled_program hts
  rw [terminalsOf_print h, count_append, count_append]
  exact Nat.add_le_add_right hrespells.parens _

/-- No pair of parentheses that is printed is redundant. -/
theorem not_dropsPair_print (h : parse source = .ok p) (us : List Terminal) :
    ¬ DropsPair [] [] (terminalsOf p.print) us := by
  intro hd
  have hcount := count_print_le h (formsProgram_of_drops (isTreeOf_print h).forms hd)
  obtain ⟨_, _, _, _, hts, rfl, -⟩ := hd
  rw [hts] at hcount
  simp only [count_append, count_cons] at hcount
  simp at hcount

/-- Dropping redundant parentheses keeps the tree. -/
theorem Program.IsTreeOf.of_drops {source' : String} (h : p.IsTreeOf source)
    (hdrops : Relation.ReflTransGen (DropsPair [] []) (terminalsOf source) (terminalsOf source')) :
    p.IsTreeOf source' := by
  refine ⟨?_, h.elseBound⟩
  generalize terminalsOf source' = ts at hdrops
  induction hdrops with
  | refl => exact h.forms
  | tail _ hd ih => exact formsProgram_of_drops ih hd

theorem bare_eq_of_print_eq {source' : String} {q : Program} (h : parse source = .ok p)
    (hq : parse source' = .ok q) (hprint : q.print = p.print) : q.bare = p.bare := by
  obtain ⟨_, hp', hbare⟩ := parsesAs_of_isTreeOf (isTreeOf_print h)
  obtain ⟨_, hq', hbare'⟩ := parsesAs_of_isTreeOf (isTreeOf_print hq)
  have hsame : parse q.print = parse p.print := congrArg parse hprint
  obtain rfl := Except.ok.inj (hq'.symm.trans (hsame.trans hp'))
  exact hbare'.symm.trans hbare

/-- Parsing undoes printing. The text that is printed decides the program. It has as few parentheses
as possible, and none of them is redundant. From every source, redundant parentheses can be dropped,
one pair after the other, and layout can be changed. -/
theorem parse_print (h : parse source = .ok p) :
    ParsesAs p.print p ∧
      (∀ source' q, parse source' = .ok q → (q.print = p.print ↔ q.bare = p.bare)) ∧
      (∀ source' q, parse source' = .ok q → q.bare = p.bare →
        (terminalsOf p.print).count (.symbol .openParen) ≤
          (terminalsOf source').count (.symbol .openParen)) ∧
      (∀ us, ¬ DropsPair [] [] (terminalsOf p.print) us) ∧
      ∀ source', Relation.ReflTransGen (DropsPair [] []) (terminalsOf source)
        (terminalsOf source') → ParsesAs source' p := by
  refine ⟨parsesAs_of_isTreeOf (isTreeOf_print h), ?_, ?_, not_dropsPair_print h, ?_⟩
  · intro source' q hq
    refine ⟨bare_eq_of_print_eq h hq, fun hbare => ?_⟩
    rw [← q.print_bare, hbare, p.print_bare]
  · intro _ q hq hbare
    rw [← p.print_bare, ← hbare, q.print_bare]
    exact count_print_le hq (formsProgram_of_parse hq)
  · intro _ hdrops
    exact parsesAs_of_isTreeOf ((isTreeOf_of_parse_eq_ok h).of_drops hdrops)

/-- A source with layout of every kind, and more parentheses than it needs. -/
def looseSource : String :=
  "class A\x7bint f()\x7breturn /* ( */ (a-(b-(c)))\t*-(d); // )\n\x7d\x7d"

/-- The same source without them. -/
def tightSource : String := "class A\x7bint f()\x7breturn (a-(b-c))*-d;\x7d\x7d"

set_option maxRecDepth 4000 in
theorem exists_parse_looseSource : ∃ p, parse looseSource = .ok p := by
  rw [parse, TokenStream.ofSource, lex_eq_tokensWithin]
  exact ⟨_, rfl⟩

/-- The parentheses around `c` are dropped, and then those around `d`. -/
theorem drops_looseSource : Relation.ReflTransGen (DropsPair [] []) (terminalsOf looseSource)
    (terminalsOf tightSource) := by
  rw [terminalsOf, lex_eq_tokensWithin, terminalsOf, lex_eq_tokensWithin]
  let start : List Terminal := [.keyword .classKw, .identifier "A", .symbol .openBrace,
    .keyword .intKw, .identifier "f", .symbol .openParen, .symbol .closeParen, .symbol .openBrace,
    .keyword .returnKw, .symbol .openParen, .identifier "a", .symbol .minus, .symbol .openParen,
    .identifier "b", .symbol .minus]
  let middle : List Terminal :=
    [.symbol .closeParen, .symbol .closeParen, .symbol .times, .symbol .minus]
  let rest : List Terminal :=
    [.symbol .semicolon, .symbol .closeBrace, .symbol .closeBrace, .endOfFile]
  have hname (text : String) : FormsExpr 7 [.identifier text] _ :=
    .ref (@FormsRef.name Span.builtin _)
  have hfirst : DropsPair [] [] _ _ := ⟨start, [.identifier "c"],
    middle ++ .symbol .openParen :: .identifier "d" :: .symbol .closeParen ::
    rest, _, rfl, rfl, rfl, (hname "c").looser (by decide)⟩
  have hsecond : DropsPair [] [] _ _ :=
    ⟨start ++ .identifier "c" :: middle, [.identifier "d"], rest,
    _, rfl, rfl, rfl, (hname "d").looser (by decide)⟩
  exact (Relation.ReflTransGen.single hfirst).tail hsecond

theorem parse_print_looseSource :
    ∃ p, parse looseSource = .ok p ∧ ParsesAs p.print p ∧ ParsesAs tightSource p := by
  obtain ⟨p, hparse⟩ := exists_parse_looseSource
  obtain ⟨hprint, -, -, -, hdrops⟩ := parse_print hparse
  exact ⟨p, hparse, hprint, hdrops _ drops_looseSource⟩

end MiniJava
