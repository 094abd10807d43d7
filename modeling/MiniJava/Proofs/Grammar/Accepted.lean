import MiniJava.Proofs.Grammar.Bodies
import MiniJava.Proofs.Grammar.Owners
import MiniJava.Proofs.Grammar.Reading
import MiniJava.Proofs.Token.Tokens

/-!
# The sources that are accepted

A source without invalid tokens is parsed if and only if its tokens form a program, and the program
is the one tree, but for the ranges, that the grammar gives them: the levels of `FormsExpr` leave
one way to group operators, and `Program.ElseBound` one `if` for every `else`
(`parse_iff_formsProgram`).

One half is `sound_program`, the other `reads_program`.
-/

namespace MiniJava

open Grammar

/-- The program is a tree of the source in which every `else` belongs to the nearest open `if`. -/
structure Program.IsTreeOf (p : Program) (source : String) : Prop where
  forms : FormsProgram (terminalsOf source) p
  elseBound : p.ElseBound

/-! ## Ranges and the nearest `if` -/

theorem Stmt.endsOpen_bare (a : Stmt) : a.bare.EndsOpen ↔ a.EndsOpen := by
  cases a with
  | ifThenElse _ _ _ elseBranch => exact endsOpen_bare elseBranch
  | loop _ _ body => exact endsOpen_bare body
  | _ => exact Iff.rfl

mutual

theorem Stmt.elseBound_bare (a : Stmt) : a.bare.ElseBound ↔ a.ElseBound := by
  cases a with
  | block _ body => exact Stmt.allElseBound_bareOf body
  | ifThen _ _ thenBranch => exact Stmt.elseBound_bare thenBranch
  | ifThenElse _ _ thenBranch elseBranch =>
    exact and_congr (not_congr thenBranch.endsOpen_bare)
      (and_congr (Stmt.elseBound_bare thenBranch) (Stmt.elseBound_bare elseBranch))
  | loop _ _ body => exact Stmt.elseBound_bare body
  | _ => exact Iff.rfl

theorem Stmt.allElseBound_bareOf (as : List Stmt) :
    Stmt.AllElseBound (Stmt.bareOf as) ↔ Stmt.AllElseBound as := by
  cases as with
  | nil => exact Iff.rfl
  | cons a as => exact and_congr (Stmt.elseBound_bare a) (Stmt.allElseBound_bareOf as)

end

theorem Program.elseBound_bare (p : Program) : p.bare.ElseBound ↔ p.ElseBound := by
  simp only [Program.ElseBound, Program.bare, ClassDecl.bare, MethodDecl.bare, List.forall_mem_map,
    Stmt.allElseBound_bareOf]

/-! ## Parsing a source -/

variable {source : String} {p q : Program}

section

variable (hvalid : ∀ t ∈ lex source, t.diagnostic? = none)
include hvalid

theorem TokenStream.at_ofSource : (TokenStream.ofSource source).At (terminalsOf source) := by
  obtain ⟨hended, hterminals⟩ := TokenStream.ended_ofSource source
  refine ⟨hended, hterminals, ?_⟩
  unfold TokenStream.ofSource
  cases hlex : lex source with
  | nil => exact ⟨nofun, rfl⟩
  | cons token _ =>
    rw [hlex] at hvalid
    obtain ⟨hfirst, hrest⟩ := List.forall_mem_cons.mp hvalid
    refine ⟨hrest, ?_⟩
    show token.diagnostic?.toList = []
    rw [hfirst]
    rfl

/-- A source is parsed as any tree of it, but for the ranges. -/
theorem exists_parse_of_isTreeOf (h : q.IsTreeOf source) :
    ∃ p, parse source = .ok p ∧ p.bare = q.bare := by
  obtain ⟨p, s, hread, hbare, hs⟩ := reads_program h.forms h.elseBound
    (TokenStream.at_ofSource hvalid)
  exact ⟨p, parse_eq_ok.mpr ⟨s, hread, hs.quiet.pending⟩, hbare⟩

theorem bare_eq_of_isTreeOf (h : parse source = .ok p) (hq : q.IsTreeOf source) :
    q.bare = p.bare := by
  obtain ⟨_, hparse, hbare⟩ := exists_parse_of_isTreeOf hvalid hq
  obtain rfl := Except.ok.inj (hparse.symm.trans h)
  exact hbare.symm

theorem isTreeOf_of_parse (h : parse source = .ok p) : p.IsTreeOf source := by
  have hforms := formsProgram_of_parse h
  obtain ⟨q, hq, hbound⟩ := exists_elseBound_program hforms
  refine ⟨hforms, ?_⟩
  rw [← p.elseBound_bare, ← bare_eq_of_isTreeOf hvalid h ⟨hq, hbound⟩, q.elseBound_bare]
  exact hbound

end

/-- The tokens decide whether a source is accepted, and which tree it has. -/
theorem parse_iff_formsProgram (hvalid : ∀ t ∈ lex source, t.diagnostic? = none) :
    ((∃ p, parse source = .ok p) ↔ ∃ p, FormsProgram (terminalsOf source) p) ∧
      ∀ p, parse source = .ok p →
        p.IsTreeOf source ∧ p.MembersOwned ∧ ∀ q : Program, q.IsTreeOf source →
          q.bare = p.bare := by
  refine ⟨⟨?_, ?_⟩, ?_⟩
  · rintro ⟨p, h⟩
    exact ⟨p, formsProgram_of_parse h⟩
  · rintro ⟨q, hq⟩
    obtain ⟨_, hforms, hbound⟩ := exists_elseBound_program hq
    obtain ⟨p, hparse, -⟩ := exists_parse_of_isTreeOf hvalid ⟨hforms, hbound⟩
    exact ⟨p, hparse⟩
  · intro p h
    exact ⟨isTreeOf_of_parse hvalid h, membersOwned_of_parse h,
      fun q => bare_eq_of_isTreeOf hvalid h⟩

/-- Operators of several levels, and an `else` behind two `if`s. -/
def nestingSource : String :=
  "class A\x7bstatic int f(int n)\x7bif(n<2||n-1-1==n*2)if(!(n<3))return n-(1-n);else n=007;" ++
    "return-n;\x7d\x7d"

/-- A field that is `void`. -/
def voidFieldSource : String := "class A\x7bvoid x;\x7d"

set_option maxRecDepth 4000 in
theorem parse_nestingSource :
    (∀ t ∈ lex nestingSource, t.diagnostic? = none) ∧ ∃ p, parse nestingSource = .ok p := by
  rw [parse, TokenStream.ofSource, lex_eq_tokensWithin]
  exact ⟨by decide, _, rfl⟩

theorem parse_voidFieldSource :
    (∀ t ∈ lex voidFieldSource, t.diagnostic? = none) ∧ ¬ ∃ p, parse voidFieldSource = .ok p := by
  rw [parse, TokenStream.ofSource, lex_eq_tokensWithin]
  exact ⟨by decide, nofun⟩

theorem parse_iff_formsProgram_sources :
    (∃ p, parse nestingSource = .ok p ∧ p.IsTreeOf nestingSource) ∧
      ¬ ∃ p, FormsProgram (terminalsOf voidFieldSource) p := by
  constructor
  · obtain ⟨hvalid, p, hparse⟩ := parse_nestingSource
    exact ⟨p, hparse, ((parse_iff_formsProgram hvalid).2 p hparse).1⟩
  · obtain ⟨hvalid, hrejected⟩ := parse_voidFieldSource
    exact fun hforms => hrejected ((parse_iff_formsProgram hvalid).1.mpr hforms)

end MiniJava
