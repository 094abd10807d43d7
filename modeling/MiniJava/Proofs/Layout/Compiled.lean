import MiniJava.Proofs.Grammar.Accepted
import MiniJava.Proofs.Grammar.Lookahead
import MiniJava.Proofs.Likeness.Builds
import MiniJava.Proofs.Token.Lexemes

/-!
# Layout does not count

Blanks and comments move the tokens of a source and change nothing else. What compilation makes of
two sources with the same tokens differs in places only (`compile_of_looks`).

The parser gives the same tree but for the ranges (`Grammar.tracks_program`), and the phases behind
it treat a tree like the one without ranges (`build_alike`). One report is about a place by its
wording: that on a character outside ASCII gives its byte offset. So there must be none of these.
-/

namespace MiniJava

open List

/-! ## What a token looks like -/

/-- What can be told of a token by its class and its text, where all invalid tokens are of one
class. -/
def Token.look (t : Token) : Option TokenKind × String :=
  match t.kind with
  | .invalid _ => (none, t.text)
  | kind => (some kind, t.text)

/-- Why a text that begins no lexeme is at fault. -/
def faultOf : List Char → ScanFault
  | '_' :: _ => .underscoreWord
  | '/' :: _ => .openComment
  | c :: _ => strayFault c
  | [] => .strayAscii

/-- The fault of an invalid text can be seen in the text. -/
theorem fault_lexeme {c : Char} {cs : List Char} {fault : ScanFault}
    (h : (lexeme c cs).kind = .invalid fault) : fault = faultOf (lexeme c cs).text := by
  have hfound := found_lexeme c cs
  generalize lexeme c cs = l at h hfound ⊢
  cases hfound with
  | word =>
    simp only [wordKind] at h
    split at h <;> cases h
  | number | symbol => cases h
  | underscoreWord hc | openComment hc =>
    subst hc
    cases h
    rfl
  | stray _ _ _ hsymbol =>
    have hslash : c ≠ '/' := by
      rintro rfl
      cases hsymbol
    cases h
    show strayFault c = faultOf [c]
    unfold faultOf
    split <;> simp_all

/-- The class and the text of a token that looks like this. -/
def faceOf : Option TokenKind × String → TokenKind × String
  | (some kind, text) => (kind, text)
  | (none, text) => (.invalid (faultOf text.toList), text)

/-- The tokens of a source are told apart by their looks. -/
theorem face_of_mem_lex {source : String} : ∀ t ∈ lex source, t.face = faceOf t.look := by
  refine Scanner.forall_mem_tokens (fun s => ?_) _
  unfold Scanner.scan
  split
  next => rfl
  next c cs _ =>
    unfold Token.look
    split
    next fault hfault =>
      have hkind : (lexeme c cs).kind = .invalid fault := hfault
      show ((lexeme c cs).kind, _) = (TokenKind.invalid (faultOf (String.ofList _).toList), _)
      rw [String.toList_ofList, ← fault_lexeme hkind, hkind]
    next => rfl

theorem map_face_of_looks {source source' : String}
    (h : (lex source).map Token.look = (lex source').map Token.look) :
    (lex source).map Token.face = (lex source').map Token.face := by
  rw [map_congr_left face_of_mem_lex, map_congr_left face_of_mem_lex]
  simpa [Function.comp_def] using congrArg (List.map faceOf) h

/-! ## Reports without places -/

/-- What a report says, but for its place. -/
def Diagnostic.wording (d : Diagnostic) : DiagnosticKind × String := (d.kind, d.message)

/-- The report on an invalid ASCII text says nothing of its place. -/
theorem wording_diagnostic? {t u : Token} (hface : t.face = u.face)
    (hascii : t.kind ≠ .invalid .strayUnicode) :
    t.diagnostic?.toList.map Diagnostic.wording = u.diagnostic?.toList.map Diagnostic.wording := by
  obtain ⟨kind, _, _⟩ := t
  obtain ⟨_, _, _⟩ := u
  obtain ⟨rfl, rfl⟩ := Token.face_eq_iff.mp hface
  cases kind with
  | invalid fault =>
    cases fault with
    | strayUnicode => exact absurd rfl hascii
    | _ => rfl
  | _ => rfl

/-! ## Streams -/

/-- Two streams that show the same tokens but for the places, and wait with the same reports. -/
structure Shadows (s t : TokenStream) : Prop where
  faces : (s.current :: s.upcoming).map Token.face = (t.current :: t.upcoming).map Token.face
  ascii : ∀ u ∈ s.upcoming, u.kind ≠ .invalid .strayUnicode
  pending : s.pending.map Diagnostic.wording = t.pending.map Diagnostic.wording

theorem Shadows.next {s t : TokenStream} (h : Shadows s t) : Shadows s.next t.next := by
  obtain ⟨_, upcoming, _, pending⟩ := s
  obtain ⟨_, upcoming', _, pending'⟩ := t
  obtain ⟨hfaces, hascii, hpending⟩ := h
  obtain ⟨_, hupcoming⟩ := cons.inj hfaces
  -- At the end a stream stands still. Before it, the next token is reported if it is invalid.
  cases upcoming with
  | nil =>
    obtain rfl : upcoming' = [] := map_eq_nil_iff.mp hupcoming.symm
    exact ⟨hfaces, hascii, hpending⟩
  | cons u =>
    cases upcoming' with
    | nil => cases hupcoming
    | cons u' =>
      obtain ⟨hu, husAscii⟩ := forall_mem_cons.mp hascii
      refine ⟨hupcoming, husAscii, ?_⟩
      show (pending ++ u.diagnostic?.toList).map _ = (pending' ++ u'.diagnostic?.toList).map _
      rw [map_append, map_append, hpending,
        wording_diagnostic? (cons.inj hupcoming).1 hu]

/-- Such streams go on together to their ends. -/
def shadowsPairing : Pairing where
  Pairs s t := Shadows s t ∧ s.Ended ∧ t.Ended
  rest := 0
  rest' := 0
  ended h := h.2
  face h := (cons.inj h.1.faces).1
  length h := by simpa using congrArg List.length (cons.inj h.1.faces).2
  next h hmore _ := by
    have hsame := (Token.face_eq_iff.mp (cons.inj h.1.faces).1).1
    exact ⟨h.1.next, (h.2.1.advances_next hmore).ended, (h.2.2.advances_next (hsame ▸ hmore)).ended⟩

theorem shadows_ofSource {source source' : String}
    (hfaces : (lex source).map Token.face = (lex source').map Token.face)
    (hascii : ∀ t ∈ lex source, t.kind ≠ .invalid .strayUnicode) :
    Shadows (.ofSource source) (.ofSource source') := by
  unfold TokenStream.ofSource
  cases hlex : lex source with
  | nil =>
    rw [hlex] at hfaces
    rw [map_eq_nil_iff.mp hfaces.symm]
    exact ⟨rfl, nofun, rfl⟩
  | cons _ _ =>
    cases hlex' : lex source' with
    | nil => rw [hlex, hlex'] at hfaces; cases hfaces
    | cons _ _ =>
      rw [hlex] at hascii
      rw [hlex, hlex'] at hfaces
      obtain ⟨ht, hts⟩ := forall_mem_cons.mp hascii
      exact ⟨hfaces, hts, wording_diagnostic? (cons.inj hfaces).1 ht⟩

/-! ## Compilation -/

/-- Lists of reports that say the same, one by one. -/
def SameWording (ds ds' : List Diagnostic) : Prop :=
  ds.map Diagnostic.wording = ds'.map Diagnostic.wording

/-- Both sources are read as the same tree but for the ranges, or neither is read and the reports
say the same. -/
theorem parse_of_shadows {source source' : String}
    (h : Shadows (.ofSource source) (.ofSource source')) :
    ResultLike SameWording (fun p q => p.bare = q.bare) (parse source) (parse source') := by
  have hpairs : shadowsPairing.Pairs (.ofSource source) (.ofSource source') :=
    ⟨h, (TokenStream.ended_ofSource source).1, (TokenStream.ended_ofSource source').1⟩
  obtain ⟨hout, hrest, -⟩ := Grammar.tracks_program.follows hpairs (Nat.lt_succ_self _)
    (Nat.lt_succ_self _) (Nat.zero_le _)
  unfold parse
  generalize Grammar.program (.ofSource source) = x at hout hrest
  generalize Grammar.program (.ofSource source') = y at hout hrest
  obtain ⟨e | _, s⟩ := x
  · obtain ⟨e' | _, _⟩ := y
    · refine .error ?_
      have hmessage : e.value.message = e'.value.message := Except.error.inj hout
      simp only [SameWording, map_append, hrest.pending, map_cons, map_nil,
        Diagnostic.wording, Diagnostic.message, GrammarFault.diagnostic, hmessage]
    · cases hout
  · obtain ⟨_ | _, s'⟩ := y
    · cases hout
    -- A program is accepted only if nothing has been reported on the way.
    · have hpending := hrest.pending
      cases hs : s.pending with
      | nil =>
        rw [hs] at hpending
        have hs' : s'.pending = [] := map_eq_nil_iff.mp hpending.symm
        simp only [hs, hs']
        exact .ok (Except.ok.inj hout)
      | cons _ _ =>
        cases hs' : s'.pending with
        | nil => rw [hs, hs'] at hpending; cases hpending
        | cons _ _ =>
          rw [hs, hs'] at hpending
          simp only [hs, hs']
          exact .error hpending

/-- Ranges do not count, and variables keep their names. -/
def Likeness.layout : Likeness := ⟨fun _ _ => True, True⟩

theorem sameWording_of_reportsAlike {ds ds' : List Diagnostic}
    (h : List.Forall₂ (ReportAlike .layout) ds ds') : SameWording ds ds' := by
  refine map_eq_map_of_forall₂ h fun d d' hd => ?_
  rw [Diagnostic.wording, Diagnostic.wording, Diagnostic.message, Diagnostic.message, hd.kind,
    hd.text trivial]

/-- What compilation makes of a program does not depend on its ranges. -/
theorem build_bare {p : Program} (howned : p.MembersOwned) :
    ResultLike SameWording Eq p.build p.bare.build :=
  (build_alike (programAlike_bare (fun _ _ => trivial) p) howned).mono
    (fun _ _ => sameWording_of_reportsAlike) fun _ _ h => h

theorem build_of_bare_eq {p q : Program} (hp : p.MembersOwned) (hq : q.MembersOwned)
    (h : p.bare = q.bare) : ResultLike SameWording Eq p.build q.build := by
  have hleft := build_bare hp
  have hright := build_bare hq
  rw [h] at hleft
  generalize p.build = x at hleft ⊢
  generalize q.build = y at hright ⊢
  generalize q.bare.build = middle at hleft hright
  cases hleft with
  | ok hleft =>
    cases hright with
    | ok hright => exact .ok (hleft.trans hright.symm)
  | error hleft =>
    cases hright with
    | error hright => exact .error (hleft.trans hright.symm)

/-- Sources whose tokens have the same classes and texts are compiled to the same image, or are
rejected with as many reports, which have the same kinds and wordings. -/
theorem compile_of_looks {source source' : String}
    (hlooks : (lex source).map Token.look = (lex source').map Token.look)
    (hascii : ∀ t ∈ lex source, t.kind ≠ .invalid .strayUnicode) :
    (∃ image, compile source = .ok image ∧ compile source' = .ok image) ∨
      ∃ reports reports', compile source = .error reports ∧ compile source' = .error reports' ∧
        List.Forall₂ (fun d d' => d.kind = d'.kind ∧ d.message = d'.message) reports reports' := by
  have hparse := parse_of_shadows (shadows_ofSource (map_face_of_looks hlooks) hascii)
  have hcompile : ResultLike SameWording Eq (compile source) (compile source') := by
    rw [compile_eq_build, compile_eq_build]
    refine hparse.attach.bind ?_
    rintro _ _ ⟨hp, hq, hbare⟩
    exact build_of_bare_eq (membersOwned_of_parse hp) (membersOwned_of_parse hq) hbare
  generalize compile source = x at hcompile
  generalize compile source' = y at hcompile
  cases hcompile with
  | ok himage =>
    subst himage
    exact .inl ⟨_, rfl, rfl⟩
  | error hwording =>
    refine .inr ⟨_, _, rfl, rfl, ?_⟩
    rw [SameWording, ← forall₂_eq_eq_eq, forall₂_map_left_iff,
      forall₂_map_right_iff] at hwording
    exact hwording.imp fun d d' h => Prod.mk.inj h

/-- Two layouts of one program that is ill-typed in two places. -/
def looseLayout : String :=
  "class A \x7b // numbers\n  int f() \x7b return true; \x7d /* no\n more */ " ++
    "boolean g(int n) \x7b return n; \x7d\n\x7d\n"

def tightLayout : String :=
  "class A\x7bint f()\x7breturn true;\x7dboolean g(int n)\x7breturn n;\x7d\x7d"

theorem compile_of_looks_layouts :
    (lex looseLayout).map Token.look = (lex tightLayout).map Token.look ∧
    (∀ t ∈ lex looseLayout, t.kind ≠ .invalid .strayUnicode) ∧
    ((∃ image, compile looseLayout = .ok image ∧ compile tightLayout = .ok image) ∨
      ∃ reports reports', compile looseLayout = .error reports ∧
        compile tightLayout = .error reports' ∧
        List.Forall₂ (fun d d' => d.kind = d'.kind ∧ d.message = d'.message) reports reports') := by
  have hlooks : (lex looseLayout).map Token.look = (lex tightLayout).map Token.look := by
    rw [lex_eq_tokensWithin, lex_eq_tokensWithin]
    decide +kernel
  have hascii : ∀ t ∈ lex looseLayout, t.kind ≠ .invalid .strayUnicode := by
    rw [lex_eq_tokensWithin]
    decide +kernel
  exact ⟨hlooks, hascii, compile_of_looks hlooks hascii⟩

end MiniJava
