import MiniJava.Proofs.Grammar.Accepted

/-!
# Invalid tokens end the reading

A reader of a source can be asked for expressions, for programs and for the reports on invalid
tokens, in any order and any number of times. No parser takes an invalid token
(`TokenStream.Passes`), so the first one of the source is the last token that the reader ever sees:
it stays current, whoever asks for a tree is refused, and there is one report at most
(`invalid_token_stops`).

The invariant is `Reads`: all tokens in front of the current one are lexemes, and what was reported
is the report on the current token.
-/

namespace MiniJava

open Grammar List

/-! ## Requests -/

/-- What a reader of a source can be asked for. -/
inductive Request
  | expr
  | program
  /-- The reports collected so far. -/
  | reports

/-- What a reader answers. -/
inductive Answer
  | expr (result : Except (Located GrammarFault) Expr)
  | program (result : Except (Located GrammarFault) Program)
  | reports (handed : List Diagnostic)

namespace Answer

/-- The reports that are handed over. -/
def handed : Answer → List Diagnostic
  | .reports handed => handed
  | .expr _ | .program _ => []

/-- No tree is given: this token stands where it cannot. -/
def Refuses (t : Token) : Answer → Prop
  | .expr result => ∃ expected, result = .error ⟨.unexpected expected t, t.span⟩
  | .program result => ∃ expected, result = .error ⟨.unexpected expected t, t.span⟩
  | .reports _ => True

end Answer

namespace TokenStream

/-- The answer to a request, and where the stream stands then. -/
def answer (s : TokenStream) : Request → Answer × TokenStream
  | .expr => (.expr (Grammar.expr s).1, (Grammar.expr s).2)
  | .program => (.program (Grammar.program s).1, (Grammar.program s).2)
  | .reports => (.reports s.takePending.1, s.takePending.2)

/-- The answers to requests, one after the other. -/
def serve (s : TokenStream) : List Request → List Answer × TokenStream
  | [] => ([], s)
  | request :: requests =>
    let later := (s.answer request).2.serve requests
    ((s.answer request).1 :: later.1, later.2)

theorem serve_nil (s : TokenStream) : s.serve [] = ([], s) := rfl

theorem serve_cons (s : TokenStream) (request : Request) (requests : List Request) :
    s.serve (request :: requests) =
      ((s.answer request).1 :: ((s.answer request).2.serve requests).1,
        ((s.answer request).2.serve requests).2) := rfl

/-! ## In front of an invalid token -/

/-- The stream has come to its end: no request for a tree is met any more, and none moves it. -/
structure Stopped (s : TokenStream) : Prop where
  refuses : ∀ later, ∀ answer ∈ (s.serve later).1, answer.Refuses s.current
  stays : ∀ later, (s.serve later).2 = s ∨ (s.serve later).2 = { s with pending := [] }
  unchanged : ∀ later, .reports ∉ later → (s.serve later).2 = s

variable {s s' : TokenStream} {fault : ScanFault}

theorem expr_of_invalid (h : s.current.kind = .invalid fault) :
    Grammar.expr s = (.error ⟨.unexpected .expression s.current, s.current.span⟩, s) := by
  -- No level of operators finds anything to begin with.
  have hprimary (n : Nat) : primary (exprWithin n) n s =
      (.error ⟨.unexpected .expression s.current, s.current.span⟩, s) := by
    unfold primary
    rw [Parser.bind_here, Parser.bind_peek, h]
    rfl
  have hunary (n : Nat) : unary (primary (exprWithin n) n) n s =
      (.error ⟨.unexpected .expression s.current, s.current.span⟩, s) := by
    cases n with
    | zero => exact hprimary 0
    | succ n =>
      unfold unary
      rw [Parser.bind_peek, h]
      exact hprimary (n + 1)
  have hbinary (n : Nat) (levels : List (List (Symbol × BinaryOp))) :
      binary (unary (primary (exprWithin n) n) n) n levels s =
        (.error ⟨.unexpected .expression s.current, s.current.span⟩, s) := by
    induction levels with
    | nil => exact hunary n
    | cons _ _ ih => exact Parser.bind_apply_error ih
  exact hbinary s.upcoming.length precedence

theorem program_of_invalid (h : s.current.kind = .invalid fault) :
    Grammar.program s =
      (.error ⟨.unexpected (.token (.keyword .classKw)) s.current, s.current.span⟩, s) := by
  have hclass (n : Nat) : classDecl n s =
      (.error ⟨.unexpected (.token (.keyword .classKw)) s.current, s.current.span⟩, s) := by
    refine Parser.bind_apply_error ?_
    unfold Parser.expect
    rw [Parser.bind_peek, h]
    rfl
  have hclasses (n : Nat) : classes (n + 1) s =
      (.error ⟨.unexpected (.token (.keyword .classKw)) s.current, s.current.span⟩, s) := by
    unfold classes
    rw [Parser.bind_peek, h]
    exact Parser.bind_apply_error (hclass n)
  exact Parser.bind_apply_error (hclasses s.upcoming.length)

theorem answer_of_invalid (h : s.current.kind = .invalid fault) (request : Request) :
    (s.answer request).1.Refuses s.current ∧
      ((s.answer request).2 = s ∨
        request = .reports ∧ (s.answer request).2 = { s with pending := [] }) := by
  cases request with
  | expr =>
    unfold answer
    rw [expr_of_invalid h]
    exact ⟨⟨_, rfl⟩, .inl rfl⟩
  | program =>
    unfold answer
    rw [program_of_invalid h]
    exact ⟨⟨_, rfl⟩, .inl rfl⟩
  | reports => exact ⟨trivial, .inr ⟨rfl, rfl⟩⟩

/-- The stream has come to its end at an invalid token. -/
theorem stopped_of_invalid (h : s.current.kind = .invalid fault) : s.Stopped := by
  have hserve : ∀ (later : List Request) (s : TokenStream), s.current.kind = .invalid fault →
      (∀ answer ∈ (s.serve later).1, answer.Refuses s.current) ∧
      ((s.serve later).2 = s ∨ (s.serve later).2 = { s with pending := [] }) ∧
      (.reports ∉ later → (s.serve later).2 = s) := by
    intro later
    induction later with
    | nil =>
      intro s _
      rw [serve_nil]
      exact ⟨forall_mem_nil _, .inl rfl, fun _ => rfl⟩
    | cons request _ ih =>
      intro s h
      obtain ⟨hrefuses, hsame⟩ := answer_of_invalid h request
      rcases hsame with hsame | ⟨hreports, hsame⟩
      · obtain ⟨hothers, hstays, hunchanged⟩ := ih s h
        rw [serve_cons, hsame]
        exact ⟨forall_mem_cons.mpr ⟨hrefuses, hothers⟩, hstays,
          fun hnone => hunchanged fun hmem => hnone (mem_cons_of_mem _ hmem)⟩
      · -- Once the reports are handed over, there are none to be handed over again.
        obtain ⟨hothers, hstays, -⟩ := ih { s with pending := [] } h
        rw [serve_cons, hsame]
        refine ⟨forall_mem_cons.mpr ⟨hrefuses, hothers⟩, .inr (hstays.elim id id), ?_⟩
        exact fun hnone => absurd (hreports ▸ mem_cons_self) hnone
  exact ⟨fun later => (hserve later s h).1, fun later => (hserve later s h).2.1,
    fun later => (hserve later s h).2.2⟩

end TokenStream

/-! ## All requests -/

theorem Token.diagnostic?_eq_none {t : Token} (h : t.kind.Proper) : t.diagnostic? = none := by
  unfold diagnostic?
  cases hkind : t.kind with
  | invalid _ =>
    rw [hkind] at h
    exact h.elim
  | _ => rfl

/-- A token with a report is invalid, and the report comes from the scanner or from the input. -/
theorem Token.invalid_of_diagnostic? {t : Token} {d : Diagnostic} (h : t.diagnostic? = some d) :
    (∃ fault, t.kind = .invalid fault) ∧ (d.kind = .scan ∨ d.kind = .io) := by
  unfold diagnostic? at h
  cases hkind : t.kind with
  | invalid fault =>
    rw [hkind] at h
    refine ⟨⟨fault, rfl⟩, ?_⟩
    cases fault <;> cases h <;> simp
  | _ =>
    rw [hkind] at h
    cases h

/-- The stream is a place in the source behind lexemes alone, and all reports ever made, those
handed over and those that wait, are the report on the current token. -/
structure Reads (source : String) (handed : List Diagnostic) (s : TokenStream) : Prop where
  taken : ∃ taken, lex source = taken ++ s.current :: s.upcoming ∧ ∀ t ∈ taken, t.kind.Proper
  reported : handed ++ s.pending = s.current.diagnostic?.toList

section

variable {source : String} {handed : List Diagnostic} {s s' : TokenStream} {us : List Token}

theorem reads_ofSource (source : String) : Reads source [] (TokenStream.ofSource source) := by
  obtain ⟨front, last, hsplit, -, -⟩ := (Scanner.ofSource source).exists_tokens
  have hsplit : lex source = front ++ [last] := hsplit
  unfold TokenStream.ofSource
  cases hlex : lex source with
  | nil => exact absurd (hlex.symm.trans hsplit) (by simp)
  | cons _ _ => exact ⟨⟨[], hlex, nofun⟩, rfl⟩

/-- Going on from a proper token keeps the stream on the source. -/
theorem Reads.next (h : Reads source handed s) (hproper : s.current.kind.Proper) :
    Reads source handed s.next := by
  obtain ⟨taken, htaken, hlexemes⟩ := h.taken
  have hreported := h.reported
  rw [Token.diagnostic?_eq_none hproper] at hreported
  obtain ⟨rfl, hpending⟩ := append_eq_nil_iff.mp hreported
  obtain ⟨current, upcoming, _, pending⟩ := s
  cases upcoming with
  | nil =>
    -- The last token is the end of the file, so it is not taken.
    obtain ⟨front, last, hsplit, hlast, -⟩ := (Scanner.ofSource source).exists_tokens
    have heq : taken ++ [current] = front ++ [last] := htaken.symm.trans hsplit
    obtain ⟨-, hcurrent⟩ := append_inj' heq rfl
    cases hcurrent
    have hproper : current.kind.Proper := hproper
    rw [hlast] at hproper
    exact hproper.elim
  | cons token =>
    refine ⟨⟨taken ++ [current], ?_, ?_⟩, ?_⟩
    · rw [htaken, append_assoc]
      rfl
    · intro t ht
      rcases mem_append.mp ht with ht | ht
      · exact hlexemes t ht
      · cases mem_singleton.mp ht
        exact hproper
    · show [] ++ (pending ++ token.diagnostic?.toList) = token.diagnostic?.toList
      rw [show pending = [] from hpending]
      rfl

theorem Reads.passes (h : Reads source handed s) (hpasses : s.Passes us s') :
    Reads source handed s' := by
  induction hpasses with
  | refl => exact h
  | next hproper _ ih => exact ih (h.next hproper)

theorem Reads.answer (h : Reads source handed s) (request : Request) :
    Reads source (handed ++ (s.answer request).1.handed) (s.answer request).2 := by
  cases request with
  | expr =>
    rw [TokenStream.answer, Answer.handed, append_nil]
    obtain ⟨_, hus, -⟩ := (prompt_expr (S := fun _ => False) (n := 0)).explains s
    exact h.passes hus
  | program =>
    rw [TokenStream.answer, Answer.handed, append_nil]
    obtain ⟨_, hus, -⟩ := (prompt_program (S := fun _ => False) (n := 0)).explains s
    exact h.passes hus
  | reports => exact ⟨h.taken, (append_nil _).trans h.reported⟩

theorem Reads.serve (h : Reads source handed s) (requests : List Request) :
    Reads source (handed ++ (s.serve requests).1.flatMap Answer.handed) (s.serve requests).2 := by
  induction requests generalizing handed s with
  | nil => rwa [TokenStream.serve_nil, flatMap_nil, append_nil]
  | cons request _ ih =>
    have hothers := ih (h.answer request)
    rw [append_assoc] at hothers
    rw [TokenStream.serve_cons, flatMap_cons]
    exact hothers

end

/-! ## Parsing a source -/

theorem valid_of_parse {source : String} {p : Program} (h : parse source = .ok p) :
    ∀ t ∈ lex source, t.diagnostic? = none := by
  obtain ⟨_, hread, -⟩ := parse_eq_ok.mp h
  obtain ⟨hlast, hupcoming⟩ := current_of_program (TokenStream.ended_ofSource source).1 hread
  have hreads := (reads_ofSource source).answer .program
  rw [TokenStream.answer, hread] at hreads
  obtain ⟨_, htaken, hlexemes⟩ := hreads.taken
  intro t ht
  rw [htaken, hupcoming] at ht
  rcases mem_append.mp ht with ht | ht
  · exact Token.diagnostic?_eq_none (hlexemes t ht)
  · cases mem_singleton.mp ht
    unfold Token.diagnostic?
    rw [hlast]

/-- What is reported when a source is not parsed, and why the parser gave up. -/
theorem exists_blames_of_parse {source : String} {reports : List Diagnostic}
    (h : parse source = .error reports) :
    ∃ us s' e, program (.ofSource source) = (.error e, s') ∧
      (TokenStream.ofSource source).Passes us s' ∧
      reports = s'.current.diagnostic?.toList ++ [GrammarFault.diagnostic e] ∧
      Parser.Blames (fun _ => False) (fun ts p => Many FormsClass ts (Program.classes p)) us s'
        e := by
  have hended := (TokenStream.ended_ofSource source).1
  obtain ⟨us, hus, haccounts⟩ := prompt_program.explains (S := fun _ => False) (.ofSource source)
  have hreads := (reads_ofSource source).passes hus
  unfold parse at h
  rcases hread : program (TokenStream.ofSource source) with ⟨e | p, s'⟩ <;>
    rw [hread] at h hus haccounts hreads
  · cases h
    refine ⟨us, s', e, rfl, hus, ?_, haccounts hended (Nat.le_refl _)⟩
    rw [← hreads.reported]
    rfl
  · -- A program that was read leaves no report behind.
    have hlast := (current_of_program hended hread).1
    have hpending : s'.pending = s'.current.diagnostic?.toList := hreads.reported
    rw [Token.diagnostic?, hlast] at hpending
    dsimp only at h
    rw [hpending] at h
    cases h

/-- What is reported when a source is not parsed: the fault of the grammar, and in front of it the
report on the token there, if that is the first invalid one. -/
theorem reports_of_parse {source : String} {reports : List Diagnostic}
    (h : parse source = .error reports) :
    ∃ fault : Located GrammarFault, reports = [GrammarFault.diagnostic fault] ∨
      ∃ front t behind d, lex source = front ++ t :: behind ∧ (∀ u ∈ front, u.diagnostic? = none) ∧
        t.diagnostic? = some d ∧ reports = [d, GrammarFault.diagnostic fault] := by
  obtain ⟨_, s', e, -, hus, rfl, -⟩ := exists_blames_of_parse h
  refine ⟨e, ?_⟩
  cases hd : s'.current.diagnostic? with
  | none => exact .inl rfl
  | some d =>
    obtain ⟨taken, htaken, hlexemes⟩ := ((reads_ofSource source).passes hus).taken
    exact .inr ⟨taken, s'.current, s'.upcoming, d, htaken,
      fun u hu => Token.diagnostic?_eq_none (hlexemes u hu), hd, rfl⟩

/-- Whatever is asked for, no invalid token is taken, at most one report is made, and the reader
stops in front of the first invalid token. So a source is parsed only if it has no invalid token;
otherwise there is one fault of the grammar, with at most the report on the first invalid token in
front. -/
theorem invalid_token_stops (source : String) :
    (∀ requests answers s, (TokenStream.ofSource source).serve requests = (answers, s) →
      (∃ taken, lex source = taken ++ s.current :: s.upcoming ∧ ∀ t ∈ taken, t.diagnostic? = none) ∧
      (answers.flatMap Answer.handed ++ s.pending).length ≤ 1 ∧
      (∀ fault, s.current.kind = .invalid fault → s.Stopped)) ∧
    (∀ p, parse source = .ok p → ∀ t ∈ lex source, t.diagnostic? = none) ∧
    (∀ reports, parse source = .error reports →
      ∃ fault : Located GrammarFault, reports = [GrammarFault.diagnostic fault] ∨
        ∃ front t behind d, lex source = front ++ t :: behind ∧
          (∀ u ∈ front, u.diagnostic? = none) ∧ t.diagnostic? = some d ∧
          (d.kind = .scan ∨ d.kind = .io) ∧ reports = [d, GrammarFault.diagnostic fault]) := by
  refine ⟨?_, fun p => valid_of_parse, ?_⟩
  · intro requests _ s hserve
    have hreads := (reads_ofSource source).serve requests
    rw [hserve, nil_append] at hreads
    obtain ⟨taken, htaken, hlexemes⟩ := hreads.taken
    refine ⟨⟨taken, htaken, fun t ht => Token.diagnostic?_eq_none (hlexemes t ht)⟩, ?_, ?_⟩
    · rw [hreads.reported]
      cases s.current.diagnostic? <;> simp
    · exact fun fault => TokenStream.stopped_of_invalid
  · intro _ h
    obtain ⟨fault, hone | ⟨front, t, behind, d, hlex, hfront, ht, htwo⟩⟩ := reports_of_parse h
    · exact ⟨fault, .inl hone⟩
    · exact ⟨fault, .inr ⟨front, t, behind, d, hlex, hfront, ht,
        (Token.invalid_of_diagnostic? ht).2, htwo⟩⟩

end MiniJava
