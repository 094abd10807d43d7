import MiniJava.Proofs.Grammar.Completeness
import MiniJava.Proofs.Grammar.DanglingElse

/-!
# Statements, classes and programs are read

What the grammar of statements and classes allows is read, in front of every token that cannot
continue it.

A statement that ends with an open `if` would take an `else` behind it, and this is all that can
continue a statement (`StmtEnds`). So in front of an `else` the statement in a branch must not end
with an open `if`, and there `Stmt.ElseBound` is used.
-/

namespace MiniJava.Grammar

open MiniJava.Parser List

variable {n : Nat} {s : TokenStream} {rest : List Terminal}

/-! ## Types -/

variable {ts us vs : List Terminal} {type : Located Ty} {span : Span} {target : Ref} {name : Ident}
  {a : Stmt} {text : String} {init test : Expr}

theorem reads_arrayOrPlain_plain (start : Span) {element : Ty} (hs : s.At rest)
    (hnone : rest.head? ≠ some (.symbol .openBracket)) :
    Reads (arrayOrPlain start element) Located.bare s ⟨element, span⟩ rest :=
  reads_accept_of_ne (hs.kind_ne fun _ => hnone) (reads_pure rfl hs)

theorem reads_arrayOrPlain_array (start : Span) {element : Ty}
    (hs : s.At (.symbol .openBracket :: .symbol .closeBracket :: rest)) :
    Reads (arrayOrPlain start element) Located.bare s ⟨.array element, span⟩ rest := by
  refine reads_accept_of_eq hs.symbol (reads_expectSymbol (hs.next nofun) fun s₁ hs₁ => ?_)
  exact reads_spanFrom start fun _ => reads_pure rfl hs₁

theorem reads_type (h : FormsType ts type.value) (hs : s.At (ts ++ rest))
    (hnone : rest.head? ≠ some (.symbol .openBracket)) :
    Reads Grammar.type Located.bare s type rest := by
  obtain ⟨_, _⟩ := type
  refine reads_here ?_
  cases h with
  | int =>
    refine reads_peek hs.keyword (reads_advance ?_)
    exact reads_arrayOrPlain_plain _ (hs.next nofun) hnone
  | intArray =>
    refine reads_peek hs.keyword (reads_advance ?_)
    exact reads_arrayOrPlain_array _ (hs.next nofun)
  | boolean =>
    refine reads_peek hs.keyword (reads_advance ?_)
    exact reads_pure rfl (hs.next nofun)
  | object =>
    obtain ⟨hkind, htext⟩ := hs.identifier
    refine reads_peek hkind (reads_advance ?_)
    rw [htext]
    exact reads_arrayOrPlain_plain _ (hs.next nofun) hnone
  | objectArray =>
    obtain ⟨hkind, htext⟩ := hs.identifier
    refine reads_peek hkind (reads_advance ?_)
    rw [htext]
    exact reads_arrayOrPlain_array _ (hs.next nofun)

/-! ## Statements without statements inside -/

theorem reads_declaration (start : Span) {type' : Located Ty} (htype : type'.bare = type.bare)
    (h : FormsExpr 0 us init)
    (hs : s.At (.identifier name.value :: .symbol .assign :: us ++ .symbol .semicolon :: rest)) :
    Reads (declaration start type') Stmt.bare s (.declare span type name init) rest := by
  refine reads_ident hs fun _ s₁ hs₁ => reads_expectSymbol hs₁ fun s₂ hs₂ => ?_
  refine (reads_expr h .semicolon hs₂).bind fun init' s₃ hinit hs₃ => ?_
  refine reads_expectSymbol hs₃ fun s₄ hs₄ => reads_spanFrom start fun _ => ?_
  exact reads_pure (by rw [Stmt.bare, Stmt.bare, htype, hinit]; rfl) hs₄

theorem reads_elementAssignment (start : Span) {target' : Ref} {position value : Expr}
    (htarget : target'.bare = target.bare) (hposition : FormsExpr 0 us position)
    (hvalue : FormsExpr 0 vs value)
    (hs : s.At (us ++ .symbol .closeBracket :: .symbol .assign :: vs ++
      .symbol .semicolon :: rest)) :
    Reads (elementAssignment start target') Stmt.bare s (.assignIndex span target position value)
      rest := by
  have hs : s.At (us ++ .symbol .closeBracket ::
      (.symbol .assign :: vs ++ .symbol .semicolon :: rest)) := by
    simpa using hs
  refine (reads_expr hposition .bracket hs).bind fun position' s₁ hposition' hs₁ => ?_
  refine reads_expectSymbol hs₁ fun s₂ hs₂ => reads_expectSymbol hs₂ fun s₃ hs₃ => ?_
  refine (reads_expr hvalue .semicolon hs₃).bind fun value' s₄ hvalue' hs₄ => ?_
  refine reads_expectSymbol hs₄ fun s₅ hs₅ => reads_spanFrom start fun _ => ?_
  exact reads_pure (by simp [Stmt.bare, htarget, hposition', hvalue']) hs₅

/-- A statement that begins with a reference, seen from behind that reference. -/
inductive UsesRef (target : Ref) : Nonterminal Stmt
  | assign {us : List Terminal} {span : Span} {value : Expr} (hvalue : FormsExpr 0 us value) :
      UsesRef target (.symbol .assign :: us ++ [.symbol .semicolon]) (.assign span target value)
  | assignIndex {us vs : List Terminal} {span : Span} {position value : Expr}
      (hposition : FormsExpr 0 us position) (hvalue : FormsExpr 0 vs value) :
      UsesRef target (.symbol .openBracket :: us ++ .symbol .closeBracket ::
        .symbol .assign :: vs ++ [.symbol .semicolon]) (.assignIndex span target position value)
  | call {us : List Terminal} {span : Span} {args : List Expr}
      (hargs : us = [] ∧ args = [] ∨ Separated (FormsExpr 0) us args) :
      UsesRef target (.symbol .openParen :: us ++ [.symbol .closeParen, .symbol .semicolon])
        (.call span target args)

theorem UsesRef.head?_ne (h : UsesRef target us a) (rest : List Terminal) :
    (us ++ rest).head? ≠ some (.symbol .dot) ∧
      ∀ text, (us ++ rest).head? ≠ some (.identifier text) := by
  cases h <;> exact ⟨nofun, nofun⟩

theorem reads_referenceStmt (start : Span) {target' : Ref} (htarget : target'.bare = target.bare)
    (h : UsesRef target us a) (hs : s.At (us ++ rest)) (hlength : (us ++ rest).length ≤ n) :
    Reads (referenceStmt n start target') Stmt.bare s a rest := by
  cases h with
  | assign hvalue =>
    rename_i us span value
    have hs : s.At (.symbol .assign :: (us ++ .symbol .semicolon :: rest)) := by simpa using hs
    refine reads_peek hs.symbol (reads_advance ?_)
    refine (reads_expr hvalue .semicolon (hs.next nofun)).bind fun value' s₁ hvalue' hs₁ => ?_
    refine reads_expectSymbol hs₁ fun s₂ hs₂ => reads_spanFrom start fun _ => ?_
    exact reads_pure (by simp [Stmt.bare, htarget, hvalue']) hs₂
  | assignIndex hposition hvalue =>
    refine reads_peek hs.symbol (reads_advance ?_)
    exact reads_elementAssignment start htarget hposition hvalue (by simpa using hs.next nofun)
  | call hargs =>
    rename_i us span args
    have hs : s.At (.symbol .openParen ::
        (us ++ .symbol .closeParen :: .symbol .semicolon :: rest)) := by simpa using hs
    refine reads_peek hs.symbol (reads_advance ?_)
    have hread := reads_args (n := n) complete_expr hargs (hs.next nofun)
      (by simp at hlength ⊢; omega)
    refine hread.bind fun args' s₁ hargs' hs₁ => ?_
    refine reads_expectSymbol hs₁ fun s₂ hs₂ => reads_spanFrom start fun _ => ?_
    exact reads_pure (by simp [Stmt.bare, htarget, Expr.bareOf_eq_map, hargs']) hs₂

theorem reads_nameStmt_declaration (start : Span)
    (htype : FormsType (.identifier text :: ts) type.value) (h : FormsExpr 0 us init)
    (hs : s.At (.identifier text :: ts ++ .identifier name.value :: .symbol .assign :: us ++
      .symbol .semicolon :: rest)) :
    Reads (nameStmt n start) Stmt.bare s (.declare span type name init) rest := by
  obtain ⟨_, _⟩ := type
  have htext := hs.identifier.2
  refine reads_advance ?_
  have hs₁ := hs.next nofun
  cases htype with
  | object =>
    refine reads_peek hs₁.identifier.1 ?_
    rw [htext]
    exact reads_declaration start rfl h hs₁
  | objectArray =>
    refine reads_peek hs₁.symbol (reads_advance ?_)
    have hs₂ := hs₁.next nofun
    refine reads_accept_of_eq hs₂.symbol (reads_spanFrom start fun _ => ?_)
    rw [htext]
    exact reads_declaration start rfl h (hs₂.next nofun)

/-- Behind the first token of a reference there is a dot, or nothing. -/
theorem head?_of_formsRef {t : Terminal} {r : Ref} (h : FormsRef (t :: ts) r) :
    ts = [] ∨ ts.head? = some (.symbol .dot) := by
  generalize hts : t :: ts = us at h
  induction h generalizing ts with
  | this | name => cases hts; exact .inl rfl
  | member hbase ih =>
    obtain ⟨_, _, rfl, -⟩ := exists_head_of_formsRef hbase
    obtain ⟨rfl, rfl⟩ := cons.inj hts
    obtain rfl | hdot := ih rfl
    · exact .inr rfl
    · refine .inr ?_
      rw [append_eq, head?_append, hdot]
      rfl

theorem bare_of_formsRef_name {r : Ref} (h : FormsRef [.identifier text] r) :
    r.bare = .name Span.builtin text := by
  generalize hts : [Terminal.identifier text] = ts at h
  cases h with
  | this => cases hts
  | name => cases hts; rfl
  | member => exact absurd (congrArg List.length hts) (by simp)

/-- A name with a use behind it is read as an assignment or a call. -/
theorem reads_nameStmt_reference (start : Span) (href : FormsRef (.identifier text :: ts) target)
    (h : UsesRef target us a) (hs : s.At (.identifier text :: ts ++ us ++ rest))
    (hlength : (.identifier text :: ts ++ us ++ rest).length ≤ n + 1) :
    Reads (nameStmt n start) Stmt.bare s a rest := by
  have htext := hs.identifier.2
  have hs₁ : s.next.At (ts ++ (us ++ rest)) := by simpa using hs.next nofun
  obtain ⟨hdot, hident⟩ := h.head?_ne rest
  refine reads_advance (reads_peek rfl ?_)
  rw [htext]
  split
  -- Two names in a row begin a declaration, and a reference has a dot between its names.
  next hkind =>
    have hhead := hs₁.head? hkind
    obtain rfl | hts := head?_of_formsRef href
    · exact absurd hhead (hident _)
    · rw [head?_append, hts] at hhead
      cases hhead
  next hkind =>
    -- The bracket stands right behind the name, and it is not empty.
    have hhead := hs₁.head? hkind
    obtain rfl | hts := head?_of_formsRef href
    · have hbare := bare_of_formsRef_name href
      cases h with
      | assign | call => cases hhead
      | assignIndex hposition hvalue =>
        have hs₂ := hs₁.next nofun
        obtain ⟨-, _, _, rfl, ht, -⟩ := exists_head_of_formsExpr hposition
        refine reads_advance (reads_accept_of_ne (hs₂.kind_ne fun _ hclose => ?_) ?_)
        · cases hclose
          exact ht.not_closes .bracket
        · exact reads_elementAssignment start hbare.symm hposition hvalue (by simpa using hs₂)
    · rw [head?_append, hts] at hhead
      cases hhead
  next =>
    obtain ⟨_, _, _, hsplit, hbase, hmembers⟩ := exists_reads_members href
    obtain ⟨rfl, rfl⟩ := cons.inj hsplit
    cases hbase
    simp only [length_append, length_cons] at hlength
    have hread : Reads (members n (.name s.current.span text)) _ _ _ _ :=
      hmembers n (us ++ rest) rfl hs₁ (by omega) hdot
    refine hread.bind fun target' s₂ htarget hs₂ => ?_
    exact reads_referenceStmt start htarget h hs₂ (by simp; omega)

theorem reads_condition (h : FormsExpr 0 us test)
    (hs : s.At (.symbol .openParen :: us ++ .symbol .closeParen :: rest)) :
    Reads condition Expr.bare s test rest := by
  refine reads_expectSymbol hs fun s₁ hs₁ => ?_
  refine (reads_expr h .paren hs₁).bind fun test' s₂ htest hs₂ => ?_
  exact reads_expectSymbol hs₂ fun s₃ hs₃ => reads_pure htest hs₃

/-! ## Statements -/

/-- A statement ends in front of these tokens. -/
def StmtEnds (a : Stmt) (rest : List Terminal) : Prop :=
  a.EndsOpen → rest.head? ≠ some (.keyword .elseKw)

/-- The tokens form a statement in which every `else` belongs to the nearest open `if`. -/
def FormsBound : Nonterminal Stmt := fun ts a => FormsStmt ts a ∧ a.ElseBound

theorem exists_head_of_formsType {type : Ty} (h : FormsType ts type) :
    ∃ t us, ts = t :: us ∧
      (t = .keyword .intKw ∨ t = .keyword .booleanKw ∨ ∃ text, t = .identifier text) := by
  cases h with
  | int | intArray => exact ⟨_, _, rfl, .inl rfl⟩
  | boolean => exact ⟨_, _, rfl, .inr (.inl rfl)⟩
  | object | objectArray => exact ⟨_, _, rfl, .inr (.inr ⟨_, rfl⟩)⟩

/-- A statement begins neither with `else` nor with a closing brace. -/
theorem exists_head_of_formsStmt (h : FormsStmt ts a) :
    ∃ t us, ts = t :: us ∧ t ≠ .symbol .closeBrace ∧ t ≠ .keyword .elseKw := by
  cases h with
  | declare htype =>
    obtain ⟨_, _, rfl, rfl | rfl | ⟨_, rfl⟩⟩ := exists_head_of_formsType htype <;>
      exact ⟨_, _, rfl, nofun, nofun⟩
  | assign href _ | assignIndex href _ _ | callNone href | call href _ =>
    obtain ⟨_, _, rfl, rfl | ⟨_, rfl⟩⟩ := exists_head_of_formsRef href <;>
      exact ⟨_, _, rfl, nofun, nofun⟩
  | _ => exact ⟨_, _, rfl, nofun, nofun⟩

theorem many_formsBound {body : List Stmt} (h : Many FormsStmt us body)
    (hbound : Stmt.AllElseBound body) : Many FormsBound us body := by
  induction h with
  | nil => exact .nil
  | cons ha _ ih => exact .cons ⟨ha, hbound.1⟩ (ih hbound.2)

section

variable {stmt : Parser Stmt} (hstmt : Complete n stmt Stmt.bare FormsBound StmtEnds)
include hstmt

theorem reads_statements {body : List Stmt} (h : Many FormsStmt us body)
    (hbound : Stmt.AllElseBound body) (hs : s.At (us ++ .symbol .closeBrace :: rest))
    (hlength : (us ++ .symbol .closeBrace :: rest).length ≤ n) :
    Reads (manyUntil (.symbol .closeBrace) stmt n) (List.map Stmt.bare) s body rest := by
  have hmany := many_formsBound h hbound
  refine complete_manyUntil hstmt ?_ (fun _ _ _ => nofun) (Nat.le_refl n) rest
    ⟨us, rfl, hmany⟩ trivial (by simpa using hs) (by simpa using hlength)
  rintro _ _ ⟨ha, -⟩
  obtain ⟨t, us, rfl, hbrace, helse⟩ := exists_head_of_formsStmt ha
  exact ⟨t, us, rfl, hbrace, fun b rest _ hhead => helse (Option.some.inj hhead)⟩

omit hstmt in
theorem reads_stmt_declaration (htype : FormsType ts type.value) (h : FormsExpr 0 us init)
    (hs : s.At (ts ++ .identifier name.value :: .symbol .assign :: us ++
      .symbol .semicolon :: rest)) :
    Reads (stmtOver stmt n) Stmt.bare s (.declare span type name init) rest := by
  have hs' : s.At (ts ++ (.identifier name.value :: .symbol .assign :: us ++
      .symbol .semicolon :: rest)) := by
    simpa using hs
  obtain ⟨_, _, rfl, ht⟩ := exists_head_of_formsType htype
  refine reads_here ?_
  rcases ht with rfl | rfl | ⟨_, rfl⟩
  · refine reads_peek hs.keyword ?_
    refine (reads_type htype hs' nofun).bind fun type' s₁ htype' hs₁ => ?_
    exact reads_declaration _ htype' h hs₁
  · refine reads_peek hs.keyword ?_
    refine (reads_type htype hs' nofun).bind fun type' s₁ htype' hs₁ => ?_
    exact reads_declaration _ htype' h hs₁
  · refine reads_peek hs.identifier.1 ?_
    exact reads_nameStmt_declaration _ htype h hs

omit hstmt in
theorem reads_stmt_reference (href : FormsRef ts target) (h : UsesRef target us a)
    (hs : s.At (ts ++ us ++ rest)) (hlength : (ts ++ us ++ rest).length ≤ n + 1) :
    Reads (stmtOver stmt n) Stmt.bare s a rest := by
  obtain ⟨_, ts, _, rfl, hbase, hmembers⟩ := exists_reads_members href
  refine reads_here ?_
  cases hbase with
  | this =>
    have hs₁ : s.next.At (ts ++ (us ++ rest)) := by simpa using hs.next nofun
    refine reads_peek hs.keyword (reads_advance ?_)
    simp only [length_append, length_cons] at hlength
    have hread : Reads (members n (.this s.current.span)) _ _ _ _ :=
      hmembers n (us ++ rest) rfl hs₁ (by omega) (h.head?_ne rest).1
    refine hread.bind fun target' s₂ htarget hs₂ => ?_
    exact reads_referenceStmt _ htarget h hs₂ (by simp; omega)
  | name =>
    refine reads_peek hs.identifier.1 ?_
    exact reads_nameStmt_reference _ href h hs hlength

theorem reads_ifStmt (start : Span) {thenBranch : Stmt} (htest : FormsExpr 0 ts test)
    (hthen : FormsStmt us thenBranch) (hbound : thenBranch.ElseBound)
    (hnone : rest.head? ≠ some (.keyword .elseKw))
    (hs : s.At (.symbol .openParen :: ts ++ .symbol .closeParen :: (us ++ rest)))
    (hlength : (us ++ rest).length ≤ n) :
    Reads (ifStmt stmt start) Stmt.bare s (.ifThen span test thenBranch) rest := by
  refine (reads_condition htest hs).bind fun test' s₁ htest' hs₁ => ?_
  refine (hstmt rest ⟨hthen, hbound⟩ (fun _ => hnone) hs₁ hlength).bind
    fun then' s₂ hthen' hs₂ => ?_
  refine reads_accept_of_ne (hs₂.kind_ne fun _ => hnone) (reads_spanFrom start fun _ => ?_)
  exact reads_pure (by simp [Stmt.bare, htest', hthen']) hs₂

theorem reads_ifStmt_else (start : Span) {thenBranch elseBranch : Stmt}
    (htest : FormsExpr 0 ts test) (hthen : FormsStmt us thenBranch)
    (helse : FormsStmt vs elseBranch)
    (hbound : (Stmt.ifThenElse span test thenBranch elseBranch).ElseBound)
    (hends : StmtEnds elseBranch rest) (hs : s.At (.symbol .openParen :: ts ++
      .symbol .closeParen :: (us ++ .keyword .elseKw :: (vs ++ rest))))
    (hlength : (us ++ .keyword .elseKw :: (vs ++ rest)).length ≤ n) :
    Reads (ifStmt stmt start) Stmt.bare s (.ifThenElse span test thenBranch elseBranch) rest := by
  obtain ⟨hclosed, hthenBound, helseBound⟩ := hbound
  refine (reads_condition htest hs).bind fun test' s₁ htest' hs₁ => ?_
  have hread := hstmt _ ⟨hthen, hthenBound⟩ (fun hopen => absurd hopen hclosed) hs₁ hlength
  refine hread.bind fun then' s₂ hthen' hs₂ => ?_
  refine reads_accept_of_eq hs₂.keyword ?_
  have hread := hstmt rest ⟨helse, helseBound⟩ hends (hs₂.next nofun) (by simp at hlength ⊢; omega)
  refine hread.bind fun else' s₃ helse' hs₃ => reads_spanFrom start fun _ => ?_
  exact reads_pure (by simp [Stmt.bare, htest', hthen', helse']) hs₃

/-- What the grammar has as a statement, the parser reads. -/
theorem complete_stmtOver : Complete (n + 1) (stmtOver stmt n) Stmt.bare FormsBound StmtEnds := by
  rintro s ts rest a ⟨h, hbound⟩ hends hs hlength
  cases h with
  | block h =>
    refine reads_here (reads_peek hs.symbol (reads_advance ?_))
    have hread := reads_statements hstmt h hbound (by simpa using hs.next nofun)
      (by simp at hlength ⊢; omega)
    refine hread.bind fun body' s₁ hbody hs₁ => reads_spanFrom _ fun _ => ?_
    exact reads_pure (by simp [Stmt.bare, Stmt.bareOf_eq_map, hbody]) hs₁
  | declare htype hinit => exact reads_stmt_declaration htype hinit (by simpa using hs)
  | assign htarget hvalue =>
    exact reads_stmt_reference htarget (.assign hvalue) (by simpa using hs) (by simpa using hlength)
  | assignIndex htarget hposition hvalue =>
    exact reads_stmt_reference htarget (.assignIndex hposition hvalue) (by simpa using hs)
      (by simpa using hlength)
  | callNone hmethod =>
    exact reads_stmt_reference hmethod (.call (.inl ⟨rfl, rfl⟩)) hs hlength
  | call hmethod hargs =>
    exact reads_stmt_reference hmethod (.call (.inr hargs)) (by simpa using hs)
      (by simpa using hlength)
  | retNone =>
    refine reads_here (reads_peek hs.keyword (reads_advance (reads_peek rfl ?_)))
    have hs₁ := hs.next nofun
    rw [if_pos hs₁.symbol]
    exact reads_expectSymbol hs₁ fun s₂ hs₂ => reads_spanFrom _ fun _ => reads_pure rfl hs₂
  | ret h =>
    rename_i ts span value
    refine reads_here (reads_peek hs.keyword (reads_advance (reads_peek rfl ?_)))
    have hs₁ : s.next.At (ts ++ .symbol .semicolon :: rest) := by simpa using hs.next nofun
    obtain ⟨-, _, _, rfl, ht, -⟩ := exists_head_of_formsExpr h
    -- A semicolon would end the statement here, and no expression begins with one.
    have hkind : s.next.current.kind ≠ .symbol .semicolon := by
      refine hs₁.kind_ne fun _ hend => ?_
      cases hend
      exact ht.not_closes .semicolon
    rw [if_neg hkind]
    refine (reads_expr h .semicolon hs₁).bind fun value' s₂ hvalue hs₂ => ?_
    refine reads_expectSymbol hs₂ fun s₃ hs₃ => reads_spanFrom _ fun _ => ?_
    exact reads_pure (by simp [Stmt.bare, hvalue]) hs₃
  | ifThen htest hthen =>
    refine reads_here (reads_peek hs.keyword (reads_advance ?_))
    exact reads_ifStmt hstmt _ htest hthen hbound (hends trivial) (by simpa using hs.next nofun)
      (by simp at hlength ⊢; omega)
  | ifThenElse htest hthen helse =>
    refine reads_here (reads_peek hs.keyword (reads_advance ?_))
    exact reads_ifStmt_else hstmt _ htest hthen helse hbound hends (by simpa using hs.next nofun)
      (by simp at hlength ⊢; omega)
  | loop htest hbody =>
    rename_i ts us span test body
    refine reads_here (reads_peek hs.keyword (reads_advance ?_))
    have hs₁ : s.next.At (.symbol .openParen :: ts ++ .symbol .closeParen :: (us ++ rest)) := by
      simpa using hs.next nofun
    refine (reads_condition htest hs₁).bind fun test' s₂ htest' hs₂ => ?_
    refine (hstmt rest ⟨hbody, hbound⟩ hends hs₂ (by simp at hlength ⊢; omega)).bind
      fun body' s₃ hbody' hs₃ => reads_spanFrom _ fun _ => ?_
    exact reads_pure (by simp [Stmt.bare, htest', hbody']) hs₃

end

theorem complete_stmtWithin (n : Nat) :
    Complete n (stmtWithin n) Stmt.bare FormsBound StmtEnds := by
  induction n with
  | zero => exact complete_zero
  | succ _ ih => exact complete_stmtOver ih

theorem complete_stmt : Complete n stmt Stmt.bare FormsBound StmtEnds :=
  Complete.bounded complete_stmtWithin

/-! ## Members -/

theorem complete_param : Complete n param Param.bare FormsParam (fun _ _ => True) := by
  rintro s _ rest _ ⟨htype⟩ - hs -
  rename_i ts span type name
  have hs : s.At (ts ++ .identifier name.value :: rest) := by simpa using hs
  refine (reads_type htype hs nofun).bind fun type' s₁ htype' hs₁ => ?_
  refine reads_ident hs₁ fun _ s₂ hs₂ => reads_pure ?_ hs₂
  rw [Param.bare, Param.bare, htype']
  rfl

theorem exists_head_of_formsParam {q : Param} (h : FormsParam ts q) :
    ∃ t us, ts = t :: us ∧ t ≠ .symbol .closeParen := by
  obtain ⟨htype⟩ := h
  obtain ⟨_, _, rfl, rfl | rfl | ⟨_, rfl⟩⟩ := exists_head_of_formsType htype <;>
    exact ⟨_, _, rfl, nofun⟩

theorem reads_params {ps : List Terminal} {params : List Param} (h : FormsParams ps params)
    (hs : s.At (ps ++ .symbol .closeParen :: rest))
    (hlength : (ps ++ .symbol .closeParen :: rest).length ≤ n) :
    Reads (closeList param n) (List.map Param.bare) s params rest := by
  refine reads_closeList complete_param (fun _ _ => exists_head_of_formsParam) (fun _ _ => trivial)
    (fun _ _ => trivial) ?_ hs hlength
  cases h with
  | none => exact .inl ⟨rfl, rfl⟩
  | some h => exact .inr h

/-- A token that is no modifier of a member and does not close a class. -/
structure BeginsResult (t : Terminal) : Prop where
  ne_private : t ≠ .keyword .privateKw
  ne_public : t ≠ .keyword .publicKw
  ne_static : t ≠ .keyword .staticKw
  ne_closeBrace : t ≠ .symbol .closeBrace

theorem exists_head_of_formsResult {type : Ty} (h : FormsResult ts type) :
    ∃ t us, ts = t :: us ∧ BeginsResult t := by
  cases h with
  | void => exact ⟨_, _, rfl, ⟨nofun, nofun, nofun, nofun⟩⟩
  | type h =>
    obtain ⟨_, _, rfl, rfl | rfl | ⟨_, rfl⟩⟩ := exists_head_of_formsType h <;>
      exact ⟨_, _, rfl, ⟨nofun, nofun, nofun, nofun⟩⟩

theorem reads_privacy {isPrivate : Bool} (h : FormsAccess vs isPrivate) (hs : s.At (vs ++ rest))
    (hprivate : rest.head? ≠ some (.keyword .privateKw))
    (hpublic : rest.head? ≠ some (.keyword .publicKw)) :
    Reads privacy id s isPrivate rest := by
  cases h with
  | unsaid =>
    refine reads_accept_of_ne (hs.kind_ne fun _ => hprivate) ?_
    exact reads_accept_of_ne (hs.kind_ne fun _ => hpublic) (reads_pure rfl hs)
  | isPublic =>
    refine reads_accept_of_ne (hs.kind_ne nofun) ?_
    exact reads_accept_of_eq hs.keyword (reads_pure rfl (hs.next nofun))
  | isPrivate => exact reads_accept_of_eq hs.keyword (reads_pure rfl (hs.next nofun))

theorem reads_static {α : Type} {bare : α → α} {f : Bool → Parser α} {a : α}
    {mid ss : List Terminal}
    {isStatic : Bool} (h : FormsStatic ss isStatic) (hs : s.At (ss ++ mid))
    (hstatic : mid.head? ≠ some (.keyword .staticKw))
    (hf : ∀ s', s'.At mid → Reads (f isStatic) bare s' a rest) :
    Reads (accept (.keyword .staticKw) >>= f) bare s a rest := by
  cases h with
  | unsaid => exact reads_accept_of_ne (hs.kind_ne fun _ => hstatic) (hf s hs)
  | isStatic => exact reads_accept_of_eq hs.keyword (hf _ (hs.next nofun))

theorem reads_memberType (h : FormsResult ts type.value) (hs : s.At (ts ++ rest))
    (hnone : rest.head? ≠ some (.symbol .openBracket)) :
    Reads memberType Located.bare s type rest := by
  obtain ⟨type, _⟩ := type
  refine reads_peek rfl ?_
  cases h with
  | void =>
    rw [if_pos hs.keyword]
    exact reads_advance (reads_pure rfl (hs.next nofun))
  | type h =>
    have hkind : s.current.kind ≠ .keyword .voidKw := by
      obtain ⟨_, _, rfl, rfl | rfl | ⟨_, rfl⟩⟩ := exists_head_of_formsType h <;>
        exact hs.kind_ne nofun
    rw [if_neg hkind]
    exact reads_type h hs hnone

/-- The front of a member, up to its name. -/
theorem reads_memberFront {β : Type} {bare : β → β} {b : β}
    {f : Span → Bool → Bool → Located Ty → Ident → Parser β} {ss mid : List Terminal}
    {isPrivate isStatic : Bool} (haccess : FormsAccess vs isPrivate)
    (hstatic : FormsStatic ss isStatic) (htype : FormsResult ts type.value)
    (hs : s.At (vs ++ (ss ++ (ts ++ .identifier name.value :: mid))))
    (hf : ∀ start type' span s', type'.bare = type.bare → s'.At mid →
      Reads (f start isPrivate isStatic type' ⟨name.value, span⟩) bare s' b rest) :
    Reads (do
      let start ← here
      let isPrivate ← privacy
      let isStatic ← accept (.keyword .staticKw)
      let written ← memberType
      let name ← ident
      f start isPrivate isStatic written name) bare s b rest := by
  have hhead : ∃ t us, ts = t :: us ∧ BeginsResult t := exists_head_of_formsResult htype
  refine reads_here ?_
  have hprivacy : Reads privacy id s isPrivate (ss ++ (ts ++ .identifier name.value :: mid)) := by
    obtain ⟨_, _, rfl, ht⟩ := hhead
    refine reads_privacy haccess hs ?_ ?_ <;> cases hstatic
    · exact fun h => ht.ne_private (Option.some.inj h)
    · exact nofun
    · exact fun h => ht.ne_public (Option.some.inj h)
    · exact nofun
  refine hprivacy.bind fun isPrivate' s₁ hprivate hs₁ => ?_
  obtain rfl : isPrivate' = isPrivate := hprivate
  have hnone : (ts ++ .identifier name.value :: mid).head? ≠ some (.keyword .staticKw) := by
    obtain ⟨_, _, rfl, ht⟩ := hhead
    exact fun h => ht.ne_static (Option.some.inj h)
  refine reads_static hstatic hs₁ hnone fun s₂ hs₂ => ?_
  refine (reads_memberType htype hs₂ nofun).bind fun type' s₃ htype' hs₃ => ?_
  exact reads_ident hs₃ fun span s₄ hs₄ => hf _ _ _ _ htype' hs₄

/-- The tokens form a member in which every `else` belongs to the nearest open `if`. -/
def FormsBoundMember (owner : String) : Nonterminal Member :=
  fun ts a => FormsMember owner ts a ∧ a.ElseBound

theorem ne_void_of_formsType {type : Ty} (h : FormsType ts type) : type ≠ .void := by
  cases h <;> exact nofun

theorem complete_member (owner : String) :
    Complete n (member n owner) Member.bare (FormsBoundMember owner) (fun _ _ => True) := by
  rintro s _ rest a ⟨h, hbound⟩ - hs hlength
  cases h with
  | field haccess hstatic htype =>
    rename_i vs ss ts span isPrivate isStatic type name
    have hs : s.At
        (vs ++ (ss ++ (ts ++ .identifier name.value :: .symbol .semicolon :: rest))) := by
      simpa using hs
    refine reads_memberFront haccess hstatic (.type htype) hs fun start type' _ s₁ htype' hs₁ => ?_
    have hvalue : type'.value = type.value := (Located.mk.inj htype').1
    refine reads_peek rfl ?_
    rw [if_pos hs₁.symbol, if_neg (hvalue ▸ ne_void_of_formsType htype)]
    refine reads_expectSymbol hs₁ fun s₂ hs₂ => reads_spanFrom start fun _ => ?_
    exact reads_pure (by simp [Member.bare, FieldDecl.bare, Located.bare, hvalue]) hs₂
  | method haccess hstatic hreturns hparams hbody =>
    rename_i vs ss ts ps bs span isPrivate isStatic returns name params body
    have hs : s.At (vs ++ (ss ++ (ts ++ .identifier name.value :: .symbol .openParen ::
        (ps ++ .symbol .closeParen :: .symbol .openBrace ::
        (bs ++ .symbol .closeBrace :: rest))))) := by
      simpa using hs
    simp only [length_append, length_cons, length_nil] at hlength
    refine reads_memberFront haccess hstatic hreturns hs fun start type' _ s₁ htype' hs₁ => ?_
    have hkind : s₁.current.kind ≠ .symbol .semicolon := by
      refine hs₁.kind_ne ?_
      rintro _ ⟨⟩
    refine reads_peek rfl ?_
    rw [if_neg hkind]
    refine reads_expectSymbol hs₁ fun s₂ hs₂ => ?_
    refine (reads_params hparams hs₂ (by simp; omega)).bind fun params' s₃ hparams' hs₃ => ?_
    refine reads_expectSymbol hs₃ fun s₄ hs₄ => ?_
    have hread := reads_statements (n := n) complete_stmt hbody (hbound _ rfl) hs₄ (by simp; omega)
    refine hread.bind fun body' s₅ hbody' hs₅ => reads_spanFrom start fun _ => ?_
    refine reads_pure ?_ hs₅
    simp [Member.bare, MethodDecl.bare, htype', hparams', Stmt.bareOf_eq_map, hbody']
    rfl

theorem exists_head_of_formsMember {owner : String} {a : Member} (h : FormsMember owner ts a) :
    ∃ t us, ts = t :: us ∧ t ≠ .symbol .closeBrace := by
  obtain ⟨vs, ss, us, vs', type, b, c, haccess, hstatic, hresult, rfl⟩ :
      ∃ vs ss us vs' type b c, FormsAccess vs b ∧ FormsStatic ss c ∧ FormsResult us type ∧
        ts = vs ++ (ss ++ (us ++ vs')) := by
    cases h with
    | field haccess hstatic htype =>
      exact ⟨_, _, _, _, _, _, _, haccess, hstatic, .type htype, by simp; rfl⟩
    | method haccess hstatic hreturns =>
      exact ⟨_, _, _, _, _, _, _, haccess, hstatic, hreturns, by simp; rfl⟩
  obtain ⟨_, _, rfl, ht⟩ := exists_head_of_formsResult hresult
  cases haccess with
  | unsaid =>
    cases hstatic with
    | unsaid => exact ⟨_, _, rfl, ht.ne_closeBrace⟩
    | isStatic => exact ⟨_, _, rfl, nofun⟩
  | isPublic | isPrivate => exact ⟨_, _, rfl, nofun⟩

/-! ## Classes and programs -/

theorem map_field? (ms : List Member) :
    (ms.filterMap Member.field?).map FieldDecl.bare =
      (ms.map Member.bare).filterMap Member.field? := by
  rw [map_filterMap, filterMap_map]
  congr 1
  funext a
  cases a <;> rfl

theorem map_method? (ms : List Member) :
    (ms.filterMap Member.method?).map MethodDecl.bare =
      (ms.map Member.bare).filterMap Member.method? := by
  rw [map_filterMap, filterMap_map]
  congr 1
  funext a
  cases a <;> rfl

theorem many_formsBoundMember {owner : String} {ms : List Member}
    (h : Many (FormsMember owner) ts ms)
    (hbound : ∀ m ∈ ms.filterMap Member.method?, Stmt.AllElseBound m.body) :
    Many (FormsBoundMember owner) ts ms := by
  induction h with
  | nil => exact .nil
  | cons ha _ ih =>
    refine .cons ⟨ha, fun m hm => hbound m ?_⟩ (ih fun m hm => hbound m ?_)
    · exact mem_filterMap.mpr ⟨_, mem_cons_self, hm⟩
    · exact filterMap_subset _ (subset_cons_self _ _) hm

/-- The tokens form a class in which every `else` belongs to the nearest open `if`. -/
def FormsBoundClass : Nonterminal ClassDecl :=
  fun ts c => FormsClass ts c ∧ ∀ m ∈ c.methods, Stmt.AllElseBound m.body

theorem complete_classDecl :
    Complete (n + 1) (classDecl n) ClassDecl.bare FormsBoundClass (fun _ _ => True) := by
  rintro s _ rest _ ⟨⟨h⟩, hbound⟩ - hs hlength
  rename_i ts span name ms
  have hs : s.At (.keyword .classKw :: .identifier name.value :: .symbol .openBrace ::
      (ts ++ .symbol .closeBrace :: rest)) := by simpa using hs
  simp only [length_append, length_cons, length_nil] at hlength
  have hfirst : Reads (expect (.keyword .classKw)) id s s.current _ :=
    ⟨s.current, s.next, expect_apply_of_eq hs.keyword, rfl, hs.next nofun⟩
  refine hfirst.bind fun first s₁ _ hs₁ => ?_
  refine reads_ident hs₁ fun _ s₂ hs₂ => reads_expectSymbol hs₂ fun s₃ hs₃ => ?_
  have hread := complete_manyUntil (complete_member name.value)
    (fun ts a ha => ?_) (fun _ _ => trivial) (Nat.le_refl n) rest
    ⟨ts, rfl, many_formsBoundMember h hbound⟩ trivial (by simpa using hs₃) (by simp; omega)
  · refine hread.bind fun ms' s₄ hms hs₄ => reads_spanFrom _ fun _ => ?_
    refine reads_pure ?_ hs₄
    simp [ClassDecl.bare, Located.bare, map_field?, map_method?, hms]
  · obtain ⟨t, us, rfl, ht⟩ := exists_head_of_formsMember ha.1
    exact ⟨t, us, rfl, ht, fun _ _ => trivial⟩

/-- Classes are read up to the end of the file. -/
theorem complete_classes (n : Nat) :
    Complete n (classes n) (List.map ClassDecl.bare) (Many FormsBoundClass)
      (fun _ rest => rest = [.endOfFile]) := by
  induction n with
  | zero => exact complete_zero
  | succ n ih =>
    rintro s _ _ cs h rfl hs hlength
    refine reads_peek rfl ?_
    cases h with
    | nil =>
      rw [if_pos (Token.terminal_eq_endOfFile.mp hs.current)]
      exact reads_pure rfl hs
    | cons hc hcs =>
      rename_i ts us c cs
      -- A class takes a token, so a smaller bound is enough for the other ones.
      have htaken : 0 < ts.length := by
        obtain ⟨⟨_⟩, _⟩ := hc
        simp
      have hkind : s.current.kind ≠ .endOfFile := by
        obtain ⟨⟨_⟩, _⟩ := hc
        exact hs.kind_ne nofun
      rw [if_neg hkind]
      rw [append_assoc] at hs hlength
      refine (complete_classDecl _ hc trivial hs hlength).bind fun c' s₁ hc' hs₁ => ?_
      have hless : (us ++ [Terminal.endOfFile]).length ≤ n := by
        rw [length_append] at hlength
        omega
      refine (ih _ hcs rfl hs₁ hless).bind fun cs' s₂ hcs' hs₂ => ?_
      exact reads_pure (by simp [hc', hcs']) hs₂

theorem many_formsBoundClass {cs : List ClassDecl} (h : Many FormsClass ts cs)
    (hbound : ∀ c ∈ cs, ∀ m ∈ c.methods, Stmt.AllElseBound m.body) :
    Many FormsBoundClass ts cs := by
  induction h with
  | nil => exact .nil
  | cons hc _ ih =>
    exact .cons ⟨hc, hbound _ mem_cons_self⟩ (ih fun c hmem => hbound c (mem_cons_of_mem _ hmem))

/-- A program in which every `else` belongs to the nearest open `if` is read as that program, but
for the ranges. -/
theorem reads_program {p : Program} (h : FormsProgram ts p) (hbound : p.ElseBound) (hs : s.At ts) :
    Reads program Program.bare s p [.endOfFile] := by
  obtain ⟨h⟩ := h
  have hmany := many_formsBoundClass h hbound
  have hclasses := Complete.bounded complete_classes _ hmany rfl hs (Nat.le_refl _)
  refine hclasses.bind fun cs' s₁ hcs hs₁ => ?_
  exact reads_pure (congrArg Program.mk hcs) hs₁

end MiniJava.Grammar
