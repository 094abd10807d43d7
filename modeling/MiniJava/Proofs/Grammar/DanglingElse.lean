import MiniJava.Proofs.Grammar.Rules

/-!
# An `else` behind several `if`s

Tokens can form several statements if an `else` could belong to more than one `if`. Among these
there is always one in which every `else` belongs to the nearest open `if`, so to ask for it
(`Stmt.ElseBound`) rules out no sequence of tokens.

The step is `exists_attached`: an `else` behind a statement that ends with an open `if` is handed
down to that `if`.
-/

namespace MiniJava.Grammar

/-- An `else` behind a statement that ends with an open `if` goes to the innermost such `if`. -/
theorem exists_attached (a : Stmt) {us vs : List Terminal} (ha : FormsStmt us a)
    (hbound : a.ElseBound) (hopen : a.EndsOpen) {b : Stmt} (hb : FormsStmt vs b)
    (hbBound : b.ElseBound) :
    ∃ c, FormsStmt (us ++ .keyword .elseKw :: vs) c ∧ c.ElseBound := by
  cases ha with
  | ifThen htest hthen =>
    rename_i ts us span test thenBranch
    by_cases hinner : thenBranch.EndsOpen
    · obtain ⟨c, hc, hcBound⟩ := exists_attached thenBranch hthen hbound hinner hb hbBound
      refine ⟨.ifThen span test c, ?_, hcBound⟩
      have hforms : FormsStmt _ (.ifThen span test c) := .ifThen htest hc
      simpa using hforms
    · refine ⟨.ifThenElse span test thenBranch b, ?_, hinner, hbound, hbBound⟩
      exact FormsStmt.ifThenElse htest hthen hb
  | ifThenElse htest hthen helse =>
    rename_i ts us ws span test thenBranch elseBranch
    obtain ⟨hthenClosed, hthenBound, helseBound⟩ := hbound
    obtain ⟨c, hc, hcBound⟩ := exists_attached elseBranch helse helseBound hopen hb hbBound
    refine ⟨.ifThenElse span test thenBranch c, ?_, hthenClosed, hthenBound, hcBound⟩
    have hforms : FormsStmt _ (.ifThenElse span test thenBranch c) := .ifThenElse htest hthen hc
    simpa using hforms
  | loop htest hbody =>
    rename_i ts us span test body
    obtain ⟨c, hc, hcBound⟩ := exists_attached body hbody hbound hopen hb hbBound
    refine ⟨.loop span test c, ?_, hcBound⟩
    have hforms : FormsStmt _ (.loop span test c) := .loop htest hc
    simpa using hforms
  | block | declare | assign | assignIndex | callNone | call | retNone | ret => cases hopen

mutual

/-- Tokens that form a statement form one in which every `else` belongs to the nearest open `if`. -/
theorem exists_elseBound (a : Stmt) {ts : List Terminal} (h : FormsStmt ts a) :
    ∃ b, FormsStmt ts b ∧ b.ElseBound := by
  have hforms := h
  cases h with
  | block hbody =>
    rename_i us span body
    obtain ⟨body', hbody', hbound⟩ := exists_allElseBound body hbody
    exact ⟨.block span body', .block hbody', hbound⟩
  | declare | assign | assignIndex | callNone | call | retNone | ret => exact ⟨_, hforms, trivial⟩
  | ifThen htest hthen =>
    rename_i ts us span test thenBranch
    obtain ⟨thenBranch', hthen', hbound⟩ := exists_elseBound thenBranch hthen
    exact ⟨.ifThen span test thenBranch', .ifThen htest hthen', hbound⟩
  | ifThenElse htest hthen helse =>
    rename_i ts us vs span test thenBranch elseBranch
    obtain ⟨thenBranch', hthen', hthenBound⟩ := exists_elseBound thenBranch hthen
    obtain ⟨elseBranch', helse', helseBound⟩ := exists_elseBound elseBranch helse
    by_cases hopen : thenBranch'.EndsOpen
    · -- The `else` belongs to an `if` inside of the branch in front of it.
      obtain ⟨c, hc, hcBound⟩ := exists_attached thenBranch' hthen' hthenBound hopen
        helse' helseBound
      refine ⟨.ifThen span test c, ?_, hcBound⟩
      have hattached : FormsStmt _ (.ifThen span test c) := .ifThen htest hc
      simpa using hattached
    · exact ⟨.ifThenElse span test thenBranch' elseBranch', .ifThenElse htest hthen' helse',
        hopen, hthenBound, helseBound⟩
  | loop htest hbody =>
    rename_i ts us span test body
    obtain ⟨body', hbody', hbound⟩ := exists_elseBound body hbody
    exact ⟨.loop span test body', .loop htest hbody', hbound⟩

theorem exists_allElseBound (as : List Stmt) {ts : List Terminal} (h : Many FormsStmt ts as) :
    ∃ bs, Many FormsStmt ts bs ∧ Stmt.AllElseBound bs := by
  cases h with
  | nil => exact ⟨[], .nil, trivial⟩
  | cons ha has =>
    rename_i ts us a as
    obtain ⟨b, hb, hbBound⟩ := exists_elseBound a ha
    obtain ⟨bs, hbs, hbsBound⟩ := exists_allElseBound as has
    exact ⟨b :: bs, .cons hb hbs, hbBound, hbsBound⟩

end

/-! ## Classes -/

/-- If every item can be chosen with a property, then so can any number of them. -/
theorem exists_many {α : Type} {L : Nonterminal α} {P : α → Prop}
    (hitem : ∀ ts a, L ts a → ∃ b, L ts b ∧ P b) {ts : List Terminal} {as : List α}
    (h : Many L ts as) : ∃ bs, Many L ts bs ∧ ∀ b ∈ bs, P b := by
  induction h with
  | nil => exact ⟨[], .nil, nofun⟩
  | cons ha _ ih =>
    obtain ⟨b, hb, hP⟩ := hitem _ _ ha
    obtain ⟨bs, hbs, hPs⟩ := ih
    exact ⟨b :: bs, .cons hb hbs, List.forall_mem_cons.mpr ⟨hP, hPs⟩⟩

/-- Every `else` in the body of a method belongs to the nearest open `if`. -/
def Member.ElseBound (a : Member) : Prop := ∀ m ∈ a.method?, Stmt.AllElseBound m.body

theorem exists_elseBound_member (owner : String) (ts : List Terminal) (a : Member)
    (h : FormsMember owner ts a) : ∃ b, FormsMember owner ts b ∧ Member.ElseBound b := by
  have hforms := h
  cases h with
  | field => exact ⟨_, hforms, nofun⟩
  | method haccess hstatic hreturns hparams hbody =>
    rename_i vs ss ts ps bs span isPrivate isStatic returns name params body
    obtain ⟨body', hbody', hbound⟩ := exists_allElseBound body hbody
    refine ⟨.method ⟨span, isPrivate, isStatic, returns, name, owner, params, body'⟩,
      .method haccess hstatic hreturns hparams hbody', ?_⟩
    rintro m ⟨⟩
    exact hbound

theorem exists_elseBound_class (ts : List Terminal) (c : ClassDecl) (h : FormsClass ts c) :
    ∃ d, FormsClass ts d ∧ ∀ m ∈ d.methods, Stmt.AllElseBound m.body := by
  obtain ⟨hmembers⟩ := h
  rename_i span name _
  obtain ⟨members, hforms, hbound⟩ := exists_many (exists_elseBound_member name.value) hmembers
  refine ⟨⟨span, name, members.filterMap Member.field?, members.filterMap Member.method?⟩,
    .mk hforms, fun m hm => ?_⟩
  obtain ⟨a, ha, hmethod⟩ := List.mem_filterMap.mp hm
  exact hbound a ha m hmethod

/-- Tokens that form a program also form one in which every `else` belongs to the nearest open `if`.
-/
theorem exists_elseBound_program {ts : List Terminal} {p : Program} (h : FormsProgram ts p) :
    ∃ q, FormsProgram ts q ∧ q.ElseBound := by
  obtain ⟨hclasses⟩ := h
  obtain ⟨classes, hforms, hbound⟩ := exists_many exists_elseBound_class hclasses
  exact ⟨⟨classes⟩, .mk hforms, hbound⟩

end MiniJava.Grammar
