import MiniJava.Proofs.Grammar.Completeness

/-!
# Redundant parentheses

A pair of parentheses around an expression is redundant if the expression fits its place without
them. What a place asks for is seen at the tokens next to it: an operator in front of it and an
operator behind it, each of which wants an operand of its level (`placeLevel`). Such a pair can be
dropped (`formsProgram_of_drops`).

The pair may be anywhere in the program. Parentheses match in all that the grammar forms, so a pair
lies inside of one part of a rule (`DropsPair.append_cases`), or it is one that the rule itself asks
for, and then it does not enclose an expression (`groups`). So the proof follows the rules down to
the pair. What is left without it may be of a looser level than before, but it is of the level that
the place asks for.
-/

namespace MiniJava

open Grammar List

variable {ts us vs pre post : List Terminal}

/-! ## Matching parentheses -/

namespace Balanced

/-- A parenthesis that is opened is closed. -/
theorem exists_match (h : Balanced ts) {before after : List Terminal}
    (hts : ts = before ++ .symbol .openParen :: after) :
    ∃ inner rest, Balanced inner ∧ after = inner ++ .symbol .closeParen :: rest := by
  induction h generalizing before after with
  | nil => simp at hts
  | @plain t ts ht _ ih =>
    cases before with
    | nil =>
      obtain ⟨rfl, -⟩ := cons.inj hts
      cases ht
    | cons => exact ih (cons.inj hts).2
  | @nest ts us hts' _ ih ih' =>
    cases before with
    | nil => exact ⟨ts, us, hts', (cons.inj hts).2.symm⟩
    | cons =>
      -- The parenthesis is opened inside of this pair or behind it.
      have hinside := (cons.inj hts).2
      obtain ⟨between, rfl, hafter⟩ | ⟨between, rfl, hafter⟩ := append_eq_append_iff.mp hinside
      · cases between with
        | nil => cases hafter
        | cons => exact ih' (cons.inj hafter).2
      · cases between with
        | nil => cases hafter
        | cons =>
          obtain ⟨rfl, rfl⟩ := cons.inj hafter
          obtain ⟨inner, rest, hinner, rfl⟩ := ih rfl
          exact ⟨inner, rest ++ .symbol .closeParen :: us, hinner, by simp⟩

/-- A parenthesis is closed in one place. -/
theorem match_unique (h : Balanced ts) (h' : Balanced us) {rest rest' : List Terminal}
    (heq : ts ++ .symbol .closeParen :: rest = us ++ .symbol .closeParen :: rest') :
    ts = us ∧ rest = rest' := by
  induction h generalizing us rest rest' with
  | nil =>
    cases h' with
    | nil => exact ⟨rfl, (cons.inj heq).2⟩
    | plain ht =>
      obtain ⟨rfl, -⟩ := cons.inj heq
      cases ht
    | nest => cases heq
  | @plain t ts ht _ ih =>
    cases h' with
    | nil =>
      obtain ⟨rfl, -⟩ := cons.inj heq
      cases ht
    | plain _ hus =>
      obtain ⟨rfl, htail⟩ := cons.inj heq
      obtain ⟨rfl, hrest⟩ := ih hus htail
      exact ⟨rfl, hrest⟩
    | nest =>
      obtain ⟨rfl, -⟩ := cons.inj heq
      cases ht
  | @nest ts us _ _ ih ih' =>
    cases h' with
    | nil => cases heq
    | plain ht =>
      obtain ⟨rfl, -⟩ := cons.inj heq
      cases ht
    | nest hinner hothers =>
      simp only [cons_append, append_assoc, cons.injEq, true_and] at heq
      obtain ⟨rfl, htail⟩ := ih hinner heq
      obtain ⟨rfl, hrest⟩ := ih' hothers htail
      exact ⟨rfl, hrest⟩

/-- Nothing stands behind a pair of parentheses that is the whole. -/
theorem eq_nil_of_inParens (h : Balanced ts) (hne : ts ≠ []) {inner : List Terminal}
    (hinner : Balanced inner) (heq : ts ++ us = inParens inner) : us = [] := by
  obtain ⟨_, _, rfl⟩ := exists_cons_of_ne_nil hne
  obtain ⟨rfl, htail⟩ := cons.inj heq
  obtain ⟨_, _, hinner', rfl⟩ := h.exists_match (nil_append _).symm
  obtain ⟨-, hrest⟩ := hinner'.match_unique hinner ((append_assoc ..).symm.trans htail)
  exact (append_eq_nil_iff.mp hrest).2

end Balanced

/-! ## Places -/

/-- The level of the binary operators with this symbol. -/
def Symbol.level? : Symbol → Option Nat
  | or => some 0
  | and => some 1
  | equal | notEqual => some 2
  | less | lessEq | greater | greaterEq => some 3
  | plus | minus => some 4
  | times | divide => some 5
  | _ => none

/-- An operand can end with this terminal. -/
def Terminal.endsOperand : Terminal → Bool
  | number _ | identifier _ => true
  | keyword k => k = .trueKw ∨ k = .falseKw ∨ k = .nullKw ∨ k = .thisKw
  | symbol s => s = .closeParen ∨ s = .closeBracket
  | endOfFile | invalid => false

/-- The terminals end with an operand. -/
def endsOperand (ts : List Terminal) : Bool := ts.getLast?.any Terminal.endsOperand

/-- The level that the operator in front of a place wants there. Behind an operand it is a binary
operator, and otherwise a unary one. -/
def levelBehind (before : List Terminal) : Nat :=
  match before.getLast? with
  | some (.symbol s) =>
    if endsOperand before.dropLast then s.level?.elim 0 (· + 1)
    else if s = .not ∨ s = .minus then 6 else 0
  | _ => 0

/-- The level that the operator behind a place wants there. -/
def levelBefore : List Terminal → Nat
  | .symbol s :: _ => s.level?.getD 0
  | _ => 0

/-- The level that an expression must have to stand between these terminals. -/
def placeLevel (before after : List Terminal) : Nat := max (levelBehind before) (levelBefore after)

/-- A parenthesis behind these terminals belongs neither to a call nor to a condition. -/
def groups (before : List Terminal) : Bool :=
  match before.getLast? with
  | some (.identifier _) => false
  | some (.keyword k) => k ≠ .thisKw ∧ k ≠ .ifKw ∧ k ≠ .whileKw
  | _ => true

/-- In the first sequence, with these terminals around it, a pair of parentheses encloses an
expression that fits its place. The second sequence is without the pair. -/
def DropsPair (pre post ts us : List Terminal) : Prop :=
  ∃ before inner after e,
    ts = before ++ .symbol .openParen :: (inner ++ .symbol .closeParen :: after) ∧
    us = before ++ (inner ++ after) ∧ groups (pre ++ before) = true ∧
    FormsExpr (placeLevel (pre ++ before) (after ++ post)) inner e

@[simp]
theorem endsOperand_concat (t : Terminal) : endsOperand (ts ++ [t]) = t.endsOperand := by
  simp [endsOperand]

@[simp]
theorem levelBehind_concat (s : Symbol) :
    levelBehind (ts ++ [.symbol s]) =
      if endsOperand ts then s.level?.elim 0 (· + 1)
      else if s = .not ∨ s = .minus then 6 else 0 := by
  simp [levelBehind]

theorem Grammar.FormsExpr.balanced {k : Nat} {e : Expr} (h : FormsExpr k ts e) : Balanced ts :=
  (spelledExpr_of_formsExpr h).respells.balanced

/-- There is no parenthesis among the terminals. -/
def isPlain (ts : List Terminal) : Bool := ts.all (!·.isParen)

theorem balanced_of_isPlain (h : isPlain ts = true) : Balanced ts := by
  induction ts with
  | nil => exact .nil
  | cons _ _ ih =>
    simp only [isPlain, all_cons, Bool.and_eq_true, Bool.not_eq_true'] at h
    exact .plain h.1 (ih h.2)

theorem isPlain_append (h : isPlain ts = true) (h' : isPlain us = true) :
    isPlain (ts ++ us) = true := by
  unfold isPlain at h h' ⊢
  rw [all_append, h, h']
  rfl

namespace DropsPair

theorem isPlain_eq_false (h : DropsPair pre post ts us) : isPlain ts = false := by
  obtain ⟨_, _, _, _, rfl, -⟩ := h
  simp [isPlain, Terminal.isParen, Symbol.isParen]

theorem not_isPlain (h : DropsPair pre post ts us) : isPlain ts ≠ true := by
  rw [h.isPlain_eq_false]
  nofun

/-- The pair is opened here, or it lies behind. -/
theorem cons_cases {t : Terminal} (h : DropsPair pre post (t :: us) vs) :
    (∃ inner after e, t = .symbol .openParen ∧ us = inner ++ .symbol .closeParen :: after ∧
      vs = inner ++ after ∧ groups pre = true ∧
      FormsExpr (placeLevel pre (after ++ post)) inner e) ∨
      ∃ us', DropsPair (pre ++ [t]) post us us' ∧ vs = t :: us' := by
  obtain ⟨before, inner, after, e, hsplit, rfl, hgroups, hfits⟩ := h
  cases before with
  | nil =>
    obtain ⟨rfl, rfl⟩ := cons.inj hsplit
    rw [append_nil] at hgroups hfits
    exact .inl ⟨inner, after, e, rfl, rfl, rfl, hgroups, hfits⟩
  | cons _ before =>
    obtain ⟨rfl, hrest⟩ := cons.inj hsplit
    rw [append_cons] at hgroups hfits
    exact .inr ⟨_, ⟨before, inner, after, e, hrest, rfl, hgroups, hfits⟩, rfl⟩

/-- Of two parts, the pair lies in the first or in the second. -/
theorem append_cases (h : DropsPair pre post (ts ++ us) vs) (hts : Balanced ts) :
    (∃ ts', DropsPair pre (us ++ post) ts ts' ∧ vs = ts' ++ us) ∨
      ∃ us', DropsPair (pre ++ ts) post us us' ∧ vs = ts ++ us' := by
  obtain ⟨before, inner, after, e, hsplit, rfl, hgroups, hfits⟩ := h
  obtain ⟨between, rfl, rfl⟩ | ⟨between, rfl, hus⟩ := append_eq_append_iff.mp hsplit
  · rw [← append_assoc] at hgroups hfits
    exact .inr ⟨_, ⟨between, inner, after, e, rfl, rfl, hgroups, hfits⟩, append_assoc ..⟩
  cases between with
  | nil =>
    rw [append_nil] at *
    rw [← append_nil (pre ++ before)] at hgroups hfits
    exact .inr ⟨_, ⟨[], inner, after, e, hus.symm, rfl, hgroups, hfits⟩, rfl⟩
  | cons =>
    -- The pair is opened in the first part, so it is closed there.
    obtain rfl := (cons.inj hus).1
    obtain ⟨_, rest, hinner', rfl⟩ := hts.exists_match rfl
    rw [cons_append, append_assoc, cons_append] at hus
    obtain ⟨rfl, rfl⟩ := hfits.balanced.match_unique hinner' (cons.inj hus).2
    rw [append_assoc] at hfits
    exact .inl ⟨_, ⟨before, inner, rest, e, rfl, rfl, hgroups, hfits⟩, by simp⟩

/-- The pair is not among terminals without parentheses in front. -/
theorem skip (h : DropsPair pre post (ts ++ us) vs) (hts : isPlain ts = true) :
    ∃ us', DropsPair (pre ++ ts) post us us' ∧ vs = ts ++ us' := by
  obtain ⟨_, hd, -⟩ | hd := h.append_cases (balanced_of_isPlain hts)
  · exact absurd hts hd.not_isPlain
  · exact hd

/-- The pair lies between terminals without parentheses. -/
theorem between {ws ws' : List Terminal} (ts vs : List Terminal) {t : Terminal}
    (h : DropsPair pre post ws ws') (hws : ws = ts ++ t :: (us ++ vs))
    (hts : isPlain (ts ++ [t]) = true) (hus : Balanced us) (hvs : isPlain vs = true) :
    ∃ us' pre', endsOperand pre' = t.endsOperand ∧ DropsPair pre' (vs ++ post) us us' ∧
      ws' = ts ++ t :: (us' ++ vs) := by
  rw [append_cons] at hws
  subst hws
  obtain ⟨_, hd, rfl⟩ := h.skip hts
  obtain ⟨us', hin, rfl⟩ | ⟨_, hin, -⟩ := hd.append_cases hus
  · refine ⟨us', _, ?_, hin, (append_cons ..).symm⟩
    rw [← append_assoc, endsOperand_concat]
  · exact absurd hvs hin.not_isPlain

/-- The pair is a given one, or it lies inside of that one or behind it. -/
theorem nest_cases (h : DropsPair pre post
      (.symbol .openParen :: (ts ++ .symbol .closeParen :: us)) vs)
    (hts : Balanced ts) :
    (groups pre = true ∧ (∃ e, FormsExpr (placeLevel pre (us ++ post)) ts e) ∧ vs = ts ++ us) ∨
      (∃ ts', DropsPair (pre ++ [.symbol .openParen]) (.symbol .closeParen :: us ++ post) ts ts' ∧
        vs = .symbol .openParen :: (ts' ++ .symbol .closeParen :: us)) ∨
      ∃ us' pre', DropsPair pre' post us us' ∧
        vs = .symbol .openParen :: (ts ++ .symbol .closeParen :: us') := by
  obtain ⟨_, _, e, -, heq, rfl, hgroups, hfits⟩ | ⟨_, hd, rfl⟩ := h.cons_cases
  · obtain ⟨rfl, rfl⟩ := hts.match_unique hfits.balanced heq
    exact .inl ⟨hgroups, ⟨e, hfits⟩, rfl⟩
  obtain ⟨ts', hinside, rfl⟩ | ⟨_, hbehind, rfl⟩ := hd.append_cases hts
  · exact .inr (.inl ⟨ts', hinside, rfl⟩)
  · obtain ⟨_, _, _, hparen, -⟩ | ⟨us', hbehind', rfl⟩ := hbehind.cons_cases
    · cases hparen
    · exact .inr (.inr ⟨us', _, hbehind', rfl⟩)

/-- The pair lies in the parentheses of a call or a condition, or behind them. -/
theorem call {ws ws' : List Terminal} (ts : List Terminal) (h : DropsPair pre post ws ws')
    (hws : ws = ts ++ .symbol .openParen :: (us ++ .symbol .closeParen :: vs))
    (hts : isPlain ts = true) (hgroups : groups (pre ++ ts) = false) (hus : Balanced us) :
    (∃ us' pre' post', endsOperand pre' = false ∧ DropsPair pre' post' us us' ∧
      ws' = ts ++ .symbol .openParen :: (us' ++ .symbol .closeParen :: vs)) ∨
      ∃ vs' pre', DropsPair pre' post vs vs' ∧
        ws' = ts ++ .symbol .openParen :: (us ++ .symbol .closeParen :: vs') := by
  subst hws
  obtain ⟨_, hd, rfl⟩ := h.skip hts
  obtain ⟨hgroups', -⟩ | ⟨us', hin, rfl⟩ | ⟨vs', pre', hin, rfl⟩ := hd.nest_cases hus
  · rw [hgroups] at hgroups'
    cases hgroups'
  · exact .inl ⟨us', _, _, endsOperand_concat _, hin, rfl⟩
  · exact .inr ⟨vs', pre', hin, rfl⟩

theorem args {ws ws' : List Terminal} (ts : List Terminal) (h : DropsPair pre post ws ws')
    (hws : ws = ts ++ .symbol .openParen :: (us ++ .symbol .closeParen :: vs))
    (hts : isPlain ts = true) (hgroups : groups (pre ++ ts) = false) (hus : Balanced us)
    (hvs : isPlain vs = true) :
    ∃ us' pre' post', endsOperand pre' = false ∧ DropsPair pre' post' us us' ∧
      ws' = ts ++ .symbol .openParen :: (us' ++ .symbol .closeParen :: vs) := by
  obtain hin | ⟨vs', pre', hin, -⟩ := h.call ts hws hts hgroups hus
  · exact hin
  · exact absurd hvs hin.not_isPlain

end DropsPair

/-! ## Tokens decide the expression -/

/-- A stream in front of terminals of the grammar. -/
theorem exists_at (h : ∀ t ∈ ts, t ≠ .invalid ∧ t ≠ .endOfFile) :
    ∃ s : TokenStream, s.At (ts ++ [.endOfFile]) ∧ s.current.diagnostic? = none := by
  induction ts with
  | nil =>
    let last : Token := ⟨.endOfFile, "", Span.builtin⟩
    exact ⟨⟨last, [], 0, []⟩, ⟨⟨[], last, rfl, rfl, nofun⟩, rfl, nofun, rfl⟩, rfl⟩
  | cons t _ ih =>
    obtain ⟨⟨hvalid, hmore⟩, hts⟩ := forall_mem_cons.mp h
    obtain ⟨s, ⟨⟨front, last, hsplit, hlast, hfront⟩, hterminals, hquiet⟩, hcurrent⟩ := ih hts
    let first : Token := ⟨t.kind, t.text, Span.builtin⟩
    obtain ⟨hterminal, hkind, hfirst⟩ :
        first.terminal = t ∧ first.kind ≠ .endOfFile ∧ first.diagnostic? = none := by
      cases t with
      | invalid => exact absurd rfl hvalid
      | endOfFile => exact absurd rfl hmore
      | _ => exact ⟨rfl, nofun, rfl⟩
    refine ⟨⟨first, s.current :: s.upcoming, 0, []⟩,
      ⟨⟨first :: front, last, ?_, hlast, ?_⟩, ?_, ?_, rfl⟩, hfirst⟩
    · exact congrArg (List.cons first) hsplit
    · exact forall_mem_cons.mpr ⟨hkind, hfront⟩
    · exact congrArg₂ List.cons hterminal hterminals
    · exact forall_mem_cons.mpr ⟨hcurrent, hquiet.valid⟩

variable {e e' : Expr} {k n : Nat}

theorem bare_eq_of_formsExpr (h : FormsExpr 0 ts e) (h' : FormsExpr 0 ts e') :
    e.bare = e'.bare := by
  obtain ⟨_, hs, -⟩ := exists_at (spelledExpr_of_formsExpr h).respells.proper
  have hends : Ends 0 [.endOfFile] := by
    rintro _ ⟨⟩
    exact id
  obtain ⟨_, _, hrun, hbare, -⟩ := complete_expr _ h hends hs (Nat.le_refl _)
  obtain ⟨_, _, hrun', hbare', -⟩ := complete_expr _ h' hends hs (Nat.le_refl _)
  rw [hrun] at hrun'
  cases hrun'
  exact hbare.symm.trans hbare'

theorem Expr.level_bare (e : Expr) : e.bare.level = e.level := by
  cases e <;> rfl

/-- Where its tokens fit, an expression is of the level of the place or in parentheses. -/
theorem level_or_inParens_of_formsExpr (h : FormsExpr k ts e) :
    k ≤ 7 ∧ (k ≤ e.level ∨ ∃ us, Balanced us ∧ ts = inParens us) := by
  induction h using FormsExpr.induct with
  | binary hop => exact ⟨by cases hop <;> decide, .inl hop.eq.1.le⟩
  | tighter _ ih => exact ⟨by omega, ih.2.imp_left Nat.le_of_succ_le⟩
  | unary => exact ⟨by omega, .inl (Nat.le_refl _)⟩
  | paren h => exact ⟨Nat.le_refl _, .inr ⟨_, h.balanced, rfl⟩⟩
  | _ => exact ⟨Nat.le_refl _, .inl (Nat.le_refl _)⟩

/-- An expression of the level of a place, or in parentheses, fits there. -/
theorem formsExpr_of_level (h : FormsExpr n ts e) (hk : k ≤ 7)
    (hlevel : k ≤ e.level ∨ ∃ us, Balanced us ∧ ts = inParens us) : FormsExpr k ts e := by
  induction h using FormsExpr.induct with
  | binary hop hleft hright =>
    obtain hlevel | ⟨inner, hinner, heq⟩ := hlevel
    · obtain ⟨rfl, -⟩ := hop.eq
      exact (FormsExpr.binary hop hleft hright).looser hlevel
    · have hne := ne_nil_of_length_pos (formsExpr_ne_nil hleft)
      cases hleft.balanced.eq_nil_of_inParens hne hinner heq
  | tighter _ ih => exact ih hlevel
  | unary hop h =>
    obtain hlevel | ⟨inner, -, heq⟩ := hlevel
    · exact (FormsExpr.unary hop h).looser hlevel
    · cases hop <;> cases heq
  | number hrange => exact (FormsExpr.number hrange).looser hk
  | true => exact FormsExpr.true.looser hk
  | false => exact FormsExpr.false.looser hk
  | null => exact FormsExpr.null.looser hk
  | paren h => exact (FormsExpr.paren h).looser hk
  | newObject => exact FormsExpr.newObject.looser hk
  | newArray h => exact (FormsExpr.newArray h).looser hk
  | newIntArray h => exact (FormsExpr.newIntArray h).looser hk
  | ref h => exact (FormsExpr.ref h).looser hk
  | index htarget hposition => exact (FormsExpr.index htarget hposition).looser hk
  | callNone hmethod => exact (FormsExpr.callNone hmethod).looser hk
  | call hmethod hargs => exact (FormsExpr.call hmethod hargs).looser hk

/-- The tokens of an expression, and not the expression, decide where they fit. -/
theorem formsExpr_of_fits (h : FormsExpr 0 ts e) (hfits : FormsExpr k ts e') :
    FormsExpr k ts e := by
  obtain ⟨hk, hlevel⟩ := level_or_inParens_of_formsExpr hfits
  have hbare := bare_eq_of_formsExpr h (hfits.looser (Nat.zero_le _))
  rw [← e'.level_bare, ← hbare, e.level_bare] at hlevel
  exact formsExpr_of_level h hk hlevel

/-! ## Expressions -/

theorem isPlain_of_formsRef {r : Ref} (h : FormsRef ts r) : isPlain ts = true := by
  induction h with
  | member _ ih => exact isPlain_append ih rfl
  | _ => rfl

theorem endsOperand_append (h : endsOperand us = true) : endsOperand (ts ++ us) = true := by
  unfold endsOperand at h ⊢
  rw [getLast?_append]
  cases hlast : us.getLast? with
  | none =>
    rw [hlast] at h
    cases h
  | some _ => rwa [hlast] at h

/-- A parenthesis behind a reference opens the arguments of a call. -/
theorem endsRef {r : Ref} (h : FormsRef ts r) :
    endsOperand ts = true ∧ groups (pre ++ ts) = false := by
  cases h with
  | this | name | member => simp [endsOperand, groups, Terminal.endsOperand]

theorem endsOperand_of_formsExpr (h : FormsExpr k ts e) : endsOperand ts = true := by
  induction h using FormsExpr.induct with
  | binary _ _ _ _ ih => exact endsOperand_append (@endsOperand_append [_] _ ih)
  | tighter _ ih => exact ih
  | unary _ _ ih => exact @endsOperand_append [_] _ ih
  | ref h => exact (@endsRef _ [] _ h).1
  | callNone => simp [endsOperand, Terminal.endsOperand]
  | number | true | false | null | newObject => rfl
  | _ => exact endsOperand_concat _

theorem Grammar.BinaryAt.level? {op : BinaryOp} {s : Symbol} (h : BinaryAt n s op) :
    s.level? = some n ∧ (Terminal.symbol s).endsOperand = false ∧
      isPlain [.symbol s] = true := by
  cases h <;> exact ⟨rfl, rfl, rfl⟩

/-- What follows of an expression if a pair of parentheses is dropped in it. -/
def KeepsExpr (n : Nat) (ts : List Terminal) (e : Expr) : Prop :=
  ∀ pre post us, endsOperand pre = false → DropsPair pre post ts us →
    FormsExpr n us e ∨ FormsExpr (placeLevel pre post) us e

theorem KeepsExpr.forms (h : KeepsExpr n ts e) (hpre : endsOperand pre = false)
    (hd : DropsPair pre post ts us) (hn : n ≤ placeLevel pre post) : FormsExpr n us e := by
  obtain hforms | hforms := h pre post us hpre hd
  · exact hforms
  · exact hforms.looser hn

theorem separated_of_drops {args : List Expr}
    (h : Separated (fun ts e => FormsExpr 0 ts e ∧ KeepsExpr 0 ts e) ts args)
    (hpre : endsOperand pre = false) (hd : DropsPair pre post ts us) :
    Separated (FormsExpr 0) us args := by
  induction h generalizing pre us with
  | single ha => exact .single (ha.2.forms hpre hd (Nat.zero_le _))
  | cons ha has ih =>
    obtain ⟨_, hfirst, rfl⟩ | ⟨_, hrest, rfl⟩ := hd.append_cases ha.1.balanced
    · exact .cons (ha.2.forms hpre hfirst (Nat.zero_le _)) (has.mono fun _ _ h => h.1)
    · obtain ⟨_, hothers, rfl⟩ := @DropsPair.skip [.symbol .comma] _ _ _ _ hrest rfl
      exact .cons ha.1 (ih (endsOperand_concat _) hothers)

/-- An expression that loses a redundant pair is still the same one. -/
theorem keepsExpr_of_formsExpr (h : FormsExpr n ts e) : KeepsExpr n ts e := by
  induction h using FormsExpr.induct with
  | @binary n ts us s op span left right hop hleft hright ihl ihr =>
    intro pre post _ hpre hd
    obtain ⟨hlevel, hsymbol, hplain⟩ := hop.level?
    refine .inl ?_
    obtain ⟨_, hl, rfl⟩ | ⟨_, hr, rfl⟩ := hd.append_cases hleft.balanced
    · refine .binary hop (ihl.forms hpre hl ?_) hright
      simp [placeLevel, levelBefore, hlevel]
    · obtain ⟨_, hr', rfl⟩ := @DropsPair.skip [.symbol s] _ _ _ _ hr hplain
      refine .binary hop hleft (ihr.forms ((endsOperand_concat _).trans hsymbol) hr' ?_)
      have hoperand := @endsOperand_append pre _ (endsOperand_of_formsExpr hleft)
      rw [placeLevel, levelBehind_concat, hoperand, if_pos rfl, hlevel]
      exact Nat.le_max_left _ _
  | tighter _ ih =>
    intro pre post us hpre hd
    exact (ih pre post us hpre hd).imp_left .tighter
  | @unary ts s op span operand hop h ih =>
    intro pre post us hpre hd
    obtain ⟨_, hin, rfl⟩ := @DropsPair.skip [.symbol s] _ _ _ _ hd (by cases hop <;> rfl)
    refine .inl (.unary hop (ih.forms ?_ hin ?_))
    · cases hop <;> exact endsOperand_concat _
    · cases hop <;> simp [placeLevel, hpre]
  | paren h ih =>
    intro pre post us hpre hd
    -- The pair is this one, or it lies inside; nothing stands behind it.
    obtain ⟨-, ⟨_, hfits⟩, rfl⟩ | ⟨_, hin, rfl⟩ | ⟨_, _, hin, -⟩ := hd.nest_cases h.balanced
    · rw [append_nil]
      exact .inr ((formsExpr_of_fits h hfits).withSpan _)
    · exact .inl (.paren (ih.forms (endsOperand_concat _) hin (Nat.zero_le _)))
    · exact absurd rfl hin.not_isPlain
  | newArray h ih =>
    intro pre post us hpre hd
    obtain ⟨_, _, hpre', hin, rfl⟩ := hd.between [_, _] [_] rfl rfl h.balanced rfl
    exact .inl (.newArray (ih.forms hpre' hin (Nat.zero_le _)))
  | newIntArray h ih =>
    intro pre post us hpre hd
    obtain ⟨_, _, hpre', hin, rfl⟩ := hd.between [_, _] [_] rfl rfl h.balanced rfl
    exact .inl (.newIntArray (ih.forms hpre' hin (Nat.zero_le _)))
  | index htarget hposition ih =>
    intro pre post _ hpre hd
    obtain ⟨_, _, hpre', hin, rfl⟩ := hd.between _ [_] (append_assoc ..)
      (isPlain_append (isPlain_of_formsRef htarget) rfl) hposition.balanced rfl
    refine .inl ?_
    simpa using FormsExpr.index htarget (ih.forms hpre' hin (Nat.zero_le _))
  | callNone hmethod =>
    intro pre post us hpre hd
    obtain ⟨_, _, _, -, hin, -⟩ :=
      hd.args _ rfl (isPlain_of_formsRef hmethod) (endsRef hmethod).2 .nil rfl
    exact absurd rfl hin.not_isPlain
  | call hmethod hargs ih =>
    intro _ _ _ _ hd
    obtain ⟨_, _, _, hpre', hin, rfl⟩ := hd.args _ (append_assoc ..)
      (isPlain_of_formsRef hmethod) (endsRef hmethod).2 (spelled_args_of_forms hargs).2.balanced rfl
    have hargs' := separated_of_drops (ih.mono fun _ _ ⟨h, hk⟩ => ⟨h, hk⟩) hpre' hin
    exact .inl (by simpa using FormsExpr.call hmethod hargs')
  | number | true | false | null => exact fun _ _ _ _ hd => absurd rfl hd.not_isPlain
  | newObject =>
    intro _ _ _ _ hd
    obtain ⟨_, _, _, -, hin, -⟩ :=
      hd.args [.keyword .newKw, .identifier _] rfl rfl (by simp [groups]) .nil rfl
    exact absurd rfl hin.not_isPlain
  | ref h => exact fun _ _ _ _ hd => absurd (isPlain_of_formsRef h) hd.not_isPlain

theorem formsExpr_of_drops (h : FormsExpr 0 ts e) (hpre : endsOperand pre = false)
    (hd : DropsPair pre post ts us) : FormsExpr 0 us e :=
  (keepsExpr_of_formsExpr h).forms hpre hd (Nat.zero_le _)

theorem args_of_drops {args : List Expr} (h : Separated (FormsExpr 0) ts args)
    (hpre : endsOperand pre = false) (hd : DropsPair pre post ts us) :
    Separated (FormsExpr 0) us args :=
  separated_of_drops (h.mono fun _ _ h => ⟨h, keepsExpr_of_formsExpr h⟩) hpre hd

/-! ## Statements -/

theorem isPlain_of_formsType {t : Ty} (h : FormsType ts t) : isPlain ts = true := by
  cases h <;> rfl

theorem many_of_drops {α : Type} {L : Nonterminal α}
    (hL : ∀ ts a, L ts a → Balanced ts ∧ ∀ pre post us, DropsPair pre post ts us → L us a)
    {as : List α} (h : Many L ts as) (hd : DropsPair pre post ts us) : Many L us as := by
  induction h generalizing pre us with
  | nil => exact absurd rfl hd.not_isPlain
  | cons ha has ih =>
    obtain ⟨hbalanced, hkeeps⟩ := hL _ _ ha
    obtain ⟨_, hfirst, rfl⟩ | ⟨_, hrest, rfl⟩ := hd.append_cases hbalanced
    · exact .cons (hkeeps _ _ _ hfirst) has
    · exact .cons ha (ih hrest)

mutual

/-- A statement that loses a redundant pair is still the same one. -/
theorem formsStmt_of_drops (a : Stmt) {pre post ts us : List Terminal} (h : FormsStmt ts a)
    (hd : DropsPair pre post ts us) : FormsStmt us a := by
  cases h with
  | block hbody =>
    rename_i span body
    obtain ⟨_, _, -, hin, rfl⟩ :=
      hd.between [] [_] rfl rfl (spelled_stmts body hbody).2.balanced rfl
    exact .block (formsStmts_of_drops body hbody hin)
  | @declare ts _ _ _ name _ htype hinit =>
    obtain ⟨_, _, hpre, hin, rfl⟩ := hd.between (ts ++ [.identifier name.value])
      [.symbol .semicolon] (by simp; rfl)
      (isPlain_append (isPlain_append (isPlain_of_formsType htype) rfl) rfl) hinit.balanced rfl
    simpa using FormsStmt.declare htype (formsExpr_of_drops hinit hpre hin)
  | assign htarget hvalue =>
    obtain ⟨_, _, hpre, hin, rfl⟩ := hd.between _ [_] (append_assoc ..)
      (isPlain_append (isPlain_of_formsRef htarget) rfl) hvalue.balanced rfl
    simpa using FormsStmt.assign htarget (formsExpr_of_drops hvalue hpre hin)
  | @assignIndex ts ps vs _ _ _ _ htarget hposition hvalue =>
    -- The pair lies in the index, behind `[`, or in the value, behind `] =`.
    have hparts : DropsPair pre post ((ts ++ [.symbol .openBracket]) ++ (ps ++
        (.symbol .closeBracket :: .symbol .assign :: (vs ++ [.symbol .semicolon])))) us := by
      simpa using hd
    obtain ⟨_, hrest, rfl⟩ := hparts.skip (isPlain_append (isPlain_of_formsRef htarget) rfl)
    obtain ⟨_, hin, rfl⟩ | ⟨_, hrest', rfl⟩ := hrest.append_cases hposition.balanced
    · rw [← append_assoc] at hin
      have hforms := formsExpr_of_drops hposition (endsOperand_concat _) hin
      simpa using FormsStmt.assignIndex htarget hforms hvalue
    · obtain ⟨_, _, hpre, hin, rfl⟩ := hrest'.between [_] [_] rfl rfl hvalue.balanced rfl
      simpa using FormsStmt.assignIndex htarget hposition (formsExpr_of_drops hvalue hpre hin)
  | callNone hmethod =>
    obtain ⟨_, _, _, -, hin, -⟩ :=
      hd.args _ rfl (isPlain_of_formsRef hmethod) (endsRef hmethod).2 .nil rfl
    exact absurd rfl hin.not_isPlain
  | call hmethod hargs =>
    obtain ⟨_, _, _, hpre, hin, rfl⟩ := hd.args _ (append_assoc ..)
      (isPlain_of_formsRef hmethod) (endsRef hmethod).2 (spelled_args_of_forms hargs).2.balanced rfl
    simpa using FormsStmt.call hmethod (args_of_drops hargs hpre hin)
  | retNone => exact absurd rfl hd.not_isPlain
  | ret hvalue =>
    obtain ⟨_, _, hpre, hin, rfl⟩ := hd.between [] [_] rfl rfl hvalue.balanced rfl
    exact .ret (formsExpr_of_drops hvalue hpre hin)
  | ifThen htest hthen =>
    rename_i span test thenBranch
    obtain ⟨_, _, _, hpre', hin, rfl⟩ | ⟨_, _, hin, rfl⟩ :=
      hd.call [.keyword .ifKw] rfl rfl (by simp [groups]) htest.balanced
    · exact .ifThen (formsExpr_of_drops htest hpre' hin) hthen
    · exact .ifThen htest (formsStmt_of_drops thenBranch hthen hin)
  | ifThenElse htest hthen helse =>
    rename_i span test thenBranch elseBranch
    obtain ⟨_, _, _, hpre', hin, rfl⟩ | ⟨_, _, hrest, rfl⟩ :=
      hd.call [.keyword .ifKw] (by simp; rfl) rfl (by simp [groups]) htest.balanced
    · simpa using FormsStmt.ifThenElse (formsExpr_of_drops htest hpre' hin) hthen helse
    obtain ⟨_, hin, rfl⟩ | ⟨_, hrest', rfl⟩ :=
      hrest.append_cases (spelled_stmt thenBranch hthen).2.balanced
    · simpa using FormsStmt.ifThenElse htest (formsStmt_of_drops thenBranch hthen hin) helse
    · obtain ⟨_, hin, rfl⟩ := @DropsPair.skip [.keyword .elseKw] _ _ _ _ hrest' rfl
      simpa using FormsStmt.ifThenElse htest hthen (formsStmt_of_drops elseBranch helse hin)
  | loop htest hbody =>
    rename_i span test body
    obtain ⟨_, _, _, hpre', hin, rfl⟩ | ⟨_, _, hin, rfl⟩ :=
      hd.call [.keyword .whileKw] rfl rfl (by simp [groups]) htest.balanced
    · exact .loop (formsExpr_of_drops htest hpre' hin) hbody
    · exact .loop htest (formsStmt_of_drops body hbody hin)

theorem formsStmts_of_drops (as : List Stmt) {pre post ts us : List Terminal}
    (h : Many FormsStmt ts as) (hd : DropsPair pre post ts us) : Many FormsStmt us as := by
  cases h with
  | nil => exact absurd rfl hd.not_isPlain
  | cons ha has =>
    rename_i a as
    obtain ⟨_, hfirst, rfl⟩ | ⟨_, hrest, rfl⟩ := hd.append_cases (spelled_stmt a ha).2.balanced
    · exact .cons (formsStmt_of_drops a ha hfirst) has
    · exact .cons ha (formsStmts_of_drops as has hrest)

end

/-! ## Classes -/

theorem isPlain_of_formsParams {params : List Param} (h : FormsParams ts params) :
    isPlain ts = true := by
  cases h with
  | none => rfl
  | some h =>
    induction h with
    | single ha =>
      obtain ⟨htype⟩ := ha
      exact isPlain_append (isPlain_of_formsType htype) rfl
    | cons ha _ ih =>
      obtain ⟨htype⟩ := ha
      exact isPlain_append (isPlain_append (isPlain_of_formsType htype) rfl) ih

/-- What stands in front of the name of a member. -/
theorem isPlain_of_modifiers {vs ss : List Terminal} {isPrivate isStatic : Bool} {t : Ty}
    (haccess : FormsAccess vs isPrivate) (hstatic : FormsStatic ss isStatic)
    (hresult : FormsResult ts t) : isPlain (vs ++ ss ++ ts) = true := by
  refine isPlain_append (isPlain_append ?_ ?_) ?_
  · cases haccess <;> rfl
  · cases hstatic <;> rfl
  · cases hresult with
    | void => rfl
    | type h => exact isPlain_of_formsType h

theorem formsMember_of_drops {owner : String} {a : Member} (h : FormsMember owner ts a)
    (hd : DropsPair pre post ts us) : FormsMember owner us a := by
  cases h with
  | field haccess hstatic htype =>
    have hplain := isPlain_of_modifiers haccess hstatic (.type htype)
    exact absurd (isPlain_append hplain rfl) hd.not_isPlain
  | @method vs ss ts ps bs _ _ _ _ name _ body haccess hstatic hreturns hparams hbody =>
    have hplain := isPlain_of_modifiers haccess hstatic hreturns
    have hps := isPlain_of_formsParams hparams
    obtain ⟨_, _, _, -, hin, -⟩ | ⟨_, _, hrest, rfl⟩ :=
      hd.call (vs ++ ss ++ ts ++ [.identifier name.value]) (by simp; rfl)
        (isPlain_append hplain rfl) (by simp [groups]) (balanced_of_isPlain hps)
    · exact absurd hps hin.not_isPlain
    · obtain ⟨_, _, -, hin, rfl⟩ :=
        hrest.between [] [_] rfl rfl (spelled_stmts body hbody).2.balanced rfl
      have hbody' := formsStmts_of_drops body hbody hin
      simpa using FormsMember.method haccess hstatic hreturns hparams hbody'

theorem formsClass_of_drops {c : ClassDecl} (h : FormsClass ts c) (hd : DropsPair pre post ts us) :
    FormsClass us c := by
  obtain ⟨hmembers⟩ := h
  obtain ⟨_, _, -, hin, rfl⟩ :=
    hd.between [_, _] [_] rfl rfl (spelled_members hmembers).2.2.balanced rfl
  refine .mk (many_of_drops (fun _ _ hmember => ?_) hmembers hin)
  exact ⟨(spelled_member hmember).2.balanced, fun _ _ _ => formsMember_of_drops hmember⟩

/-- A pair of parentheses that its place does not need can be dropped. -/
theorem formsProgram_of_drops {p : Program} (h : FormsProgram ts p) (hd : DropsPair [] [] ts us) :
    FormsProgram us p := by
  obtain ⟨hclasses⟩ := h
  have hbalanced := (spelled_many (fun _ _ => spelled_class) hclasses).2.balanced
  obtain ⟨_, hin, rfl⟩ | ⟨_, hin, -⟩ := hd.append_cases hbalanced
  · refine .mk (many_of_drops (fun _ _ hclass => ?_) hclasses hin)
    exact ⟨(spelled_class hclass).2.balanced, fun _ _ _ => formsClass_of_drops hclass⟩
  · exact absurd rfl hin.not_isPlain

end MiniJava
