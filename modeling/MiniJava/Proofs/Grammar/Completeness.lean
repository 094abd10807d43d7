import MiniJava.Proofs.Grammar.Reading

/-!
# What follows the grammar is read

In front of tokens that form something, and behind them a token with which they cannot go on, the
parser takes just these tokens and gives what they form, but for the ranges.

`Parser.Reads` says this of one stream, and has a rule for each step of a parser.
-/

namespace MiniJava

open Grammar List

/-! ## Trees that differ in ranges only -/

@[simp]
theorem Ref.bare_withSpan (span : Span) (r : Ref) : (r.withSpan span).bare = r.bare := by
  cases r <;> rfl

@[simp]
theorem Expr.bare_withSpan (span : Span) (e : Expr) : (e.withSpan span).bare = e.bare := by
  cases e <;> simp [Expr.withSpan, Expr.bare]

theorem Expr.bareOf_eq_map (es : List Expr) : Expr.bareOf es = es.map Expr.bare := by
  induction es with
  | nil => rfl
  | cons _ _ ih => rw [Expr.bareOf, ih, map_cons]

theorem Stmt.bareOf_eq_map (ss : List Stmt) : Stmt.bareOf ss = ss.map Stmt.bare := by
  induction ss with
  | nil => rfl
  | cons _ _ ih => rw [Stmt.bareOf, ih, map_cons]

/-- The same member with no ranges. -/
def Grammar.Member.bare : Member → Member
  | field decl => field decl.bare
  | method decl => method decl.bare

/-! ## Where something ends -/

variable {ts us : List Terminal} {kind : TokenKind} {sym : Symbol} {k m : Nat} {e : Expr}
  {op : BinaryOp} {r : Ref}

namespace Grammar

/-- With this token, an expression of the level would go on. -/
def Continues (k : Nat) : Terminal → Prop
  | .symbol s => s = .dot ∨ s = .openBracket ∨ s = .openParen ∨ ∃ j op, k ≤ j ∧ BinaryAt j s op
  | _ => False

/-- An expression of the level ends in front of these tokens. -/
def Ends (k : Nat) (rest : List Terminal) : Prop := ∀ t ∈ rest.head?, ¬ Continues k t

theorem Ends.mono {j : Nat} {rest : List Terminal} (h : Ends k rest) (hkj : k ≤ j) :
    Ends j rest := by
  intro t ht hcontinues
  refine h t ht ?_
  cases t with
  | symbol =>
    obtain hs | hs | hs | ⟨i, op, hi, hop⟩ := hcontinues
    · exact .inl hs
    · exact .inr (.inl hs)
    · exact .inr (.inr (.inl hs))
    · exact .inr (.inr (.inr ⟨i, op, hkj.trans hi, hop⟩))
  | _ => exact hcontinues

/-- The marks with which the grammar closes an expression. -/
inductive Closes : Symbol → Prop
  | paren : Closes .closeParen
  | bracket : Closes .closeBracket
  | semicolon : Closes .semicolon
  | comma : Closes .comma

variable {s : Symbol}

theorem Closes.ends (h : Closes s) (k : Nat) (rest : List Terminal) :
    Ends k (.symbol s :: rest) := by
  rintro _ ⟨⟩
  rintro (hs | hs | hs | ⟨_, _, -, hop⟩)
  · subst hs; cases h
  · subst hs; cases h
  · subst hs; cases h
  · cases h <;> cases hop

/-- An operator belongs to one level. -/
theorem BinaryAt.level_unique {j : Nat} {op' : BinaryOp} (h : BinaryAt j s op)
    (h' : BinaryAt k s op') : j = k := by
  cases h <;> cases h' <;> rfl

theorem BinaryAt.ends (h : BinaryAt k s op) (rest : List Terminal) :
    Ends (k + 1) (.symbol s :: rest) := by
  rintro _ ⟨⟩
  rintro (hs | hs | hs | ⟨_, _, _, hop⟩)
  · subst hs; cases h
  · subst hs; cases h
  · subst hs; cases h
  · have := h.level_unique hop
    omega

/-- The tokens with which an expression without operators begins. -/
def StartsPrimary : Terminal → Prop
  | .number _ | .identifier _ => True
  | .symbol s => s = .openParen
  | .keyword k => k = .trueKw ∨ k = .falseKw ∨ k = .nullKw ∨ k = .newKw ∨ k = .thisKw
  | .endOfFile | .invalid => False

/-- The tokens with which an expression begins. -/
def StartsExpr (t : Terminal) : Prop :=
  StartsPrimary t ∨ t = .symbol .not ∨ t = .symbol .minus

theorem StartsExpr.not_closes (h : StartsExpr (.symbol s)) : ¬ Closes s := by
  intro hcloses
  cases hcloses <;> obtain h | h | h := h <;> cases h

theorem exists_head_of_formsRef (h : FormsRef ts r) :
    ∃ t us, ts = t :: us ∧ (t = .keyword .thisKw ∨ ∃ text, t = .identifier text) := by
  induction h with
  | this => exact ⟨_, _, rfl, .inl rfl⟩
  | name => exact ⟨_, _, rfl, .inr ⟨_, rfl⟩⟩
  | member _ ih =>
    obtain ⟨t, _, rfl, ht⟩ := ih
    exact ⟨t, _, rfl, ht⟩

theorem startsPrimary_of_ref {t : Terminal}
    (h : t = .keyword .thisKw ∨ ∃ text, t = .identifier text) : StartsPrimary t := by
  rcases h with rfl | ⟨_, rfl⟩
  · exact .inr (.inr (.inr (.inr rfl)))
  · trivial

/-- Levels end at 7, and an expression of that level begins without an operator. -/
theorem exists_head_of_formsExpr (h : FormsExpr k ts e) :
    k ≤ 7 ∧ ∃ t us, ts = t :: us ∧ StartsExpr t ∧ (k = 7 → StartsPrimary t) := by
  induction h using FormsExpr.induct with
  | binary hop _ _ ihleft =>
    -- The left operand begins the expression.
    obtain ⟨-, t, _, rfl, ht, -⟩ := ihleft
    cases hop <;> exact ⟨by decide, t, _, rfl, ht, nofun⟩
  | tighter _ ih =>
    obtain ⟨_, t, us, rfl, ht, -⟩ := ih
    exact ⟨by omega, t, us, rfl, ht, fun _ => by omega⟩
  | unary hop =>
    refine ⟨by decide, _, _, rfl, .inr ?_, nofun⟩
    cases hop with
    | not => exact .inl rfl
    | neg => exact .inr rfl
  | number | true | false | null | paren | newObject | newArray | newIntArray =>
    exact ⟨le_rfl, _, _, rfl, .inl (by simp [StartsPrimary]), fun _ => by simp [StartsPrimary]⟩
  | ref href | callNone href | index href _ _ | call href _ _ =>
    obtain ⟨t, _, rfl, ht⟩ := exists_head_of_formsRef href
    have hstarts := startsPrimary_of_ref ht
    exact ⟨le_rfl, t, _, rfl, .inl hstarts, fun _ => hstarts⟩

theorem formsExpr_ne_nil (h : FormsExpr k ts e) : 0 < ts.length := by
  obtain ⟨-, _, _, rfl, -⟩ := exists_head_of_formsExpr h
  exact Nat.succ_pos _

end Grammar

/-! ## Reading a stream -/

namespace TokenStream

theorem not_at_nil (s : TokenStream) : ¬ s.At [] := fun h => nomatch h.terminals

namespace At

variable {s : TokenStream} {t : Terminal} {rest : List Terminal}

theorem head? (h : s.At rest) (hkind : s.current.kind = kind) :
    rest.head? = some (kind.terminal s.current.text) := by
  rw [← h.terminals, ← hkind]
  rfl

/-- The class of the current token is not one that the stream does not stand at. -/
theorem kind_ne (h : s.At rest) (hne : ∀ text, rest.head? ≠ some (kind.terminal text)) :
    s.current.kind ≠ kind :=
  fun hkind => hne _ (h.head? hkind)

theorem symbol (h : s.At (.symbol sym :: rest)) : s.current.kind = .symbol sym :=
  Token.terminal_eq_symbol.mp h.current

theorem keyword {k : Keyword} (h : s.At (.keyword k :: rest)) : s.current.kind = .keyword k :=
  Token.terminal_eq_keyword.mp h.current

theorem identifier {text : String} (h : s.At (.identifier text :: rest)) :
    s.current.kind = .identifier ∧ s.current.text = text :=
  Token.terminal_eq_identifier.mp h.current

theorem number {digits : String} (h : s.At (.number digits :: rest)) :
    s.current.kind = .number ∧ s.current.text = digits :=
  Token.terminal_eq_number.mp h.current

end At

end TokenStream

namespace Parser

variable {α β γ δ : Type} {bare : α → γ} {bare' : β → δ} {s : TokenStream} {a : α} {b : β}
  {rest : List Terminal}

/-- The parser gives this value, but for ranges, and then stands in front of the rest. -/
def Reads (p : Parser α) (bare : α → γ) (s : TokenStream) (a : α) (rest : List Terminal) : Prop :=
  ∃ a' s', p s = (.ok a', s') ∧ bare a' = bare a ∧ s'.At rest

theorem reads_pure {a' : α} (h : bare a' = bare a) (hs : s.At rest) :
    Reads (pure a') bare s a rest := ⟨a', s, rfl, h, hs⟩

variable {mid : List Terminal}

theorem Reads.bind {p : Parser α} {f : α → Parser β} (h : Reads p bare s a mid)
    (hf : ∀ a' s', bare a' = bare a → s'.At mid → Reads (f a') bare' s' b rest) :
    Reads (p >>= f) bare' s b rest := by
  obtain ⟨a', s', hp, hbare, hs'⟩ := h
  obtain ⟨b', s'', hb, hbare', hs''⟩ := hf a' s' hbare hs'
  exact ⟨b', s'', (bind_apply_ok hp).trans hb, hbare', hs''⟩

theorem reads_spanFrom {f : Span → Parser β} (start : Span)
    (h : ∀ span, Reads (f span) bare' s b rest) : Reads (spanFrom start >>= f) bare' s b rest :=
  h _

theorem reads_here {f : Span → Parser β} (h : Reads (f s.current.span) bare' s b rest) :
    Reads (here >>= f) bare' s b rest := h

theorem reads_peek {f : TokenKind → Parser β} (hkind : s.current.kind = kind)
    (h : Reads (f kind) bare' s b rest) : Reads (peek >>= f) bare' s b rest := by
  subst hkind
  exact h

theorem reads_advance {f : Token → Parser β} (h : Reads (f s.current) bare' s.next b rest) :
    Reads (advance >>= f) bare' s b rest := h

theorem reads_expectSymbol {f : Unit → Parser β} (hs : s.At (.symbol sym :: mid))
    (h : ∀ s', s'.At mid → Reads (f ()) bare' s' b rest) :
    Reads (expectSymbol sym >>= f) bare' s b rest := by
  obtain ⟨b', s', hb, hrest⟩ := h s.next (hs.next nofun)
  exact ⟨b', s', (bind_apply_ok (expectSymbol_apply hs)).trans hb, hrest⟩

theorem reads_ident {f : Ident → Parser β} {text : String} (hs : s.At (.identifier text :: mid))
    (h : ∀ span s', s'.At mid → Reads (f ⟨text, span⟩) bare' s' b rest) :
    Reads (ident >>= f) bare' s b rest := by
  obtain ⟨b', s', hb, hrest⟩ := h s.current.span s.next (hs.next nofun)
  exact ⟨b', s', (bind_apply_ok (ident_apply hs)).trans hb, hrest⟩

theorem reads_accept_of_eq {f : Bool → Parser β} (hkind : s.current.kind = kind)
    (h : Reads (f true) bare' s.next b rest) :
    Reads (accept kind >>= f) bare' s b rest := by
  obtain ⟨b', s', hb, hrest⟩ := h
  exact ⟨b', s', (bind_apply_ok (accept_apply_of_eq hkind)).trans hb, hrest⟩

theorem reads_accept_of_ne {f : Bool → Parser β} (hkind : s.current.kind ≠ kind)
    (h : Reads (f false) bare' s b rest) :
    Reads (accept kind >>= f) bare' s b rest := by
  obtain ⟨b', s', hb, hrest⟩ := h
  exact ⟨b', s', (bind_apply_ok (accept_apply_of_ne hkind)).trans hb, hrest⟩

/-- On a stream of at most this length, the parser reads what is of the language, in front of all
that may stand behind it. -/
def Complete (n : Nat) (p : Parser α) (bare : α → γ) (L : Nonterminal α)
    (Stops : α → List Terminal → Prop) : Prop :=
  ∀ ⦃s : TokenStream⦄ ⦃ts : List Terminal⦄ (rest : List Terminal) ⦃a : α⦄, L ts a → Stops a rest →
    s.At (ts ++ rest) → (ts ++ rest).length ≤ n → Reads p bare s a rest

variable {n : Nat} {L : Nonterminal α} {Stops : α → List Terminal → Prop} {item : Parser α}

theorem Complete.bounded {p : Nat → Parser α} (h : ∀ n, Complete n (p n) bare L Stops) :
    Complete n (bounded p) bare L Stops := by
  intro s _ rest _ ha hstops hs _
  refine h (s.upcoming.length + 1) rest ha hstops hs ?_
  rw [← hs.terminals]
  exact Nat.le_of_eq (length_map _)

theorem complete_zero {p : Parser α} : Complete 0 p bare L Stops := by
  intro s _ _ _ _ _ hs hlength
  rw [eq_nil_of_length_eq_zero (Nat.le_zero.mp hlength)] at hs
  exact absurd hs s.not_at_nil

/-! ## Repetition -/

/-- A repetition reads as many items as stand in front of the symbol. -/
theorem complete_manyUntil (hitem : Complete n item bare L Stops)
    (hstarts : ∀ ts a, L ts a → ∃ t us, ts = t :: us ∧ t ≠ .symbol sym ∧
      ∀ b rest, Stops b (t :: rest)) (hclose : ∀ a rest, Stops a (.symbol sym :: rest))
    (hm : m ≤ n) :
    Complete m (manyUntil (.symbol sym) item m) (List.map bare)
      (fun ts as => ∃ us, ts = us ++ [.symbol sym] ∧ Many L us as) (fun _ _ => True) := by
  induction m with
  | zero => exact complete_zero
  | succ m ih =>
    rintro s _ rest as ⟨us, rfl, hmany⟩ - hs hlength
    cases hmany with
    | nil =>
      refine reads_accept_of_eq hs.symbol ?_
      exact reads_pure rfl (hs.next nofun)
    | cons ha has =>
      rename_i ts us a as
      obtain ⟨_, _, rfl, hfirst, -⟩ := hstarts ts a ha
      -- Behind an item there is the closing mark or another item.
      have hstops : Stops a (us ++ .symbol sym :: rest) := by
        cases has with
        | nil => exact hclose a _
        | cons hb =>
          obtain ⟨_, _, rfl, -, ht⟩ := hstarts _ _ hb
          exact ht a _
      refine reads_accept_of_ne (hs.kind_ne fun _ h => hfirst (Option.some.inj h)) ?_
      have hread := hitem (us ++ .symbol sym :: rest) ha hstops (by simpa using hs)
        (by simp at hlength ⊢; omega)
      refine hread.bind fun a' s₁ ha' hs₁ => ?_
      have hothers := ih (by omega) rest ⟨us, rfl, has⟩ trivial (by simpa using hs₁)
        (by simp at hlength ⊢; omega)
      refine hothers.bind fun as' s₂ has' hs₂ => ?_
      exact reads_pure (by simp [ha', has']) hs₂

theorem complete_commaSeparated (hitem : Complete n item bare L Stops)
    (hcomma : ∀ a rest, Stops a (.symbol .comma :: rest)) (hm : m ≤ n) :
    Complete m (commaSeparated item m) (List.map bare) (Separated L)
      (fun _ rest => rest.head? ≠ some (.symbol .comma) ∧ ∀ a, Stops a rest) := by
  induction m with
  | zero => exact complete_zero
  | succ m ih =>
    rintro s ts rest as h ⟨hnone, hstops⟩ hs hlength
    cases h with
    | single ha =>
      refine (hitem rest ha (hstops _) hs (hlength.trans hm)).bind fun a' s₁ ha' hs₁ => ?_
      refine reads_accept_of_ne (hs₁.kind_ne fun _ => hnone) ?_
      exact reads_pure (by simp [ha']) hs₁
    | cons ha has =>
      rename_i ts us a as
      -- A comma is no part of the first item, and tokens behind it are fewer.
      have hread := hitem (.symbol .comma :: us ++ rest) ha (hcomma a _) (by simpa using hs)
        (by simp at hlength ⊢; omega)
      refine hread.bind fun a' s₁ ha' hs₁ => ?_
      refine reads_accept_of_eq hs₁.symbol ?_
      have hothers := ih (by omega) rest has ⟨hnone, hstops⟩ (hs₁.next nofun)
        (by simp at hlength ⊢; omega)
      refine hothers.bind fun as' s₂ has' hs₂ => ?_
      exact reads_pure (by simp [ha', has']) hs₂

/-- Items in parentheses, of which the opening one is taken already. -/
theorem reads_closeList (hitem : Complete n item bare L Stops)
    (hstarts : ∀ ts a, L ts a → ∃ t us, ts = t :: us ∧ t ≠ .symbol .closeParen)
    (hcomma : ∀ a rest, Stops a (.symbol .comma :: rest))
    (hclose : ∀ a rest, Stops a (.symbol .closeParen :: rest)) {as : List α}
    (hlist : us = [] ∧ as = [] ∨ Separated L us as) (hs : s.At (us ++ .symbol .closeParen :: rest))
    (hlength : (us ++ .symbol .closeParen :: rest).length ≤ n) :
    Reads (closeList item n) (List.map bare) s as rest := by
  unfold closeList
  refine reads_peek rfl ?_
  obtain ⟨rfl, rfl⟩ | h := hlist
  · rw [if_pos hs.symbol]
    exact reads_expectSymbol hs fun s' hs' => reads_pure rfl hs'
  · -- There is an item, and no item begins with the closing mark.
    have hfirst : s.current.kind ≠ .symbol .closeParen := by
      refine hs.kind_ne fun _ hhead => ?_
      cases h with
      | single ha | cons ha _ =>
        obtain ⟨_, _, rfl, ht⟩ := hstarts _ _ ha
        exact ht (Option.some.inj hhead)
    rw [if_neg hfirst]
    have hread := complete_commaSeparated hitem hcomma (Nat.le_refl n)
      (.symbol .closeParen :: rest) h ⟨nofun, fun a => hclose a _⟩ hs hlength
    refine hread.bind fun as' s₁ has' hs₁ => ?_
    exact reads_expectSymbol hs₁ fun s' hs' => reads_pure has' hs'

end Parser

namespace Grammar

open MiniJava.Parser

variable {n : Nat} {s : TokenStream} {rest : List Terminal}

/-! ## References and operators -/

/-- The first token of a reference, and what it refers to by itself. -/
inductive StartsRef : Terminal → Ref → Prop
  | this : StartsRef (.keyword .thisKw) (.this Span.builtin)
  | name {text : String} : StartsRef (.identifier text) (.name Span.builtin text)

/-- How far the loop over members gets with the tokens behind the first one. -/
theorem exists_members_eq (h : FormsRef ts r) :
    ∃ t us base, ts = t :: us ∧ StartsRef t base ∧
      ∀ m rest ⦃base' s⦄, Ref.bare base' = base.bare → TokenStream.At s (us ++ rest) →
        us.length ≤ m → ∃ m' r' s', members m base' s = members m' r' s' ∧ r'.bare = r.bare ∧
          s'.At rest ∧ m ≤ m' + us.length := by
  -- The loop follows the left edge of the tree from the bottom up, as the induction does.
  induction h with
  | this =>
    refine ⟨_, [], _, rfl, .this, fun m rest base' s hbase hs _ => ?_⟩
    exact ⟨m, base', s, rfl, hbase, hs, Nat.le_refl m⟩
  | name =>
    refine ⟨_, [], _, rfl, .name, fun m rest base' s hbase hs _ => ?_⟩
    exact ⟨m, base', s, rfl, hbase, hs, Nat.le_refl m⟩
  | member _ ih =>
    rename_i span ts inner field _
    obtain ⟨t, us, base, rfl, hbase, hloop⟩ := ih
    refine ⟨t, us ++ [.symbol .dot, .identifier field.value], base, rfl, hbase, ?_⟩
    intro m rest base' s hbase hs hlength
    simp only [length_append, length_cons, length_nil] at hlength ⊢
    obtain ⟨m₁, r₁, s₁, heq, hr₁, hs₁, _⟩ := hloop m
      (.symbol .dot :: .identifier field.value :: rest) hbase (by simpa using hs) (by omega)
    obtain ⟨m₂, rfl⟩ : ∃ m₂, m₁ = m₂ + 1 := ⟨m₁ - 1, by omega⟩
    -- One more round takes the dot and the name behind it.
    have hname := hs₁.next nofun
    refine ⟨m₂, .member (r₁.span.join s₁.next.current.span) r₁ ⟨field.value, s₁.next.current.span⟩,
      s₁.next.next, ?_, by simp [Ref.bare, hr₁, Located.bare], hname.next nofun, by omega⟩
    rw [heq, members, bind_apply_ok (accept_apply_of_eq hs₁.symbol)]
    exact bind_apply_ok (ident_apply hname)

theorem members_apply (h : s.current.kind ≠ .symbol .dot) : members m r s = (.ok r, s) := by
  cases m with
  | zero => rfl
  | succ => exact bind_apply_ok (accept_apply_of_ne h)

/-- A reference behind its first token, from which its innermost part is made. -/
theorem exists_reads_members (h : FormsRef ts r) :
    ∃ t us base, ts = t :: us ∧ StartsRef t base ∧
      ∀ m rest ⦃base' s⦄, Ref.bare base' = base.bare → TokenStream.At s (us ++ rest) →
        us.length ≤ m → rest.head? ≠ some (.symbol .dot) →
        Reads (members m base') Ref.bare s r rest := by
  obtain ⟨t, us, base, rfl, hbase, hloop⟩ := exists_members_eq h
  refine ⟨t, us, base, rfl, hbase, fun m rest base' s hbase' hs hlength hdot => ?_⟩
  obtain ⟨_, r', s', heq, hr', hs', -⟩ := hloop m rest hbase' hs hlength
  refine ⟨r', s', heq.trans (members_apply (hs'.kind_ne fun _ => hdot)), hr', hs'⟩

variable {level : List (Symbol × BinaryOp)} {operand : Parser Expr}

theorem binaryOp?_eq_some (hlevel : precedence[k]? = some level) (hop : BinaryAt k sym op)
    (hkind : kind = .symbol sym) : binaryOp? level kind = some op := by
  subst hkind
  exact (lookup_level hlevel).mpr hop

/-- In front of what ends an expression of the level there is no operator of it. -/
theorem binaryOp?_eq_none (hlevel : precedence[k]? = some level) (hs : s.At rest)
    (hends : Ends k rest) :
    binaryOp? level s.current.kind = none := by
  cases hop : binaryOp? level s.current.kind with
  | none => rfl
  | some op =>
    unfold binaryOp? at hop
    split at hop
    next hkind =>
      refine absurd (.inr (.inr (.inr ⟨k, op, Nat.le_refl k, ?_⟩))) (hends _ (hs.head? hkind))
      exact (lookup_level hlevel).mp hop
    next => cases hop

/-- How far the loop over the operands of a level gets with the tokens behind the first operand. -/
theorem exists_operands_eq (hlevel : precedence[k]? = some level)
    (hoperand : Complete n operand Expr.bare (FormsExpr (k + 1)) (fun _ => Ends (k + 1))) {j : Nat}
    (h : FormsExpr j ts e) (hj : j = k) :
    ∃ us vs first, ts = us ++ vs ∧ FormsExpr (k + 1) us first ∧
      (∀ rest, Ends (k + 1) rest → Ends (k + 1) (vs ++ rest)) ∧
      ∀ m rest ⦃left s⦄, Expr.bare left = first.bare → TokenStream.At s (vs ++ rest) →
        Ends (k + 1) rest → vs.length ≤ m → (vs ++ rest).length ≤ n →
        ∃ m' e' s', operands level operand m left s = operands level operand m' e' s' ∧
          e'.bare = e.bare ∧ s'.At rest ∧ m ≤ m' + vs.length := by
  have hk : k < 6 := (List.getElem?_eq_some_iff.mp hlevel).1
  induction h using FormsExpr.induct with
  | binary hop hleft hright ihleft _ =>
    subst hj
    rename_i us' sym op span left right _
    obtain ⟨us, vs, first, rfl, hfirst, hends, hloop⟩ := ihleft rfl
    refine ⟨us, vs ++ .symbol sym :: us', first, by simp, hfirst, fun rest _ => ?_, ?_⟩
    · have := hends (.symbol sym :: us' ++ rest) (hop.ends _)
      simpa using this
    intro m rest left' s hleft' hs hrest hm hlength
    simp only [length_append, length_cons] at hm hlength ⊢
    obtain ⟨m₁, e₁, _, heq, he₁, hs₁, _⟩ := hloop m (.symbol sym :: us' ++ rest) hleft'
      (by simpa using hs) (hop.ends _) (by omega) (by simp; omega)
    obtain ⟨m₂, rfl⟩ : ∃ m₂, m₁ = m₂ + 1 := ⟨m₁ - 1, by omega⟩
    -- One more round takes the operator and its right operand.
    obtain ⟨right', s₂, hread, hright', hs₂⟩ := hoperand rest hright hrest (hs₁.next nofun)
      (by simp; omega)
    refine ⟨m₂, .binary (e₁.span.join right'.span) op e₁ right', s₂, ?_,
      by simp [Expr.bare, he₁, hright'], hs₂, by omega⟩
    rw [heq, operands, bind_peek, binaryOp?_eq_some hlevel hop hs₁.symbol]
    exact bind_apply_ok hread
  | tighter h _ =>
    -- All the tokens are the first operand, and the loop has not begun.
    subst hj
    rename_i ts e _
    refine ⟨ts, [], e, (append_nil ts).symm, h, fun rest h => h, ?_⟩
    intro m rest left s hleft hs _ _ _
    exact ⟨m, left, s, rfl, hleft, hs, Nat.le_refl m⟩
  -- Every other form is one of level 6 or 7, where no operator takes two operands.
  | _ => omega

theorem operands_apply (h : binaryOp? level s.current.kind = none) :
    operands level operand m e s = (.ok e, s) := by
  cases m with
  | zero => rfl
  | succ => rw [operands, bind_peek, h]; rfl

theorem complete_binary
    (hoperand : Complete (n + 1) operand Expr.bare (FormsExpr 6) (fun _ => Ends 6)) :
    Complete (n + 1) (binary operand n precedence) Expr.bare (FormsExpr 0) (fun _ => Ends 0) := by
  refine binary_induction (motive := fun k p => Complete (n + 1) p Expr.bare (FormsExpr k)
    (fun _ => Ends k)) hoperand ?_
  intro k _ _ hlevel hnext _ _ rest _ h hends hs hlength
  obtain ⟨_, vs, first, rfl, hfirst, hmore, hloop⟩ := exists_operands_eq hlevel hnext h rfl
  have hends' := hends.mono (Nat.le_succ k)
  have hread := hnext (vs ++ rest) hfirst (hmore rest hends') (by simpa using hs)
    (by simpa using hlength)
  refine hread.bind fun left s₁ hleft hs₁ => ?_
  -- The first operand takes a token, so the bound is enough for the other ones.
  have hpos := formsExpr_ne_nil hfirst
  simp only [length_append] at hlength
  obtain ⟨_, e', s₂, heq, he', hs₂, -⟩ := hloop n rest hleft hs₁ hends' (by omega) (by simp; omega)
  exact ⟨e', s₂, heq.trans (operands_apply (binaryOp?_eq_none hlevel hs₂ hends)), he', hs₂⟩

theorem unaryOp?_eq_some {op : UnaryOp} (h : UnaryOf sym op) (hkind : kind = .symbol sym) :
    unaryOp? kind = some op := by
  subst hkind
  cases h <;> rfl

theorem unaryOp?_eq_none {t : Terminal} (hs : s.At (t :: rest)) (ht : StartsPrimary t) :
    unaryOp? s.current.kind = none := by
  cases hop : unaryOp? s.current.kind with
  | none => rfl
  | some _ =>
    obtain ⟨_, hkind, hunary⟩ := unaryOf_of_unaryOp hop
    cases hs.head? hkind
    cases ht
    cases hunary

theorem complete_unary {primary : Parser Expr}
    (hprimary : Complete (n + 1) primary Expr.bare (FormsExpr 7) (fun _ => Ends 7)) (hm : m ≤ n) :
    Complete (m + 1) (unary primary m) Expr.bare (FormsExpr 6) (fun _ => Ends 6) := by
  induction m with
  | zero =>
    intro _ _ rest _ h hends hs hlength
    cases h with
    | binary hop => cases hop
    | tighter h => exact hprimary rest h (hends.mono (by decide)) hs (by omega)
    | unary _ h =>
      -- An operator and its operand are two tokens.
      have hpos := formsExpr_ne_nil h
      simp only [length_append, length_cons] at hlength
      omega
  | succ _ ih =>
    intro _ _ rest _ h hends hs hlength
    cases h with
    | binary hop => cases hop
    | tighter h =>
      -- The first token tells that there is no operator.
      obtain ⟨-, _, _, rfl, -, ht⟩ := exists_head_of_formsExpr h
      refine reads_peek rfl ?_
      rw [unaryOp?_eq_none hs (ht rfl)]
      exact hprimary rest h (hends.mono (by decide)) hs (by omega)
    | unary hop h =>
      refine reads_peek rfl ?_
      rw [unaryOp?_eq_some hop hs.symbol]
      refine reads_advance ?_
      have hread := ih (by omega) rest h hends (hs.next nofun) (by simpa using hlength)
      refine hread.bind fun operand s₁ hoperand hs₁ => ?_
      exact reads_pure (by simp [Expr.bare, hoperand]) hs₁

/-! ## Expressions -/

section

variable {expr : Parser Expr} (hexpr : Complete n expr Expr.bare (FormsExpr 0) (fun _ => Ends 0))
include hexpr

variable {target target' : Ref} {span : Span}

theorem reads_arraySize (start : Span) {element element' : Located Ty}
    (helement : element'.bare = element.bare) {size : Expr} (h : FormsExpr 0 us size)
    (hs : s.At (us ++ .symbol .closeBracket :: rest))
    (hlength : (us ++ .symbol .closeBracket :: rest).length ≤ n) :
    Reads (arraySize expr start element') Expr.bare s (.newArray span element size) rest := by
  refine (hexpr _ h (Closes.bracket.ends 0 rest) hs hlength).bind fun size' s₁ hsize hs₁ => ?_
  refine reads_expectSymbol hs₁ fun s₂ hs₂ => reads_spanFrom start fun span' => ?_
  exact reads_pure (by simp [Expr.bare, helement, hsize]) hs₂

/-- What is made of a reference once it is read. -/
theorem reads_useOfReference_index (start : Span) (htarget : target'.bare = target.bare)
    {position : Expr} (h : FormsExpr 0 us position)
    (hs : s.At (.symbol .openBracket :: us ++ .symbol .closeBracket :: rest))
    (hlength : (us ++ .symbol .closeBracket :: rest).length ≤ n) :
    Reads (useOfReference expr n start target') Expr.bare s (.index span target position) rest := by
  refine reads_accept_of_eq hs.symbol ?_
  have hread := hexpr _ h (Closes.bracket.ends 0 rest) (hs.next nofun) hlength
  refine hread.bind fun position' s₁ hposition hs₁ => ?_
  refine reads_expectSymbol hs₁ fun s₂ hs₂ => reads_spanFrom start fun span' => ?_
  exact reads_pure (by simp [Expr.bare, htarget, hposition]) hs₂

/-- Arguments in parentheses. -/
theorem reads_args {args : List Expr} (h : us = [] ∧ args = [] ∨ Separated (FormsExpr 0) us args)
    (hs : s.At (us ++ .symbol .closeParen :: rest))
    (hlength : (us ++ .symbol .closeParen :: rest).length ≤ n) :
    Reads (closeList expr n) (List.map Expr.bare) s args rest := by
  refine reads_closeList hexpr ?_ (fun _ => Closes.comma.ends 0) (fun _ => Closes.paren.ends 0) h hs
    hlength
  intro _ _ he
  obtain ⟨-, t, us, rfl, ht, -⟩ := exists_head_of_formsExpr he
  refine ⟨t, us, rfl, ?_⟩
  rintro rfl
  exact ht.not_closes .paren

theorem reads_useOfReference_call (start : Span) (htarget : target'.bare = target.bare)
    {args : List Expr} (h : us = [] ∧ args = [] ∨ Separated (FormsExpr 0) us args)
    (hs : s.At (.symbol .openParen :: us ++ .symbol .closeParen :: rest))
    (hlength : (us ++ .symbol .closeParen :: rest).length ≤ n) :
    Reads (useOfReference expr n start target') Expr.bare s (.call span target args) rest := by
  refine reads_accept_of_ne (hs.kind_ne nofun) (reads_accept_of_eq hs.symbol ?_)
  refine (reads_args hexpr h (hs.next nofun) hlength).bind fun args' s₁ hargs hs₁ => ?_
  refine reads_spanFrom start fun span' => ?_
  exact reads_pure (by simp [Expr.bare, htarget, Expr.bareOf_eq_map, hargs]) hs₁

omit hexpr in
theorem reads_useOfReference_ref (start : Span) (htarget : target'.bare = target.bare)
    (hs : s.At rest) (hends : Ends 7 rest) :
    Reads (useOfReference expr n start target') Expr.bare s (.ref target) rest := by
  refine reads_accept_of_ne (hs.kind_ne fun _ h => ?_)
    (reads_accept_of_ne (hs.kind_ne fun _ h => ?_) ?_)
  · exact hends _ h (.inr (.inl rfl))
  · exact hends _ h (.inr (.inr (.inl rfl)))
  · exact reads_pure (by simp [Expr.bare, htarget]) hs

omit hexpr in
/-- A reference and what is made of it. -/
theorem reads_primary_reference {more : List Terminal} (h : FormsRef ts target)
    (hs : s.At (ts ++ more)) (hlength : (ts ++ more).length ≤ n + 1)
    (hdot : more.head? ≠ some (.symbol .dot))
    (huse : ∀ start target' s', Ref.bare target' = target.bare → TokenStream.At s' more →
      Reads (useOfReference expr n start target') Expr.bare s' e rest) :
    Reads (primary expr n) Expr.bare s e rest := by
  obtain ⟨_, _, _, rfl, hbase, hmembers⟩ := exists_reads_members h
  simp only [cons_append, length_cons, length_append] at hlength
  unfold primary
  refine reads_here ?_
  cases hbase with
  | this =>
    refine reads_peek hs.keyword (reads_advance ?_)
    have hread : Reads (members n (.this s.current.span)) _ _ _ _ :=
      hmembers n more rfl (hs.next nofun) (by omega) hdot
    exact hread.bind fun target' s₁ htarget hs₁ => huse _ target' s₁ htarget hs₁
  | name =>
    obtain ⟨hkind, htext⟩ := hs.identifier
    refine reads_peek hkind (reads_advance ?_)
    rw [htext]
    have hread : Reads (members n (.name s.current.span _)) _ _ _ _ :=
      hmembers n more rfl (hs.next nofun) (by omega) hdot
    exact hread.bind fun target' s₁ htarget hs₁ => huse _ target' s₁ htarget hs₁

omit hexpr in
theorem reads_primary_creation (hs : s.At (.keyword .newKw :: us ++ rest))
    (h : ∀ start s', TokenStream.At s' (us ++ rest) →
      Reads (creation expr start) Expr.bare s' e rest) :
    Reads (primary expr n) Expr.bare s e rest :=
  reads_here (reads_peek hs.keyword (reads_advance (h _ _ (hs.next nofun))))

theorem reads_primary_call {args : List Expr} (hmethod : FormsRef ts target)
    (h : us = [] ∧ args = [] ∨ Separated (FormsExpr 0) us args)
    (hs : s.At (ts ++ (.symbol .openParen :: us ++ .symbol .closeParen :: rest)))
    (hlength : (ts ++ (.symbol .openParen :: us ++ .symbol .closeParen :: rest)).length ≤ n + 1) :
    Reads (primary expr n) Expr.bare s (.call span target args) rest := by
  refine reads_primary_reference hmethod hs hlength nofun fun start target' s' htarget' hs' => ?_
  exact reads_useOfReference_call hexpr start htarget' h hs' (by simp at hlength ⊢; omega)

/-- A primary expression is read as the grammar has it. -/
theorem complete_primary :
    Complete (n + 1) (primary expr n) Expr.bare (FormsExpr 7) (fun _ => Ends 7) := by
  intro s ts rest e h hends hs hlength
  cases h with
  | binary hop => cases hop
  | tighter h => exact absurd (exists_head_of_formsExpr h).1 (by decide)
  | number hrange =>
    obtain ⟨hkind, htext⟩ := hs.number
    refine reads_here (reads_peek hkind (reads_advance ?_))
    simp only [htext, decimalValue_eq, maxLiteral, if_pos hrange]
    exact reads_pure rfl (hs.next nofun)
  | true | false | null =>
    refine reads_here (reads_peek hs.keyword (reads_advance ?_))
    exact reads_pure rfl (hs.next nofun)
  | paren h =>
    refine reads_here (reads_peek hs.symbol (reads_advance ?_))
    have hread := hexpr (.symbol .closeParen :: rest) h (Closes.paren.ends 0 rest)
      (by simpa using hs.next nofun) (by simp at hlength ⊢; omega)
    refine hread.bind fun inner s₁ hinner hs₁ => ?_
    -- Only the range grows by the parentheses.
    refine reads_expectSymbol hs₁ fun s₂ hs₂ => reads_spanFrom _ fun span' => ?_
    exact reads_pure (by simp [hinner]) hs₂
  | newObject =>
    refine reads_primary_creation hs fun start s₁ hs₁ => ?_
    refine reads_peek hs₁.identifier.1 (reads_ident hs₁ fun span s₂ hs₂ => ?_)
    refine reads_accept_of_eq hs₂.symbol (reads_expectSymbol (hs₂.next nofun) fun s₃ hs₃ => ?_)
    exact reads_spanFrom start fun span' => reads_pure rfl hs₃
  | newArray h =>
    refine reads_primary_creation hs fun start s₁ hs₁ => ?_
    refine reads_peek hs₁.identifier.1 (reads_ident hs₁ fun span s₂ hs₂ => ?_)
    refine reads_accept_of_ne (hs₂.kind_ne nofun) (reads_accept_of_eq hs₂.symbol ?_)
    refine reads_arraySize hexpr start ?_ h (by simpa using hs₂.next nofun)
      (by simp at hlength ⊢; omega)
    rfl
  | newIntArray h =>
    refine reads_primary_creation hs fun start s₁ hs₁ => ?_
    refine reads_peek hs₁.keyword (reads_advance ?_)
    refine reads_expectSymbol (hs₁.next nofun) fun s₂ hs₂ => ?_
    refine reads_arraySize hexpr start ?_ h (by simpa using hs₂) (by simp at hlength ⊢; omega)
    rfl
  | ref h =>
    -- What ends an expression is neither a dot nor the beginning of an index or of arguments.
    refine reads_primary_reference h hs hlength (fun hdot => hends _ hdot (Or.inl rfl)) ?_
    exact fun start target' s' htarget hs' => reads_useOfReference_ref start htarget hs' hends
  | index htarget h =>
    rename_i ts us span target position
    have hmore : s.At (ts ++ (.symbol .openBracket :: us ++ .symbol .closeBracket :: rest)) := by
      simpa using hs
    refine reads_primary_reference htarget hmore (by simpa using hlength) nofun ?_
    intro start target' s' htarget' hs'
    exact reads_useOfReference_index hexpr start htarget' h hs' (by simp at hlength ⊢; omega)
  | callNone h =>
    exact reads_primary_call hexpr h (.inl ⟨rfl, rfl⟩) (by simpa using hs) (by simpa using hlength)
  | call h hargs =>
    exact reads_primary_call hexpr h (.inr hargs) (by simpa using hs) (by simpa using hlength)

end

theorem complete_exprWithin (n : Nat) :
    Complete n (exprWithin n) Expr.bare (FormsExpr 0) (fun _ => Ends 0) := by
  induction n with
  | zero => exact complete_zero
  | succ n ih =>
    exact complete_binary (complete_unary (complete_primary ih) (Nat.le_refl n))

/-- What is an expression is read as that expression in front of every token that cannot continue
it. -/
theorem complete_expr : Complete n expr Expr.bare (FormsExpr 0) (fun _ => Ends 0) :=
  Complete.bounded complete_exprWithin

/-- An expression in front of a mark that closes it. -/
theorem reads_expr (h : FormsExpr 0 ts e) (hcloses : Closes sym)
    (hs : s.At (ts ++ .symbol sym :: rest)) :
    Reads expr Expr.bare s e (.symbol sym :: rest) :=
  complete_expr _ h (hcloses.ends 0 rest) hs (Nat.le_refl _)

end Grammar

end MiniJava
