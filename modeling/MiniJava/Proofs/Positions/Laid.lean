import MiniJava.Proofs.Grammar.Reading
import MiniJava.Proofs.Positions.Outline

/-!
# Trees lie on their tokens

What a parser reads lies on the tokens that it takes.

The outline of what has been read grows with the tokens that are taken (`TokenStream.Laid`). A node
is closed in one step (`Laid.node`): its range, however the parser finds it, begins where the stream
stood at its first part and ends with the token taken last. Parsers that go on behind something that
was read already are stated from the stream in front of it.
-/

namespace MiniJava

open Grammar Outline List

variable {kind : TokenKind}

namespace TokenStream

/-- The tokens of the stream follow each other up to the end of the file. -/
structure Orderly (s : TokenStream) : Prop where
  ended : s.Ended
  ordered : Ordered s.tokens

/-- The tokens from one stream to another are those of the outlines. -/
structure Laid (s : TokenStream) (os : List Outline) (s' : TokenStream) : Prop where
  start : s.Orderly
  fills : ∃ us, s.Takes us s' ∧ Fills us os

variable {s s₁ s' : TokenStream} {o : Outline} {os os' : List Outline}
    {ts : List Token} {span : Span}
  {wraps : Bool}

theorem Takes.orderly (h : s.Takes ts s') (hs : s.Orderly) : s'.Orderly :=
  ⟨h.ended hs.ended, h.ordered hs.ordered⟩

theorem laid_refl (hs : s.Orderly) : s.Laid [] s := ⟨hs, [], takes_refl s, .nil⟩

theorem Laid.trans (h : s.Laid os s₁) (h' : s₁.Laid os' s') : s.Laid (os ++ os') s' := by
  obtain ⟨hs, us, hus, hos⟩ := h
  obtain ⟨-, vs, hvs, hos'⟩ := h'
  exact ⟨hs, us ++ vs, hus.trans hvs, hos.append hos'⟩

theorem Laid.stop (h : s.Laid os s') : s'.Orderly := by
  obtain ⟨hs, _, hus, -⟩ := h
  exact hus.orderly hs

theorem Takes.length (h : s.Takes ts s') :
    s.terminals.length = ts.length + s'.terminals.length := by
  rw [TokenStream.terminals_eq, TokenStream.terminals_eq, h.tokens, map_append,
    length_append, length_map]

theorem Laid.length_le (h : s.Laid os s') : s'.terminals.length ≤ s.terminals.length := by
  obtain ⟨-, _, hus, -⟩ := h
  have := hus.length
  omega

theorem Laid.length_lt (h : s.Laid (o :: os) s') (ho : o.Visible) :
    s'.terminals.length < s.terminals.length := by
  obtain ⟨-, _, hus, hfills⟩ := h
  have := hus.length
  have := length_pos_iff.mpr (hfills.ne_nil ⟨o, mem_cons_self, ho⟩)
  omega

/-- Of nodes read one behind the other, each one begins before the next. -/
theorem Laid.pairwise_start (h : s.Laid os s') :
    (os.filterMap span?).Pairwise fun a b => a.start < b.start := by
  obtain ⟨hs, _, hus, hfills⟩ := h
  exact hfills.pairwise_start (hus.ordered_taken hs.ordered) (hus.ne_endOfFile hs.ended)

/-! ## Single tokens -/

theorem laid_own (hs : s.Orderly) {forms : List Terminal → Prop} (hkind : s.current.kind = kind)
    (hmore : kind ≠ .endOfFile) (hforms : forms [kind.terminal s.current.text]) :
    s.Laid [own forms] s.next := by
  refine ⟨hs, [s.current], hs.ended.takes_next (hkind ▸ hmore), fills_singleton (.own ?_)⟩
  rw [map_singleton, Token.terminal, hkind]
  exact hforms

theorem laid_token (hs : s.Orderly) (hkind : s.current.kind = kind) (hmore : kind ≠ .endOfFile) :
    s.Laid [token (kind.terminal s.current.text)] s.next :=
  laid_own hs hkind hmore rfl

/-- Certain tokens, taken together. -/
theorem Laid.own (terminals : List Terminal) (h : s.Laid (terminals.map token) s')
    {forms : List Terminal → Prop} (hforms : forms terminals) : s.Laid [.own forms] s' := by
  obtain ⟨hs, us, hus, hfills⟩ := h
  refine ⟨hs, us, hus, fills_singleton (.own ?_)⟩
  rw [hfills.terminals_eq]
  exact hforms

/-! ## Nodes -/

/-- A node begins where its first token does and ends with the token taken last. -/
theorem Laid.node (h : s.Laid os s') (hos : ∃ o ∈ os, o.Visible) :
    s.Laid [.node ⟨s.current.span.start, max s'.previousStop s.current.span.stop⟩ wraps os] s' := by
  obtain ⟨hs, us, hus, hfills⟩ := h
  have hne := hfills.ne_nil hos
  rw [hus.spanFrom_eq hs.ordered hne]
  exact ⟨hs, us, hus, fills_singleton (.node hne hfills)⟩

/-- A node whose first part is seen. -/
theorem Laid.close (h : s.Laid (o :: os) s') (ho : o.Visible) :
    s.Laid [.node ⟨s.current.span.start, max s'.previousStop s.current.span.stop⟩ wraps (o :: os)]
      s' :=
  h.node ⟨o, mem_cons_self, ho⟩

/-- A node of one token has the range of this token. -/
theorem Laid.leaf (h : s.Laid os s.next) (hmore : s.current.kind ≠ .endOfFile) :
    s.Laid [.node s.current.span wraps os] s.next := by
  obtain ⟨hs, us, hus, hfills⟩ := h
  have htakes := hs.ended.takes_next hmore
  obtain rfl : us = [s.current] := append_cancel_right (hus.tokens.symm.trans htakes.tokens)
  exact ⟨hs, _, htakes, fills_singleton (.node (cons_ne_nil _ _) hfills)⟩

/-- Joining the range of the first tokens with that of the last node gives the whole range. -/
theorem Laid.join_eq (mid : List Outline) (h : s₁.Laid (mid ++ [.node span wraps os]) s')
    (hs : s.Orderly) (hfirst : s.Takes ts s₁) (hts : ts ≠ []) :
    (rangeOf ts).join span = ⟨s.current.span.start, max s'.previousStop s.current.span.stop⟩ := by
  obtain ⟨-, us, hus, hfills⟩ := h
  -- The last outline lies on the last of the tokens.
  obtain ⟨vs, ws, rfl, hlast⟩ : ∃ vs ws, us = vs ++ ws ∧ On ws (.node span wraps os) := by
    clear hus
    induction mid generalizing us with
    | nil => exact ⟨[], us, rfl, hfills.on_of_singleton⟩
    | cons _ _ ih =>
      cases hfills with
      | cons _ hmid =>
        obtain ⟨vs, ws, rfl, hlast⟩ := ih _ hmid
        exact ⟨_ ++ vs, ws, (append_assoc ..).symm, hlast⟩
  have htakes := hfirst.trans hus
  have hne : ts ++ (vs ++ ws) ≠ [] := append_ne_nil_of_left_ne_nil hts _
  rw [htakes.spanFrom_eq hs.ordered hne, hlast.span_eq]
  exact join_rangeOf (htakes.ordered_taken hs.ordered) hts (hlast.ne_nil trivial)

/-- The tokens of a node that has just been read. -/
theorem Laid.exists_takes (h : s.Laid [.node span wraps os] s') :
    ∃ ts, s.Takes ts s' ∧ ts ≠ [] ∧ rangeOf ts = span := by
  obtain ⟨-, us, hus, hfills⟩ := h
  have hon := hfills.on_of_singleton
  exact ⟨us, hus, hon.ne_nil trivial, hon.span_eq.symm⟩

/-- What need not stand in parentheses may. -/
theorem Laid.unwrapped (h : s.Laid [.node span false os] s') : s.Laid [.node span true os] s' := by
  obtain ⟨hs, us, hus, hfills⟩ := h
  have hon := hfills.on_of_singleton
  rw [hon.span_eq]
  exact ⟨hs, us, hus, fills_singleton (.node (hon.ne_nil trivial) hon.fills)⟩

/-- Parentheses belong to what stands in them. -/
theorem Laid.wrap
    (h : s.Laid [token (.symbol .openParen), .node span true os, token (.symbol .closeParen)] s') :
    s.Laid [.node ⟨s.current.span.start, max s'.previousStop s.current.span.stop⟩ true os] s' := by
  obtain ⟨hs, _, hus, hfills⟩ := h
  cases hfills with | cons hopening hfills =>
  cases hfills with | cons hinner hfills =>
  obtain ⟨_, rfl, hopen⟩ := exists_of_on_token hopening
  obtain ⟨_, rfl, hclose⟩ := exists_of_on_token hfills.on_of_singleton
  rw [hus.spanFrom_eq hs.ordered (cons_ne_nil _ _)]
  exact ⟨hs, _, hus, fills_singleton (.wrapped (Token.terminal_eq_symbol.mp hopen) hinner
    (Token.terminal_eq_symbol.mp hclose))⟩

end TokenStream

namespace Parser

variable {α : Type} {n : Nat} {s s' : TokenStream} {item : Parser α} {outline : α → Outline}

/-- On a stream of at most this length, what is read lies on the tokens that are taken. -/
def Lays (n : Nat) (p : Parser α) (outline : α → Outline) : Prop :=
  ∀ ⦃s : TokenStream⦄ ⦃a : α⦄ ⦃s' : TokenStream⦄, s.Orderly → s.terminals.length ≤ n →
    p s = (.ok a, s') → s.Laid [outline a] s'

theorem Lays.bounded {p : Nat → Parser α} (h : ∀ n, Lays n (p n) outline) :
    Lays n (bounded p) outline := by
  intro s _ _ hs _ hp
  refine h (s.upcoming.length + 1) hs ?_ hp
  exact Nat.le_of_eq (length_map _)

theorem laid_symbol {sym : Symbol} : Lays n (expectSymbol sym) fun _ => token (.symbol sym) := by
  intro _ _ _ hs _ h
  obtain ⟨_, _, hexpect, h⟩ := bind_ok_iff.mp h
  obtain ⟨hkind, rfl, rfl⟩ := expect_eq_ok hexpect
  cases h
  exact TokenStream.laid_token hs hkind nofun

theorem laid_ident : Lays n ident Ident.outline := by
  intro _ _ _ hs _ h
  obtain ⟨_, _, hexpect, h⟩ := bind_ok_iff.mp h
  obtain ⟨hkind, rfl, rfl⟩ := expect_eq_ok hexpect
  cases h
  exact (TokenStream.laid_token hs hkind nofun).leaf (by rw [hkind]; nofun)

end Parser

/-! ## Reading on -/

namespace TokenStream.Laid

open MiniJava.Parser

variable {α β : Type} {n : Nat} {s₀ s s' : TokenStream} {os : List Outline} {p : Parser α}
  {outline : α → Outline} {b : β} (hfront : s₀.Laid os s)

include hfront

/-- What is read next lies behind what has been read. -/
theorem bind {f : α → Parser β} (hp : Lays n p outline) (hlength : s.terminals.length ≤ n)
    (h : (p >>= f) s = (.ok b, s')) :
    ∃ a s₁, s₀.Laid (os ++ [outline a]) s₁ ∧ f a s₁ = (.ok b, s') := by
  obtain ⟨a, s₁, ha, h⟩ := bind_ok_iff.mp h
  exact ⟨a, s₁, hfront.trans (hp hfront.stop hlength ha), h⟩

/-- The length does not matter to a parser that is right for every length. -/
theorem step {f : α → Parser β} (hp : Lays s.terminals.length p outline)
    (h : (p >>= f) s = (.ok b, s')) :
    ∃ a s₁, s₀.Laid (os ++ [outline a]) s₁ ∧ f a s₁ = (.ok b, s') :=
  hfront.bind hp (Nat.le_refl _) h

omit hfront in
/-- A parser for shorter streams is right behind something that was seen. -/
theorem within {o : Outline} (hfront : s₀.Laid (o :: os) s) (ho : o.Visible) {f : α → Parser β}
    (hp : Lays n p outline) (hlength : s₀.terminals.length ≤ n + 1)
    (h : (p >>= f) s = (.ok b, s')) :
    ∃ a s₁, s₀.Laid (o :: os ++ [outline a]) s₁ ∧ f a s₁ = (.ok b, s') := by
  have hless := hfront.length_lt ho
  exact hfront.bind hp (by omega) h

theorem take (hkind : s.current.kind = kind) (hmore : kind ≠ .endOfFile) :
    s₀.Laid (os ++ [token (kind.terminal s.current.text)]) s.next :=
  hfront.trans (laid_token hfront.stop hkind hmore)

theorem accept {f : Bool → Parser β} (h : (Parser.accept kind >>= f) s = (.ok b, s'))
    (hmore : kind ≠ .endOfFile) :
    (f true s.next = (.ok b, s') ∧ s₀.Laid (os ++ [token (kind.terminal s.current.text)]) s.next) ∨
      f false s = (.ok b, s') := by
  obtain ⟨accepted, _, haccept, h⟩ := bind_ok_iff.mp h
  cases accepted with
  | true =>
    obtain ⟨hkind, rfl⟩ := accept_eq_true haccept
    exact .inl ⟨h, hfront.take hkind hmore⟩
  | false =>
    obtain ⟨-, rfl⟩ := accept_eq_false haccept
    exact .inr h

end TokenStream.Laid

namespace Parser

variable {α : Type} {n : Nat} {s s' : TokenStream} {item : Parser α} {outline : α → Outline}

/-! ## Repetition -/

variable {as : List α}

theorem laid_manyUntil {sym : Symbol} (hitem : Lays n item outline)
    (hvisible : ∀ a, (outline a).Visible) {m : Nat} (hm : m ≤ n) (hs : s.Orderly)
    (hlength : s.terminals.length ≤ m) (h : manyUntil (.symbol sym) item m s = (.ok as, s')) :
    s.Laid (as.map outline ++ [token (.symbol sym)]) s' := by
  induction m generalizing s as with
  | zero => exact absurd hlength (s.not_length_le_zero)
  | succ _ ih =>
    obtain ⟨h, hclose⟩ | h := (TokenStream.laid_refl hs).accept h nofun
    · cases h
      exact hclose
    · obtain ⟨first, _, hfirst, h⟩ := (TokenStream.laid_refl hs).bind hitem (hlength.trans hm) h
      have hless := hfirst.length_lt (hvisible first)
      obtain ⟨_, _, hothers, h⟩ := bind_ok_iff.mp h
      cases h
      exact hfirst.trans (ih (by omega) hfirst.stop (by omega) hothers)

theorem laid_commaSeparated (hitem : Lays n item outline) {m : Nat} (hm : m ≤ n) (hs : s.Orderly)
    (hlength : s.terminals.length ≤ m) (h : commaSeparated item m s = (.ok as, s')) :
    as ≠ [] ∧ s.Laid (separated (as.map outline)) s' := by
  induction m generalizing s as with
  | zero => exact absurd hlength (s.not_length_le_zero)
  | succ _ ih =>
    obtain ⟨_, _, hfirst, h⟩ := (TokenStream.laid_refl hs).bind hitem (hlength.trans hm) h
    -- A comma is a token, so the bound is enough for what stands behind it.
    obtain ⟨h, hcomma⟩ | h := (TokenStream.laid_refl hfirst.stop).accept h nofun
    · have hless := hcomma.length_lt nofun
      have := hfirst.length_le
      obtain ⟨_, _, hothers, h⟩ := bind_ok_iff.mp h
      cases h
      obtain ⟨hne, hothers⟩ := ih (by omega) hcomma.stop (by omega) hothers
      obtain ⟨_, _, rfl⟩ := exists_cons_of_ne_nil hne
      exact ⟨cons_ne_nil _ _, hfirst.trans (hcomma.trans hothers)⟩
    · cases h
      exact ⟨cons_ne_nil _ _, hfirst⟩

theorem laid_closeList (hitem : Lays n item outline) (hs : s.Orderly)
    (hlength : s.terminals.length ≤ n) (h : closeList item n s = (.ok as, s')) :
    s.Laid (separated (as.map outline) ++ [token (.symbol .closeParen)]) s' := by
  unfold closeList at h
  rw [bind_peek] at h
  dsimp only at h
  split at h
  next =>
    obtain ⟨_, _, ⟨⟩, h⟩ := bind_ok_iff.mp h
    obtain ⟨_, _, hclose, h⟩ := (TokenStream.laid_refl hs).step laid_symbol h
    cases h
    exact hclose
  next =>
    obtain ⟨_, _, hitems, h⟩ := bind_ok_iff.mp h
    obtain ⟨-, hitems⟩ := laid_commaSeparated hitem (Nat.le_refl n) hs hlength hitems
    obtain ⟨_, _, hclose, h⟩ := hitems.step laid_symbol h
    cases h
    exact hclose

end Parser

namespace Grammar

open MiniJava.Parser

variable {n : Nat} {s s₀ s' : TokenStream}

/-! ## References and operators -/

/-- Something read between two streams, joined with what was read in front of it. -/
theorem laid_joined {first last : Span} {wraps wraps' wraps'' : Bool} {os os' mid : List Outline}
    (hfirst : s₀.Laid [.node first wraps os] s)
    (hlast : s.Laid (mid ++ [.node last wraps' os']) s') : s₀.Laid [.node (first.join last) wraps''
      (.node first wraps os :: (mid ++ [.node last wraps' os']))] s' := by
  obtain ⟨_, hts, hne, rfl⟩ := hfirst.exists_takes
  rw [hlast.join_eq mid hfirst.start hts hne]
  exact (hfirst.trans hlast).close trivial

theorem laid_members (m : Nat) {base r : Ref} (hbase : s₀.Laid [base.outline] s)
    (h : members m base s = (.ok r, s')) : s₀.Laid [r.outline] s' := by
  induction m generalizing base s with
  | zero =>
    cases h
    exact hbase
  | succ _ ih =>
    obtain ⟨h, hdot⟩ | h := (TokenStream.laid_refl hbase.stop).accept h nofun
    · obtain ⟨field, s₂, hfield, h⟩ := hdot.step laid_ident h
      have hmember : s₀.Laid [(Ref.member (base.span.join field.span) base field).outline] s₂ :=
        laid_joined hbase hfield
      exact ih hmember h
    · cases h
      exact hbase

end Grammar

theorem Expr.outline_eq (e : Expr) : e.outline = .node e.span true e.outline.parts := by
  cases e <;> rfl

theorem Expr.outline_withSpan (e : Expr) (span : Span) :
    (e.withSpan span).outline = .node span true e.outline.parts := by
  cases e with
  | ref target => cases target <;> rfl
  | _ => rfl

theorem Expr.outlines_eq (es : List Expr) : Expr.outlines es = es.map Expr.outline := by
  induction es with
  | nil => rfl
  | cons _ _ ih => rw [Expr.outlines, ih, map_cons]

namespace Grammar

open MiniJava.Parser

variable {n : Nat} {s s₀ s' : TokenStream} {e : Expr} {a : Stmt} {target : Ref}

theorem laid_operands {level : List (Symbol × BinaryOp)} {k : Nat}
    (hlevel : precedence[k]? = some level) {operand : Parser Expr}
    (hoperand : Lays n operand Expr.outline) (m : Nat) {left : Expr}
    (hlength : s₀.terminals.length ≤ n) (hleft : s₀.Laid [left.outline] s)
    (h : operands level operand m left s = (.ok e, s')) : s₀.Laid [e.outline] s' := by
  induction m generalizing left s with
  | zero =>
    cases h
    exact hleft
  | succ _ ih =>
    unfold operands at h
    rw [bind_peek] at h
    generalize hop : binaryOp? level s.current.kind = found at h
    split at h
    next op =>
      rw [bind_advance] at h
      unfold binaryOp? at hop
      split at hop
      next sym hkind =>
        have hsym : s.Laid [own fun ts => ∃ n s, BinaryAt n s op ∧ ts = [.symbol s]] s.next :=
          TokenStream.laid_own hleft.stop hkind nofun ⟨k, sym, (lookup_level hlevel).mp hop, rfl⟩
        have hbound := (hleft.trans hsym).length_le.trans hlength
        obtain ⟨right, s₁, hright, h⟩ := hsym.bind hoperand hbound h
        -- The range of the whole goes from the left operand to the right one.
        have hbinary : s₀.Laid [(Expr.binary (left.span.join right.span) op left right).outline]
            s₁ := by
          rw [left.outline_eq] at hleft
          rw [right.outline_eq] at hright
          rw [Expr.outline, left.outline_eq, right.outline_eq]
          exact laid_joined hleft hright
        exact ih hbinary h
      next => cases hop
    next =>
      cases h
      exact hleft

theorem laid_binary {operand : Parser Expr} (hoperand : Lays n operand Expr.outline) (m : Nat) :
    Lays n (binary operand m precedence) Expr.outline := by
  refine binary_induction (motive := fun _ p => Lays n p Expr.outline) hoperand ?_
  intro _ _ _ hlevel hnext _ _ _ hs hlength h
  obtain ⟨_, _, hleft, h⟩ := (TokenStream.laid_refl hs).bind hnext hlength h
  exact laid_operands hlevel hnext m hlength hleft h

theorem laid_unary {primary : Parser Expr} (hprimary : Lays n primary Expr.outline) (m : Nat) :
    Lays n (unary primary m) Expr.outline := by
  induction m with
  | zero => exact hprimary
  | succ _ ih =>
    intro s _ _ hs hlength h
    unfold unary at h
    rw [bind_peek] at h
    generalize hop : unaryOp? s.current.kind = found at h
    split at h
    next op =>
      obtain ⟨sym, hkind, hunary⟩ := unaryOf_of_unaryOp hop
      rw [bind_advance] at h
      have hsym : s.Laid [own fun ts => ∃ s, UnaryOf s op ∧ ts = [.symbol s]] s.next :=
        TokenStream.laid_own hs hkind nofun ⟨sym, hunary, rfl⟩
      have htakes := hs.ended.takes_next (by rw [hkind]; nofun)
      obtain ⟨operand, _, hoperand, h⟩ := bind_ok_iff.mp h
      cases h
      have hoperand := ih hsym.stop (hsym.length_le.trans hlength) hoperand
      rw [operand.outline_eq] at hoperand
      rw [Expr.outline, operand.outline_eq, ← rangeOf_singleton,
        hoperand.join_eq [] hs htakes (cons_ne_nil _ _)]
      exact (hsym.trans hoperand).node ⟨_, mem_cons_of_mem _ mem_cons_self, trivial⟩
    next => exact hprimary hs hlength h

/-! ## Expressions -/

/-- A literal of one token. -/
theorem laid_literal {value : Literal} (hs : s.Orderly) (hkind : s.current.kind = kind)
    (hmore : kind ≠ .endOfFile)
    (hforms : FormsExpr 7 [kind.terminal s.current.text] (.literal Span.builtin value)) :
    s.Laid [(Expr.literal s.current.span value).outline] s.next := by
  have hown : s.Laid (Expr.literal s.current.span value).outline.parts s.next :=
    TokenStream.laid_own hs hkind hmore ⟨_, rfl, hforms⟩
  exact hown.leaf (hkind ▸ hmore)

theorem laid_number (hs : s.Orderly) (hkind : s.current.kind = .number)
    (h : number s = (.ok e, s')) : s.Laid [e.outline] s' := by
  unfold number at h
  rw [bind_advance] at h
  split at h
  next hrange =>
    cases h
    rw [decimalValue_eq] at hrange ⊢
    exact laid_literal hs hkind nofun (.number hrange)
  next => cases h

theorem laid_arraySize {expr : Parser Expr} (hexpr : Lays n expr Expr.outline)
    {element : Located Ty} (hlength : s₀.terminals.length ≤ n + 1)
    (hfront : s₀.Laid [token (.keyword .newKw), outlineOfType element, token (.symbol .openBracket)]
      s)
    (h : arraySize expr s₀.current.span element s = (.ok e, s')) : s₀.Laid [e.outline] s' := by
  obtain ⟨_, _, hsize, h⟩ := hfront.within nofun hexpr hlength h
  obtain ⟨_, _, hclose, h⟩ := hsize.step laid_symbol h
  cases h
  exact hclose.close nofun

/-- A type that is written with one token. -/
theorem laid_plainType (hs : s.Orderly) {type : Ty} (hkind : s.current.kind = kind)
    (hmore : kind ≠ .endOfFile) (hforms : FormsResult [kind.terminal s.current.text] type) :
    s.Laid [outlineOfType ⟨type, s.current.span⟩] s.next :=
  (TokenStream.laid_own hs hkind hmore hforms).leaf (hkind ▸ hmore)

/-- The name of a class, read as the type of elements. -/
theorem laid_elementClass :
    Lays n ident fun name => outlineOfType ⟨.object name.value, name.span⟩ := by
  intro _ _ _ hs _ h
  obtain ⟨_, _, hexpect, h⟩ := bind_ok_iff.mp h
  obtain ⟨hkind, rfl, rfl⟩ := expect_eq_ok hexpect
  cases h
  exact laid_plainType hs hkind nofun (.type .object)

theorem laid_creation {expr : Parser Expr} (hexpr : Lays n expr Expr.outline)
    (hlength : s₀.terminals.length ≤ n + 1) (hnew : s₀.Laid [token (.keyword .newKw)] s)
    (h : creation expr s₀.current.span s = (.ok e, s')) : s₀.Laid [e.outline] s' := by
  unfold creation at h
  rw [bind_peek] at h
  generalize hkind : s.current.kind = kind at h
  split at h
  next =>
    obtain ⟨_, _, hident, h⟩ := bind_ok_iff.mp h
    have hname := hnew.trans (laid_ident hnew.stop (Nat.le_refl _) hident)
    obtain ⟨h, hopen⟩ | h := hname.accept h nofun
    · obtain ⟨_, _, hclose, h⟩ := hopen.step laid_symbol h
      cases h
      exact hclose.close nofun
    · -- The name turns out to be a type.
      have helement := hnew.trans (laid_elementClass hnew.stop (Nat.le_refl _) hident)
      obtain ⟨h, hopen⟩ | h := helement.accept h nofun
      · exact laid_arraySize hexpr hlength hopen h
      · cases h
  next hkind =>
    have helement := hnew.trans (laid_plainType hnew.stop hkind nofun (.type .int))
    rw [bind_advance] at h
    obtain ⟨_, _, hopen, h⟩ := helement.step laid_symbol h
    exact laid_arraySize hexpr hlength hopen h
  next => cases h

theorem laid_useOfReference {expr : Parser Expr} (hexpr : Lays n expr Expr.outline)
    (hlength : s₀.terminals.length ≤ n + 1) (htarget : s₀.Laid [target.outline] s)
    (h : useOfReference expr n s₀.current.span target s = (.ok e, s')) :
    s₀.Laid [e.outline] s' := by
  obtain ⟨h, hopen⟩ | h := htarget.accept h nofun
  · obtain ⟨_, _, hposition, h⟩ := hopen.within trivial hexpr hlength h
    obtain ⟨_, _, hclose, h⟩ := hposition.step laid_symbol h
    cases h
    exact hclose.close trivial
  obtain ⟨h, hopen⟩ | h := htarget.accept h nofun
  · have hless := hopen.length_lt trivial
    obtain ⟨_, _, hargs, h⟩ := bind_ok_iff.mp h
    have hargs := hopen.trans (laid_closeList hexpr hopen.stop (by omega) hargs)
    cases h
    rw [← Expr.outlines_eq] at hargs
    exact hargs.close trivial
  · cases h
    exact htarget.unwrapped

/-- A reference that begins with `this`. -/
theorem laid_this (hs : s.Orderly) (hkind : s.current.kind = .keyword .thisKw) :
    s.Laid [(Ref.this s.current.span).outline] s.next :=
  (TokenStream.laid_token hs hkind nofun).leaf (hkind ▸ nofun)

/-- A reference that begins with a name. -/
theorem laid_name (hs : s.Orderly) (hkind : s.current.kind = .identifier) :
    s.Laid [(Ref.name s.current.span s.current.text).outline] s.next :=
  (TokenStream.laid_token hs hkind nofun).leaf (hkind ▸ nofun)

theorem laid_primary {expr : Parser Expr} (hexpr : Lays n expr Expr.outline) :
    Lays (n + 1) (primary expr n) Expr.outline := by
  intro s _ _ hs hlength h
  unfold primary at h
  rw [bind_here, bind_peek] at h
  generalize hkind : s.current.kind = kind at h
  split at h
  next hkind => exact laid_number hs hkind h
  next hkind => cases h; exact laid_literal hs hkind nofun .true
  next hkind => cases h; exact laid_literal hs hkind nofun .false
  next hkind => cases h; exact laid_literal hs hkind nofun .null
  next hkind =>
    have hopen := TokenStream.laid_token hs hkind nofun
    rw [bind_advance] at h
    obtain ⟨inner, _, hinner, h⟩ := hopen.within nofun hexpr hlength h
    obtain ⟨_, _, hclose, h⟩ := hinner.step laid_symbol h
    cases h
    rw [inner.outline_eq] at hclose
    rw [inner.outline_withSpan]
    exact hclose.wrap
  next hkind =>
    exact laid_creation hexpr hlength (TokenStream.laid_token hs hkind nofun) h
  next hkind =>
    rw [bind_advance] at h
    obtain ⟨_, _, htarget, h⟩ := bind_ok_iff.mp h
    exact laid_useOfReference hexpr hlength (laid_members n (laid_this hs hkind) htarget) h
  next hkind =>
    rw [bind_advance] at h
    obtain ⟨_, _, htarget, h⟩ := bind_ok_iff.mp h
    exact laid_useOfReference hexpr hlength (laid_members n (laid_name hs hkind) htarget) h
  next => cases h

theorem laid_exprWithin (n : Nat) : Lays n (exprWithin n) Expr.outline := by
  induction n with
  | zero => exact fun s _ _ _ hlength => absurd hlength (s.not_length_le_zero)
  | succ n ih => exact laid_binary (laid_unary (laid_primary ih) n) n

theorem laid_expr : Lays n expr Expr.outline := Lays.bounded laid_exprWithin

/-! ## Types and statements -/

theorem not_formsResult_nil (type : Ty) : ¬ FormsResult [] type := by
  intro h
  cases h with
  | type h => cases h

theorem laid_arrayOrPlain {element : Ty} {type : Located Ty} (hs : s.Orderly)
    (hkind : s.current.kind = kind) (hmore : kind ≠ .endOfFile)
    (hplain : FormsType [kind.terminal s.current.text] element)
    (harray : FormsType [kind.terminal s.current.text, .symbol .openBracket, .symbol .closeBracket]
      (.array element)) (h : arrayOrPlain s.current.span element s.next = (.ok type, s')) :
    s.Laid [outlineOfType type] s' := by
  obtain ⟨h, hopen⟩ | h := (TokenStream.laid_token hs hkind hmore).accept h nofun
  · obtain ⟨_, _, hclose, h⟩ := hopen.step laid_symbol h
    cases h
    exact (hclose.own [_, _, _] (.type harray)).close (not_formsResult_nil _)
  · cases h
    exact laid_plainType hs hkind hmore (.type hplain)

theorem laid_type : Lays n type outlineOfType := by
  intro s _ _ hs _ h
  unfold type at h
  rw [bind_here, bind_peek] at h
  generalize hkind : s.current.kind = kind at h
  split at h
  next => exact laid_arrayOrPlain hs hkind nofun .int .intArray h
  next =>
    cases h
    exact laid_plainType hs hkind nofun (.type .boolean)
  next => exact laid_arrayOrPlain hs hkind nofun .object .objectArray h
  next => cases h

theorem laid_declaration {type : Located Ty} (htype : s₀.Laid [outlineOfType type] s)
    (h : declaration s₀.current.span type s = (.ok a, s')) : s₀.Laid [a.outline] s' := by
  obtain ⟨_, _, hname, h⟩ := htype.step laid_ident h
  obtain ⟨_, _, hassign, h⟩ := hname.step laid_symbol h
  obtain ⟨_, _, hinit, h⟩ := hassign.step laid_expr h
  obtain ⟨_, _, hend, h⟩ := hinit.step laid_symbol h
  cases h
  exact hend.close trivial

theorem laid_elementAssignment (hopen : s₀.Laid [target.outline, token (.symbol .openBracket)] s)
    (h : elementAssignment s₀.current.span target s = (.ok a, s')) : s₀.Laid [a.outline] s' := by
  obtain ⟨_, _, hposition, h⟩ := hopen.step laid_expr h
  obtain ⟨_, _, hclose, h⟩ := hposition.step laid_symbol h
  obtain ⟨_, _, hassign, h⟩ := hclose.step laid_symbol h
  obtain ⟨_, _, hvalue, h⟩ := hassign.step laid_expr h
  obtain ⟨_, _, hend, h⟩ := hvalue.step laid_symbol h
  cases h
  exact hend.close trivial

theorem laid_referenceStmt (hlength : s₀.terminals.length ≤ n + 1)
    (htarget : s₀.Laid [target.outline] s)
    (h : referenceStmt n s₀.current.span target s = (.ok a, s')) : s₀.Laid [a.outline] s' := by
  unfold referenceStmt at h
  rw [bind_peek] at h
  generalize hkind : s.current.kind = kind at h
  split at h
  next =>
    rw [bind_advance] at h
    obtain ⟨_, _, hvalue, h⟩ := (htarget.take hkind nofun).step laid_expr h
    obtain ⟨_, _, hend, h⟩ := hvalue.step laid_symbol h
    cases h
    exact hend.close trivial
  next => exact laid_elementAssignment (htarget.take hkind nofun) h
  next =>
    have hopen := htarget.take hkind nofun
    have hless := hopen.length_lt trivial
    rw [bind_advance] at h
    obtain ⟨_, _, hargs, h⟩ := bind_ok_iff.mp h
    have hargs := hopen.trans (laid_closeList laid_expr hopen.stop (by omega) hargs)
    obtain ⟨_, _, hend, h⟩ := hargs.step laid_symbol h
    cases h
    -- The outline of the statement groups the same tokens in another way.
    rw [← Expr.outlines_eq, ← append_assoc, append_assoc _ [_] [_]] at hend
    exact hend.close trivial
  next => cases h

theorem laid_nameStmt (hs : s.Orderly) (hlength : s.terminals.length ≤ n + 1)
    (hkind : s.current.kind = .identifier) (h : nameStmt n s.current.span s = (.ok a, s')) :
    s.Laid [a.outline] s' := by
  have hname := laid_name hs hkind
  unfold nameStmt at h
  rw [bind_advance, bind_peek] at h
  generalize hsecond : s.next.current.kind = second at h
  split at h
  next => exact laid_declaration (laid_plainType hs hkind nofun (.type .object)) h
  next =>
    rw [bind_advance] at h
    -- Empty brackets behind a name make it a type.
    have htokens := (TokenStream.laid_token hs hkind nofun).take hsecond nofun
    obtain ⟨h, hclose⟩ | h := htokens.accept h nofun
    · rw [if_pos rfl, bind_spanFrom] at h
      refine laid_declaration ?_ h
      exact (hclose.own [_, _, _] (.type .objectArray)).close (not_formsResult_nil _)
    · exact laid_elementAssignment (hname.take hsecond nofun) h
  next =>
    obtain ⟨_, _, htarget, h⟩ := bind_ok_iff.mp h
    exact laid_referenceStmt hlength (laid_members n hname htarget) h

theorem laid_condition {word : Keyword} (hword : s₀.Laid [token (.keyword word)] s)
    (h : condition s = (.ok e, s')) :
    s₀.Laid [token (.keyword word), token (.symbol .openParen), e.outline,
      token (.symbol .closeParen)] s' := by
  obtain ⟨_, _, hopen, h⟩ := hword.step laid_symbol h
  obtain ⟨_, _, htest, h⟩ := hopen.step laid_expr h
  obtain ⟨_, _, hclose, h⟩ := htest.step laid_symbol h
  cases h
  exact hclose

theorem laid_returnStmt (hword : s₀.Laid [token (.keyword .returnKw)] s)
    (h : returnStmt s₀.current.span s = (.ok a, s')) : s₀.Laid [a.outline] s' := by
  unfold returnStmt at h
  rw [bind_peek] at h
  split at h
  next =>
    obtain ⟨_, _, hend, h⟩ := hword.step laid_symbol h
    cases h
    exact hend.close nofun
  next =>
    obtain ⟨_, _, hvalue, h⟩ := hword.step laid_expr h
    obtain ⟨_, _, hend, h⟩ := hvalue.step laid_symbol h
    cases h
    exact hend.close nofun

theorem laid_ifStmt {stmt : Parser Stmt} (hstmt : Lays n stmt Stmt.outline)
    (hlength : s₀.terminals.length ≤ n + 1) (hword : s₀.Laid [token (.keyword .ifKw)] s)
    (h : ifStmt stmt s₀.current.span s = (.ok a, s')) : s₀.Laid [a.outline] s' := by
  obtain ⟨_, _, htest, h⟩ := bind_ok_iff.mp h
  have htest := laid_condition hword htest
  obtain ⟨_, _, hthen, h⟩ := htest.within nofun hstmt hlength h
  obtain ⟨h, helse⟩ | h := hthen.accept h nofun
  · obtain ⟨_, _, hbranch, h⟩ := helse.within nofun hstmt hlength h
    cases h
    exact hbranch.close nofun
  · cases h
    exact hthen.close nofun

end Grammar

theorem Stmt.visible_outline (a : Stmt) : a.outline.Visible := by
  cases a with
  | ret _ value => cases value <;> trivial
  | _ => trivial

theorem Stmt.outlines_eq (as : List Stmt) : Stmt.outlines as = as.map Stmt.outline := by
  induction as with
  | nil => rfl
  | cons _ _ ih => rw [Stmt.outlines, ih, map_cons]

namespace Grammar

open MiniJava.Parser

variable {n : Nat} {s s₀ s' : TokenStream}

/-- A statement that is read lies on the tokens taken for it. -/
theorem laid_stmtOver {stmt : Parser Stmt} (hstmt : Lays n stmt Stmt.outline) :
    Lays (n + 1) (stmtOver stmt n) Stmt.outline := by
  intro s _ _ hs hlength h
  unfold stmtOver at h
  rw [bind_here, bind_peek] at h
  generalize hkind : s.current.kind = kind at h
  split at h
  next =>
    have hopen := TokenStream.laid_token hs hkind nofun
    have hless := hopen.length_lt nofun
    rw [bind_advance] at h
    obtain ⟨_, _, hbody, h⟩ := bind_ok_iff.mp h
    have hbody := hopen.trans (laid_manyUntil hstmt Stmt.visible_outline (Nat.le_refl n) hopen.stop
      (by omega) hbody)
    cases h
    rw [← Stmt.outlines_eq] at hbody
    exact hbody.close nofun
  next =>
    obtain ⟨_, _, hwritten, h⟩ := bind_ok_iff.mp h
    exact laid_declaration (laid_type hs hlength hwritten) h
  next =>
    obtain ⟨_, _, hwritten, h⟩ := bind_ok_iff.mp h
    exact laid_declaration (laid_type hs hlength hwritten) h
  next => exact laid_returnStmt (TokenStream.laid_token hs hkind nofun) h
  next => exact laid_ifStmt hstmt hlength (TokenStream.laid_token hs hkind nofun) h
  next =>
    rw [bind_advance] at h
    obtain ⟨_, _, htest, h⟩ := bind_ok_iff.mp h
    have htest := laid_condition (TokenStream.laid_token hs hkind nofun) htest
    obtain ⟨_, _, hbody, h⟩ := htest.within nofun hstmt hlength h
    cases h
    exact hbody.close nofun
  next =>
    rw [bind_advance] at h
    obtain ⟨_, _, htarget, h⟩ := bind_ok_iff.mp h
    exact laid_referenceStmt hlength (laid_members n (laid_this hs hkind) htarget) h
  next => exact laid_nameStmt hs hlength hkind h
  next => cases h

theorem laid_stmtWithin (n : Nat) : Lays n (stmtWithin n) Stmt.outline := by
  induction n with
  | zero => exact fun s _ _ _ hlength => absurd hlength (s.not_length_le_zero)
  | succ _ ih => exact laid_stmtOver ih

theorem laid_stmt : Lays n stmt Stmt.outline := Lays.bounded laid_stmtWithin

/-! ## Classes -/

theorem laid_param : Lays n param Param.outline := by
  intro _ _ _ hs hlength h
  obtain ⟨_, _, hwritten, h⟩ := (TokenStream.laid_refl hs).bind laid_type hlength h
  obtain ⟨_, _, hname, h⟩ := (TokenStream.laid_refl hwritten.stop).step laid_ident h
  cases h
  exact laid_joined hwritten hname

/-- What is read as a word of the grammar, seen as tokens. -/
theorem laid_of_prompt {α : Type} {p : Parser α} {L : Nonterminal α}
    (hprompt : Prompt (fun _ => False) n p L) : Lays n p fun a => own (L · a) := by
  intro _ _ _ hs hlength h
  obtain ⟨us, hus, hforms⟩ := hprompt.exists_of_ok hs.ended hlength h
  exact ⟨hs, us, hus.takes hs.ended, fills_singleton (.own hforms)⟩

theorem laid_modifiers {isPrivate isStatic : Bool}
    (h : s.Laid [own (FormsAccess · isPrivate), own (FormsStatic · isStatic)] s') :
    s.Laid [modifiersOutline isPrivate isStatic] s' := by
  obtain ⟨hs, _, hus, hfills⟩ := h
  cases hfills with | cons haccess hfills =>
  cases haccess with | own haccess =>
  cases hfills.on_of_singleton with | own hstatic =>
  exact ⟨hs, _, hus, fills_singleton (.own ⟨_, _, map_append, haccess, hstatic⟩)⟩

theorem laid_memberType : Lays n memberType outlineOfType := by
  intro _ _ _ hs hlength h
  unfold memberType at h
  rw [bind_peek] at h
  split at h
  next hkind =>
    cases h
    exact laid_plainType hs hkind nofun .void
  next => exact laid_type hs hlength h

/-- A member that is read lies on the tokens taken for it. -/
theorem laid_member (owner : String) : Lays n (member n owner) Member.outline := by
  intro _ _ _ hs hlength h
  unfold member at h
  rw [bind_here] at h
  obtain ⟨_, _, haccess, h⟩ := (TokenStream.laid_refl hs).step (laid_of_prompt prompt_privacy) h
  obtain ⟨_, _, hstatic, h⟩ := haccess.step (laid_of_prompt prompt_static) h
  obtain ⟨_, _, hfront, h⟩ := (laid_modifiers hstatic).step laid_memberType h
  obtain ⟨_, _, hfront, h⟩ := hfront.step laid_ident h
  rw [bind_peek] at h
  split at h
  next =>
    split at h
    next => cases h
    next =>
      obtain ⟨_, _, hend, h⟩ := hfront.step laid_symbol h
      cases h
      exact hend.node ⟨_, mem_cons_of_mem _ mem_cons_self, trivial⟩
  next =>
    obtain ⟨_, _, hopen, h⟩ := hfront.step laid_symbol h
    obtain ⟨_, _, hparams, h⟩ := bind_ok_iff.mp h
    have hparams := hopen.trans (laid_closeList laid_param hopen.stop
      (hopen.length_le.trans hlength) hparams)
    obtain ⟨_, _, hbrace, h⟩ := hparams.step laid_symbol h
    obtain ⟨_, _, hbody, h⟩ := bind_ok_iff.mp h
    have hbody := hbrace.trans (laid_manyUntil laid_stmt Stmt.visible_outline (Nat.le_refl n)
      hbrace.stop (hbrace.length_le.trans hlength) hbody)
    cases h
    rw [← Stmt.outlines_eq, ← append_assoc, ← append_assoc, append_assoc _ [_] [_]] at hbody
    exact hbody.node ⟨_, mem_cons_of_mem _ mem_cons_self, trivial⟩

theorem Member.visible_outline (a : Member) : a.outline.Visible := by
  cases a <;> trivial

theorem Member.spans_outline (ms : List Member) :
    (ms.map Member.outline).filterMap Outline.span? = ms.map Member.span := by
  induction ms with
  | nil => rfl
  | cons a _ ih =>
    cases a <;> exact congrArg _ ih

theorem laid_classDecl : Lays (n + 1) (classDecl n) ClassDecl.outline := by
  intro _ _ _ hs _ h
  obtain ⟨_, _, hfirst, h⟩ := bind_ok_iff.mp h
  obtain ⟨hkind, rfl, rfl⟩ := expect_eq_ok hfirst
  obtain ⟨name, _, hname, h⟩ := (TokenStream.laid_token hs hkind nofun).step laid_ident h
  obtain ⟨_, _, hopen, h⟩ := hname.step laid_symbol h
  have hless := hopen.length_lt nofun
  obtain ⟨members, _, hmembers, h⟩ := bind_ok_iff.mp h
  have hmembers := laid_manyUntil (laid_member name.value) Member.visible_outline (Nat.le_refl n)
    hopen.stop (by omega) hmembers
  cases h
  -- The members are kept as two lists, and their ranges tell how these were mixed.
  have horder : members.Pairwise fun a b => a.span.start < b.span.start := by
    have hall := hmembers.pairwise_start
    rw [filterMap_append, Member.spans_outline, pairwise_append, pairwise_map] at hall
    exact hall.1
  have hwhole := hopen.trans hmembers
  rw [← append_assoc, ← merge_members horder] at hwhole
  exact hwhole.close nofun

/-- Classes lie on the tokens up to the end of the file. -/
theorem laid_classes (m : Nat) {cs : List ClassDecl} (hs : s.Orderly)
    (hlength : s.terminals.length ≤ m) (h : classes m s = (.ok cs, s')) :
    s.Laid (cs.map ClassDecl.outline) s' ∧ s'.current.kind = .endOfFile := by
  induction m generalizing s cs with
  | zero => exact absurd hlength (s.not_length_le_zero)
  | succ _ ih =>
    unfold classes at h
    rw [bind_peek] at h
    split at h
    next hlast =>
      cases h
      exact ⟨TokenStream.laid_refl hs, hlast⟩
    next =>
      obtain ⟨_, _, hfirst, h⟩ := (TokenStream.laid_refl hs).bind laid_classDecl hlength h
      have hless := hfirst.length_lt trivial
      obtain ⟨_, _, hothers, h⟩ := bind_ok_iff.mp h
      cases h
      obtain ⟨hothers, hlast⟩ := ih hfirst.stop (by omega) hothers
      exact ⟨hfirst.trans hothers, hlast⟩

end Grammar

end MiniJava
