import MiniJava.Proofs.Grammar.Printer
import MiniJava.Proofs.Grammar.Streams

/-!
# What is read follows the grammar

If a parser succeeds, the tokens that it has taken form the tree that it gives. If it gives up
because of a token that it did not expect, the tokens in front of this one can still be continued to
what it was to read (`Grammar.Viable`): nothing that is impossible has been taken. Two faults are
not about an unexpected token; they are found at a token that was taken already.

A parser with this property is called prompt (`Parser.Prompt`). The property goes through the steps
of a parser one by one: what the rest of a parser has to read is what completes the part that was
read (`Grammar.Completing`, `Grammar.After`), and a step is prompt if the rest can be completed
whatever it reads.

A parser that repeats gives up quietly when its bound is used up. So the statement is about streams
that are no longer than the bound, and every round has to take a token.
-/

namespace MiniJava

open Grammar List

namespace Grammar

variable {α : Type} {L M : Nonterminal α} {ts us : List Terminal}

/-- The tokens behind something of the first language complete it to something of the second. -/
def Completing {α : Type} (front : List Terminal → Prop) (whole : Nonterminal α) : Nonterminal α :=
  fun ts a => ∀ us, front us → whole (us ++ ts) a

/-- The same tokens, grouped in another way. -/
theorem regroup {α : Type} {L : Nonterminal α} {ts us : List Terminal} {a : α} (h : L ts a)
    (heq : us = ts) : L us a := heq ▸ h

/-- The terminals can be continued to something of the language. -/
def Viable (L : Nonterminal α) (ts : List Terminal) : Prop :=
  ∃ us a, (∀ u ∈ us, u.Lexical) ∧ L (ts ++ us) a

/-- What completes these terminals. -/
def After (ts : List Terminal) (L : Nonterminal α) : Nonterminal α := fun us a => L (ts ++ us) a

theorem viable_of_nil {a : α} (h : L [] a) : Viable L [] := ⟨[], a, nofun, h⟩

/-- What can be continued in a part of the language can be continued behind what is in front of
it. -/
theorem Viable.behind (h : Viable L us) (himp : ∀ vs a, L vs a → M (ts ++ vs) a) :
    Viable M (ts ++ us) := by
  obtain ⟨vs, a, hvs, ha⟩ := h
  exact ⟨vs, a, hvs, (append_assoc ts us vs).symm ▸ himp _ a ha⟩

/-- If a part can be continued, and whatever it becomes can be completed, then so can the whole. -/
theorem Viable.of_part {β : Type} {K : Nonterminal β} (h : Viable K ts)
    (hrest : ∀ b, Viable (Completing (K · b) L) []) : Viable L ts := by
  obtain ⟨us, b, hus, hb⟩ := h
  obtain ⟨vs, a, hvs, ha⟩ := hrest b
  refine ⟨us ++ vs, a, ?_, (append_assoc ts us vs) ▸ ha _ hb⟩
  intro t ht
  exact (mem_append.mp ht).elim (hus t) (hvs t)

end Grammar

variable {kind : TokenKind}

namespace Parser

variable {α β : Type} {S : Span → Prop} {n m : Nat} {L M : Nonterminal α} {s s' : TokenStream}
  {us vs : List Token} {e : Located GrammarFault}

/-- Why a parser gave up behind these tokens: the next one was not expected, although the tokens in
front of it could be continued; or there is another fault in one of them, or in one taken before. -/
inductive Blames (S : Span → Prop) (L : Nonterminal α) (us : List Token) (s' : TokenStream) :
    Located GrammarFault → Prop
  | unexpected {x : Expected} (h : Viable L (us.map Token.terminal)) :
      Blames S L us s' ⟨.unexpected x s'.current, s'.current.span⟩
  | other {fault : GrammarFault} {span : Span} (hfault : ∀ x t, fault ≠ .unexpected x t)
      (hspan : S span ∨ ∃ t ∈ us, t.span = span) : Blames S L us s' ⟨fault, span⟩

/-- What a parser does behind these tokens: they are of the language, or it gives up for a
reason. -/
def Accounts (S : Span → Prop) (L : Nonterminal α) (us : List Token) (s' : TokenStream) :
    Except (Located GrammarFault) α → Prop
  | .ok a => L (us.map Token.terminal) a
  | .error e => Blames S L us s' e

/-- What a parser does on a stream: it takes lexemes, and accounts for them if the stream is not
longer than its bound. -/
def Explains (S : Span → Prop) (n : Nat) (L : Nonterminal α) (s : TokenStream)
    (r : Except (Located GrammarFault) α) (s' : TokenStream) : Prop :=
  ∃ us, s.Passes us s' ∧ (s.Ended → s.terminals.length ≤ n → Accounts S L us s' r)

/-- On streams of at most this length the parser reads the language, and it has taken nothing
impossible when it gives up. -/
structure Prompt (S : Span → Prop) (n : Nat) (p : Parser α) (L : Nonterminal α) : Prop where
  viable : Viable L []
  explains : ∀ s, Explains S n L s (p s).1 (p s).2

/-- The same in front of a token of this class. -/
def PromptAt (S : Span → Prop) (n : Nat) (kind : TokenKind) (p : Parser α)
    (L : Nonterminal α) : Prop :=
  ∀ s : TokenStream, s.current.kind = kind → Explains S n L s (p s).1 (p s).2

/-! ## Reasons -/

theorem Blames.imp {K : Nonterminal β} (h : Blames S K us s' e)
    (hviable : Viable K (us.map Token.terminal) → Viable L (us.map Token.terminal)) :
    Blames S L us s' e := by
  cases h with
  | unexpected h => exact .unexpected (hviable h)
  | other hfault hspan => exact .other hfault hspan

variable {f : Bool → Parser α} {S' : Span → Prop} {item : Parser α}

/-- Reasons stay reasons behind tokens that were taken before. -/
theorem Blames.behind (h : Blames S' M us s' e)
    (himp : ∀ ts a, M ts a → L (vs.map Token.terminal ++ ts) a)
    (hspan : ∀ span, S' span → S span ∨ ∃ t ∈ vs, t.span = span) : Blames S L (vs ++ us) s' e := by
  cases h with
  | unexpected h =>
    refine .unexpected ?_
    rw [map_append]
    exact h.behind himp
  | other hfault hwhere =>
    refine .other hfault ?_
    obtain h | ⟨t, ht, heq⟩ := hwhere
    · refine (hspan _ h).imp_right ?_
      rintro ⟨t, ht, heq⟩
      exact ⟨t, mem_append_left us ht, heq⟩
    · exact .inr ⟨t, mem_append_right vs ht, heq⟩

theorem Accounts.behind {r : Except (Located GrammarFault) α} (vs : List Token)
    (h : Accounts S' M us s' r) (himp : ∀ ts a, M ts a → L (vs.map Token.terminal ++ ts) a)
    (hspan : ∀ span, S' span → S span ∨ ∃ t ∈ vs, t.span = span) :
    Accounts S L (vs ++ us) s' r := by
  cases r with
  | ok a =>
    show L ((vs ++ us).map Token.terminal) a
    rw [map_append]
    exact himp _ a h
  | error => exact Blames.behind h himp hspan

/-! ## Steps -/

/-- What a parser reads on a stream that is not too long. -/
theorem Prompt.exists_of_ok {p : Parser α} {a : α} (h : Prompt S n p L) (hs : s.Ended)
    (hlength : s.terminals.length ≤ n) (hp : p s = (.ok a, s')) :
    ∃ us, s.Passes us s' ∧ L (us.map Token.terminal) a := by
  obtain ⟨us, hus, haccounts⟩ := h.explains s
  rw [hp] at hus haccounts
  exact ⟨us, hus, haccounts hs hlength⟩

/-- A parser reads a larger language too, and more ranges may be at fault. -/
theorem Prompt.imp {p : Parser α} (h : Prompt S n p L) (himp : ∀ ts a, L ts a → M ts a)
    (hspan : ∀ span, S span → S' span) : Prompt S' n p M := by
  constructor
  · obtain ⟨us, a, hus, ha⟩ := h.viable
    exact ⟨us, a, hus, himp _ a ha⟩
  · intro s
    obtain ⟨us, hus, haccounts⟩ := h.explains s
    refine ⟨us, hus, fun hs hlength => ?_⟩
    exact (haccounts hs hlength).behind [] himp fun span hS => .inl (hspan span hS)

theorem Prompt.mono {p : Parser α} (h : Prompt S n p L) (himp : ∀ ts a, L ts a → M ts a) :
    Prompt S n p M := h.imp himp fun _ => id

theorem Prompt.of_le {p : Parser α} (h : Prompt S n p L) (hm : m ≤ n) : Prompt S m p L := by
  refine ⟨h.viable, fun s => ?_⟩
  obtain ⟨us, hus, haccounts⟩ := h.explains s
  exact ⟨us, hus, fun hs hlength => haccounts hs (hlength.trans hm)⟩

theorem Prompt.at {p : Parser α} (h : Prompt S n p L) (kind : TokenKind) : PromptAt S n kind p L :=
  fun s _ => h.explains s

theorem prompt_pure {a : α} (h : L [] a) : Prompt S n (pure a) L :=
  ⟨viable_of_nil h, fun s => ⟨[], .refl s, fun _ _ => h⟩⟩

theorem prompt_unexpected {x : Expected} (h : Viable L []) : Prompt S n (unexpected x) L :=
  ⟨h, fun s => ⟨[], .refl s, fun _ _ => .unexpected h⟩⟩

theorem prompt_fail {fault : GrammarFault} {span : Span} (hfault : ∀ x t, fault ≠ .unexpected x t)
    (hspan : S span) (h : Viable L []) : Prompt S n (fail fault span) L :=
  ⟨h, fun s => ⟨[], .refl s, fun _ _ => .other hfault (.inl hspan)⟩⟩

/-- With the bound used up, nothing is said of what is read. -/
theorem prompt_pure_zero (a : α) (h : Viable L []) : Prompt S 0 (pure a) L :=
  ⟨h, fun s => ⟨[], .refl s, fun _ hlength => absurd hlength s.not_length_le_zero⟩⟩

theorem prompt_here {f : Span → Parser α} (h : ∀ span, Prompt S n (f span) L) :
    Prompt S n (here >>= f) L :=
  ⟨(h Span.builtin).viable, fun s => (h s.current.span).explains s⟩

theorem prompt_spanFrom {start : Span} {f : Span → Parser α} (h : ∀ span, Prompt S n (f span) L) :
    Prompt S n (spanFrom start >>= f) L :=
  ⟨(h Span.builtin).viable, fun s => (h _).explains s⟩

/-- A tree is finished with its range. -/
theorem prompt_spanned {start : Span} {f : Span → α} (h : ∀ span, L [] (f span)) :
    Prompt S n (spanFrom start >>= fun span => pure (f span)) L :=
  prompt_spanFrom fun span => prompt_pure (h span)

theorem prompt_peek {f : TokenKind → Parser α} (hviable : Viable L [])
    (h : ∀ kind, PromptAt S n kind (f kind) L) : Prompt S n (peek >>= f) L :=
  ⟨hviable, fun s => h s.current.kind s rfl⟩

/-- A token of a known class is taken, and there is one token less behind it. -/
theorem promptAt_advance {f : Token → Parser α} (hkind : kind.Proper)
    (h : ∀ t : Token, t.kind = kind → Prompt S m (f t) (After [kind.terminal t.text] L))
    (hm : n ≤ m + 1) : PromptAt S n kind (advance >>= f) L := by
  intro s hcurrent
  obtain ⟨_, hus, haccounts⟩ := (h s.current hcurrent).explains s.next
  refine ⟨_, .next (hcurrent ▸ hkind) hus, fun hs hlength => ?_⟩
  have hnext := advances_of_kind hs hcurrent hkind.ne_endOfFile
  refine (haccounts hnext.ended (hnext.length_le (hlength.trans hm))).behind [s.current] ?_
    fun _ => .inl
  intro _ _ h
  rw [map_singleton, Token.terminal, hcurrent]
  exact h

theorem prompt_accept {t : Terminal} (hkind : kind.Proper)
    (hterminal : ∀ text, kind.terminal text = t) (htrue : Prompt S m (f true) (After [t] L))
    (hm : n ≤ m + 1) (hfalse : Prompt S n (f false) L) :
    Prompt S n (accept kind >>= f) L := by
  refine ⟨hfalse.viable, fun s => ?_⟩
  by_cases hcurrent : s.current.kind = kind
  · rw [bind_apply_ok (accept_apply_of_eq hcurrent)]
    have hadvance : PromptAt S n kind (advance >>= fun _ => f true) L := by
      refine promptAt_advance hkind (fun t _ => ?_) hm
      rw [hterminal]
      exact htrue
    exact hadvance s hcurrent
  · rw [bind_apply_ok (accept_apply_of_ne hcurrent)]
    exact hfalse.explains s

/-- One parser behind the other: the second completes what the first has read. The second may find a
fault in a token that the first has taken. -/
theorem Prompt.bind_of_span {K : Nonterminal β} {T : β → Span → Prop} {p : Parser β}
    {f : β → Parser α} (hp : Prompt S n p K)
    (hf : ∀ b, Prompt (fun span => S span ∨ T b span) m (f b) (Completing (K · b) L))
    (hm : ∀ ts b, K ts b → n ≤ m + ts.length)
    (hspan : ∀ ⦃s b mid us⦄, s.Ended → p s = (.ok b, mid) → s.Passes us mid → ∀ span, T b span →
      ∃ t ∈ us, t.span = span) : Prompt S n (p >>= f) L := by
  refine ⟨hp.viable.of_part fun b => (hf b).viable, fun s => ?_⟩
  obtain ⟨us, hus, hfirst⟩ := hp.explains s
  rcases hresult : p s with ⟨e | b, mid⟩ <;> rw [hresult] at hus hfirst
  · -- Whatever the first parser would have read, the second could have completed it.
    rw [bind_apply_error hresult]
    refine ⟨us, hus, fun hs hlength => Blames.imp (hfirst hs hlength) fun h => ?_⟩
    exact h.of_part fun b => (hf b).viable
  · rw [bind_apply_ok hresult]
    obtain ⟨vs, hvs, hrest⟩ := (hf b).explains mid
    refine ⟨us ++ vs, hus.trans hvs, fun hs hlength => ?_⟩
    have hb : K (us.map Token.terminal) b := hfirst hs hlength
    have hmid := hus.advances hs
    refine (hrest hmid.ended (hmid.length_le (hlength.trans (hm _ b hb)))).behind us
      (fun ts a h => h _ hb) fun span h => ?_
    exact h.imp_right (hspan hs hresult hus span)

theorem Prompt.bind_of_length {K : Nonterminal β} {p : Parser β} {f : β → Parser α}
    (hp : Prompt S n p K) (hf : ∀ b, Prompt S m (f b) (Completing (K · b) L))
    (hm : ∀ ts b, K ts b → n ≤ m + ts.length) : Prompt S n (p >>= f) L :=
  hp.bind_of_span (T := fun _ _ => False) (fun b => (hf b).imp (fun _ _ => id) fun _ => .inl) hm
    fun _ _ _ _ _ _ _ _ h => h.elim

theorem Prompt.bind {K : Nonterminal β} {p : Parser β} {f : β → Parser α} (hp : Prompt S n p K)
    (hf : ∀ b, Prompt S n (f b) (Completing (K · b) L)) : Prompt S n (p >>= f) L :=
  hp.bind_of_length hf fun _ _ _ => Nat.le_add_right _ _

theorem Prompt.bounded {p : Nat → Parser α} (h : ∀ n, Prompt S n (p n) L) :
    Prompt S n (bounded p) L := by
  refine ⟨(h 0).viable, fun s => ?_⟩
  obtain ⟨us, hus, haccounts⟩ := (h (s.upcoming.length + 1)).explains s
  exact ⟨us, hus, fun hs _ => haccounts hs (Nat.le_of_eq (length_map _))⟩

/-! ## Single tokens -/

theorem lexical_name : (Terminal.identifier "x").Lexical :=
  .identifier rfl nofun (by decide)

theorem prompt_expect (kind : TokenKind) (text : String) (hkind : kind.Proper)
    (hlexical : (kind.terminal text).Lexical) :
    Prompt S n (expect kind) (fun ts token => ts = [kind.terminal token.text]) := by
  have hviable : Viable (fun ts (token : Token) => ts = [kind.terminal token.text]) [] :=
    ⟨_, ⟨kind, text, Span.builtin⟩, forall_mem_singleton.mpr hlexical, rfl⟩
  refine prompt_peek hviable fun found => ?_
  split
  next hfound =>
    subst hfound
    intro s hcurrent
    refine ⟨[s.current], .next (hcurrent ▸ hkind) (.refl _), fun _ _ => ?_⟩
    show [s.current.terminal] = _
    rw [Token.terminal, hcurrent]
  next => exact (prompt_unexpected hviable).at found

/-- A symbol that has to stand here is in front of all that is read behind it. -/
theorem prompt_symbol {sym : Symbol} {f : Unit → Parser α}
    (h : Prompt S n (f ()) (After [.symbol sym] L)) : Prompt S n (expectSymbol sym >>= f) L := by
  have hsymbol : Prompt S n (expectSymbol sym) (fun ts _ => ts = [.symbol sym]) := by
    refine (prompt_expect (.symbol sym) "" trivial (.symbol sym)).bind fun _ => prompt_pure ?_
    rintro _ rfl
    rfl
  refine hsymbol.bind fun _ => h.mono ?_
  rintro _ _ h _ rfl
  exact h

theorem prompt_ident : Prompt S n ident (fun ts name => ts = [.identifier name.value]) := by
  refine (prompt_expect .identifier "x" trivial lexical_name).bind fun _ => prompt_pure ?_
  rintro _ rfl
  rfl

theorem prompt_acceptSymbol (sym : Symbol) (htrue : Prompt S n (f true) (After [.symbol sym] L))
    (hfalse : Prompt S n (f false) L) :
    Prompt S n (accept (.symbol sym) >>= f) L :=
  prompt_accept trivial (fun _ => rfl) htrue (Nat.le_succ n) hfalse

theorem prompt_acceptKeyword (k : Keyword) (htrue : Prompt S n (f true) (After [.keyword k] L))
    (hfalse : Prompt S n (f false) L) :
    Prompt S n (accept (.keyword k) >>= f) L :=
  prompt_accept trivial (fun _ => rfl) htrue (Nat.le_succ n) hfalse

/-! ## Repetition -/

/-- Items with a closing symbol behind them. -/
def ManyClosed (sym : Symbol) (L : Nonterminal α) : Nonterminal (List α) :=
  fun ts as => ∃ us, ts = us ++ [.symbol sym] ∧ Many L us as

/-- Items between parentheses, of which the opening one is taken already. -/
def Listed (L : Nonterminal α) : Nonterminal (List α) := fun ts as =>
  (ts = [.symbol .closeParen] ∧ as = []) ∨
    ∃ us, ts = us ++ [.symbol .closeParen] ∧ Separated L us as

theorem viable_manyClosed (sym : Symbol) : Viable (ManyClosed sym L) [] :=
  ⟨[.symbol sym], [], forall_mem_singleton.mpr (.symbol sym), [], rfl, .nil⟩

theorem viable_listed : Viable (Listed L) [] :=
  ⟨[.symbol .closeParen], [], forall_mem_singleton.mpr (.symbol _), .inl ⟨rfl, rfl⟩⟩

theorem prompt_manyUntil {sym : Symbol} (hitem : Prompt S n item L) (htakes : ∀ a, ¬ L [] a)
    (hm : m ≤ n) :
    Prompt S m (manyUntil (.symbol sym) item m) (ManyClosed sym L) := by
  induction m with
  | zero => exact prompt_pure_zero [] (viable_manyClosed sym)
  | succ m ih =>
    refine prompt_acceptSymbol sym ?_ ?_
    · exact prompt_pure ⟨[], rfl, .nil⟩
    · refine (hitem.of_le hm).bind_of_length
        (fun first => (ih (Nat.le_of_succ_le hm)).bind fun others =>
        prompt_pure ?_) ?_
      · rintro _ ⟨vs, rfl, hothers⟩ us hfirst
        exact ⟨us ++ vs, by simp, .cons hfirst hothers⟩
      · -- The item has taken a token, so one round less is enough for the others.
        intro ts a ha
        have htaken : ts ≠ [] := fun hnil => htakes a (hnil ▸ ha)
        exact Nat.add_le_add_left (length_pos_iff.mpr htaken) m

theorem prompt_commaSeparated (hitem : Prompt S n item L) (hm : m ≤ n) :
    Prompt S m (commaSeparated item m) (Separated L) := by
  induction m with
  | zero =>
    exact prompt_pure_zero [] (hitem.viable.imp fun us ⟨a, hus, ha⟩ => ⟨[a], hus, .single ha⟩)
  | succ _ ih =>
    refine (hitem.of_le hm).bind fun first => ?_
    refine prompt_accept trivial (fun _ => rfl) ?_ (Nat.le_refl _) ?_
    · refine (ih (Nat.le_of_succ_le hm)).bind fun others => prompt_pure ?_
      intro _ hothers us hfirst
      exact regroup (.cons hfirst hothers) (by simp)
    · refine prompt_pure fun us hfirst => regroup (.single hfirst) (append_nil _)

theorem prompt_closeList (hitem : Prompt S n item L) :
    Prompt S n (closeList item n) (Listed L) := by
  unfold closeList
  refine prompt_peek viable_listed fun found => Prompt.at ?_ found
  split
  · exact prompt_symbol (prompt_pure (.inl ⟨rfl, rfl⟩))
  · refine (prompt_commaSeparated hitem (Nat.le_refl n)).bind fun items =>
      prompt_symbol (prompt_pure fun us hitems => ?_)
    exact .inr ⟨us, by simp, hitems⟩

end Parser

namespace Grammar

open MiniJava.Parser

variable {S : Span → Prop} {n : Nat}

/-! ## References and operators -/

theorem prompt_members (m : Nat) (base : Ref) :
    Prompt S n (members m base) (Completing (FormsRef · base) FormsRef) := by
  induction m generalizing base with
  | zero => exact prompt_pure fun us hus => regroup hus (append_nil _)
  | succ _ ih =>
    refine prompt_acceptSymbol _ ?_ (prompt_pure fun us hus => regroup hus (append_nil _))
    refine prompt_ident.bind fun field => (ih _).mono ?_
    rintro _ _ h _ rfl _ hus
    exact regroup (h _ (.member hus)) (by simp)

/-- The operators of a level of the parser are those of the grammar. -/
theorem lookup_level {k : Nat} {level : List (Symbol × BinaryOp)}
    (hlevel : precedence[k]? = some level) {sym : Symbol} {op : BinaryOp} :
    level.lookup sym = some op ↔ BinaryAt k sym op := by
  constructor
  · intro h
    obtain ⟨_, _, hsplit, -⟩ := lookup_eq_some_iff.mp h
    have hmem : (sym, op) ∈ level := by
      rw [hsplit]
      exact mem_append_right _ mem_cons_self
    obtain ⟨hk, rfl⟩ := List.getElem?_eq_some_iff.mp hlevel
    clear h hlevel hsplit
    -- The levels have one, two or four operators.
    match k, hk with
    | 0, _ | 1, _ =>
      cases List.mem_singleton.mp hmem
      constructor
    | 2, _ | 4, _ | 5, _ =>
      obtain hpair | hmem := mem_cons.mp hmem
      · cases hpair
        constructor
      · cases mem_singleton.mp hmem
        constructor
    | 3, _ =>
      obtain hpair | hmem := mem_cons.mp hmem
      · cases hpair
        constructor
      · simp only [mem_cons, not_mem_nil, or_false] at hmem
        obtain hpair | hpair | hpair := hmem <;> cases hpair <;> constructor
  · intro h
    cases h <;> cases hlevel <;> rfl

theorem prompt_operands {k : Nat} {level : List (Symbol × BinaryOp)}
    (hlevel : precedence[k]? = some level) {operand : Parser Expr}
    (hoperand : Prompt S n operand (FormsExpr (k + 1))) (m : Nat) (left : Expr) :
    Prompt S n (operands level operand m left) (Completing (FormsExpr k · left) (FormsExpr k)) := by
  have hdone : ∀ left : Expr, Prompt S n (pure left)
      (Completing (FormsExpr k · left) (FormsExpr k)) :=
    fun left => prompt_pure fun us hus => regroup hus (append_nil _)
  induction m generalizing left with
  | zero => exact hdone left
  | succ _ ih =>
    refine prompt_peek (hdone left).viable fun kind => ?_
    cases hop : binaryOp? level kind with
    | none => exact (hdone left).at kind
    | some _ =>
      -- Only a symbol stands for a binary operator.
      unfold binaryOp? at hop
      split at hop
      next =>
        refine promptAt_advance trivial (fun _ _ => hoperand.bind fun right => (ih _).mono ?_)
          (Nat.le_succ n)
        intro _ _ h _ hright _ hleft
        exact regroup (h _ (.binary ((lookup_level hlevel).mp hop) hleft hright)) (by simp)
      next => cases hop

/-- What holds of the operands, and of a level whenever it holds of the next tighter one, holds of
all levels. -/
theorem binary_induction {operand : Parser Expr} {m : Nat} {motive : Nat → Parser Expr → Prop}
    (hoperand : motive 6 operand)
    (hstep : ∀ k level tighter, precedence[k]? = some level →
      motive (k + 1) (binary operand m tighter) → motive k (binary operand m (level :: tighter))) :
    motive 0 (binary operand m precedence) := by
  have hdrop (k : Nat) (hk : k ≤ 6) : motive k (binary operand m (precedence.drop k)) := by
    induction hk using Nat.decreasingInduction with
    | self => exact hoperand
    | of_succ k hk ih =>
      rw [drop_eq_getElem_cons hk]
      exact hstep k _ _ (getElem?_eq_getElem hk) ih
  exact hdrop 0 (Nat.zero_le 6)

theorem prompt_binary {operand : Parser Expr}
    (hoperand : Prompt S n operand (FormsExpr 6)) (m : Nat) :
    Prompt S n (binary operand m precedence) (FormsExpr 0) := by
  refine binary_induction (motive := fun k p => Prompt S n p (FormsExpr k)) hoperand ?_
  intro _ _ tighter hlevel hnext
  refine hnext.bind fun left => (prompt_operands hlevel hnext m left).mono ?_
  intro _ _ h us hus
  exact h us (.tighter hus)

theorem unaryOf_of_unaryOp {op : UnaryOp} (h : unaryOp? kind = some op) :
    ∃ sym, kind = .symbol sym ∧ UnaryOf sym op := by
  unfold unaryOp? at h
  split at h
  next => cases h; exact ⟨_, rfl, .not⟩
  next => cases h; exact ⟨_, rfl, .neg⟩
  next => cases h

theorem prompt_unary {primary : Parser Expr}
    (hprimary : Prompt S n primary (FormsExpr 7)) (m : Nat) :
    Prompt S n (unary primary m) (FormsExpr 6) := by
  have htight : Prompt S n primary (FormsExpr 6) := hprimary.mono fun _ _ h => .tighter h
  induction m with
  | zero => exact htight
  | succ _ ih =>
    refine prompt_peek htight.viable fun kind => ?_
    cases hop : unaryOp? kind with
    | none => exact htight.at kind
    | some _ =>
      obtain ⟨_, rfl, hunary⟩ := unaryOf_of_unaryOp hop
      refine promptAt_advance trivial (fun token _ => ih.bind fun operand => prompt_pure ?_)
        (Nat.le_succ n)
      intro _ hoperand
      exact regroup (.unary hunary hoperand) (by simp)

/-! ## Expressions -/

theorem viable_expr (k : Nat) (hk : k ≤ 7) : Viable (FormsExpr k) [] := by
  refine ⟨[.keyword .trueKw], .literal Span.builtin (.bool true), ?_, ?_⟩
  · exact forall_mem_singleton.mpr (.keyword _)
  · induction hk using Nat.decreasingInduction with
    | self => exact .true
    | of_succ _ _ ih => exact .tighter ih

theorem decimalValue_eq (digits : String) : decimalValue digits.toList = literalValue digits := by
  unfold decimalValue literalValue
  rw [Nat.ofDigits_eq_foldr, ← map_reverse, foldr_map, foldl_eq_foldr_reverse]
  congr 1
  funext c value
  exact Nat.add_comm ..

theorem promptAt_number : PromptAt S n .number number (FormsExpr 7) := by
  intro s hkind
  have hpasses : s.Passes [s.current] s.next := .next (hkind ▸ trivial) (.refl _)
  unfold number
  rw [bind_advance]
  split
  next hrange =>
    refine ⟨_, hpasses, fun _ _ => ?_⟩
    show FormsExpr 7 [s.current.terminal] _
    rw [Token.terminal, hkind]
    rw [decimalValue_eq] at hrange ⊢
    exact .number hrange
  next =>
    refine ⟨_, hpasses, fun _ _ => .other ?_ (.inr ⟨_, mem_singleton_self _, rfl⟩)⟩
    intro _ _ h
    cases h

section

variable {expr : Parser Expr} (hexpr : Prompt S n expr (FormsExpr 0))
include hexpr

theorem prompt_arraySize (start : Span) (element : Located Ty) :
    Prompt S n (arraySize expr start element) (fun ts e => ∃ us size span,
      ts = us ++ [.symbol .closeBracket] ∧ FormsExpr 0 us size ∧
        e = .newArray span element size) := by
  refine hexpr.bind fun size => prompt_symbol (prompt_spanned fun span us hsize => ?_)
  exact ⟨us, size, span, rfl, hsize, rfl⟩

theorem prompt_creation (start : Span) :
    Prompt S n (creation expr start) (After [.keyword .newKw] (FormsExpr 7)) := by
  have hname : ∀ className : Ident, Viable (Completing (· = [.identifier className.value])
      (After [.keyword .newKw] (FormsExpr 7))) [] := by
    intro className
    refine ⟨[.symbol .openParen, .symbol .closeParen], .newObject Span.builtin className, ?_, ?_⟩
    · simp only [forall_mem_cons]
      exact ⟨.symbol _, .symbol _, nofun⟩
    · rintro _ rfl
      exact .newObject
  have hviable : Viable (After [.keyword .newKw] (FormsExpr 7)) [] :=
    (prompt_ident (S := S) (n := n)).viable.of_part hname
  refine prompt_peek hviable fun kind => ?_
  split
  next =>
    refine Prompt.at (prompt_ident.bind fun className => ?_) _
    refine prompt_acceptSymbol _ ?_ (prompt_acceptSymbol _ ?_ ?_)
    · refine prompt_symbol (prompt_spanned fun span => ?_)
      rintro _ rfl
      exact .newObject
    · refine (prompt_arraySize hexpr start _).mono ?_
      rintro _ _ ⟨_, _, _, rfl, hsize, rfl⟩ _ rfl
      exact regroup (.newArray hsize) (by simp)
    · exact prompt_unexpected (hname className)
  next =>
    refine promptAt_advance trivial (fun token _ => prompt_symbol ?_) (Nat.le_succ n)
    refine (prompt_arraySize hexpr start _).mono ?_
    rintro _ _ ⟨_, _, _, rfl, hsize, rfl⟩
    exact regroup (L := FormsExpr 7) (.newIntArray hsize) (by simp)
  next => exact (prompt_unexpected hviable).at _

theorem prompt_useOfReference (start : Span) (target : Ref) :
    Prompt S n (useOfReference expr n start target)
      (Completing (FormsRef · target) (FormsExpr 7)) := by
  refine prompt_acceptSymbol _ ?_ (prompt_acceptSymbol _ ?_ ?_)
  · refine hexpr.bind fun position => prompt_symbol
      (prompt_spanned fun span us hposition ts hts => ?_)
    exact regroup (.index hts hposition) (by simp)
  · refine (prompt_closeList hexpr).bind fun args => prompt_spanned fun span => ?_
    rintro _ (⟨rfl, rfl⟩ | ⟨_, rfl, hargs⟩) ts hts
    · exact .callNone hts
    · exact regroup (.call hts hargs) (by simp)
  · exact prompt_pure fun ts hts => regroup (.ref hts) (append_nil _)

theorem prompt_reference (start : Span) (base : Ref) :
    Prompt S n (members n base >>= useOfReference expr n start)
      (Completing (FormsRef · base) (FormsExpr 7)) := by
  refine (prompt_members n base).bind fun target =>
    (prompt_useOfReference hexpr start target).mono ?_
  intro _ _ h _ hvs us hus
  exact regroup (h _ (hvs us hus)) (by simp)

theorem prompt_primary : Prompt S (n + 1) (primary expr n) (FormsExpr 7) := by
  refine prompt_here fun start => prompt_peek (viable_expr 7 (Nat.le_refl 7)) fun kind => ?_
  split
  next => exact promptAt_number
  next => exact promptAt_advance trivial (fun _ _ => prompt_pure .true) (Nat.le_refl _)
  next => exact promptAt_advance trivial (fun _ _ => prompt_pure .false) (Nat.le_refl _)
  next => exact promptAt_advance trivial (fun _ _ => prompt_pure .null) (Nat.le_refl _)
  next =>
    refine promptAt_advance trivial (fun _ _ => hexpr.bind fun inner =>
      prompt_symbol (prompt_spanned fun span us hinner => ?_)) (Nat.le_refl _)
    exact regroup (L := FormsExpr 7) (.paren hinner) (by simp)
  next => exact promptAt_advance trivial (fun _ _ => prompt_creation hexpr start) (Nat.le_refl _)
  next =>
    refine promptAt_advance trivial (fun token _ => (prompt_reference hexpr start _).mono ?_)
      (Nat.le_refl _)
    exact fun ts e h => h _ .this
  next =>
    refine promptAt_advance trivial (fun token _ => (prompt_reference hexpr start _).mono ?_)
      (Nat.le_refl _)
    exact fun ts e h => h _ .name
  next => exact (prompt_unexpected (viable_expr 7 (Nat.le_refl 7))).at _

end

theorem prompt_exprWithin (n : Nat) : Prompt S n (exprWithin n) (FormsExpr 0) := by
  induction n with
  | zero => exact prompt_unexpected (viable_expr 0 (Nat.zero_le 7))
  | succ n ih => exact prompt_binary (prompt_unary (prompt_primary ih) n) n

theorem prompt_expr : Prompt S n expr (FormsExpr 0) := Prompt.bounded prompt_exprWithin

/-! ## Types and statements -/

theorem prompt_arrayOrPlain {element : Ty} {us : List Terminal} (hplain : FormsType us element)
    (harray : FormsType (us ++ [.symbol .openBracket, .symbol .closeBracket]) (.array element))
    (start : Span) :
    Prompt S n (arrayOrPlain start element) (After us fun ts t => FormsType ts t.value) := by
  refine prompt_acceptSymbol _ ?_ ?_
  · exact prompt_symbol (prompt_spanned fun span => harray)
  · refine prompt_pure ?_
    show FormsType (us ++ []) element
    rwa [append_nil]

theorem prompt_type : Prompt S n type (fun ts t => FormsType ts t.value) := by
  have hviable : Viable (fun ts (t : Located Ty) => FormsType ts t.value) [] :=
    ⟨[.keyword .intKw], ⟨.int, Span.builtin⟩, forall_mem_singleton.mpr (.keyword _), .int⟩
  refine prompt_here fun start => prompt_peek hviable fun kind => ?_
  split
  next =>
    exact promptAt_advance trivial (fun _ _ => prompt_arrayOrPlain .int .intArray start)
      (Nat.le_succ n)
  next => exact promptAt_advance trivial (fun _ _ => prompt_pure .boolean) (Nat.le_succ n)
  next =>
    exact promptAt_advance trivial (fun _ _ => prompt_arrayOrPlain .object .objectArray start)
      (Nat.le_succ n)
  next => exact (prompt_unexpected hviable).at _

theorem prompt_declaration (start : Span) (type : Located Ty) :
    Prompt S n (declaration start type) (Completing (FormsType · type.value) FormsStmt) := by
  refine prompt_ident.bind fun name => prompt_symbol (prompt_expr.bind fun init =>
    prompt_symbol (prompt_spanned fun span => ?_))
  rintro _ hinit _ rfl _ htype
  exact regroup (.declare htype hinit) (by simp)

theorem prompt_elementAssignment (start : Span) (target : Ref) :
    Prompt S n (elementAssignment start target)
      (After [.symbol .openBracket] (Completing (FormsRef · target) FormsStmt)) := by
  refine prompt_expr.bind fun position => prompt_symbol
    (prompt_symbol (prompt_expr.bind fun value =>
    prompt_symbol (prompt_spanned fun span vs hvalue us hposition ts htarget => ?_)))
  exact regroup (.assignIndex htarget hposition hvalue) (by simp)

/-- Behind a reference, a call without arguments is always possible. -/
theorem viable_useOfReference (target : Ref) :
    Viable (Completing (FormsRef · target) FormsStmt) [] := by
  refine ⟨[.symbol .openParen, .symbol .closeParen, .symbol .semicolon],
    .call Span.builtin target [], ?_, fun ts hts => .callNone hts⟩
  simp only [forall_mem_cons]
  exact ⟨.symbol _, .symbol _, .symbol _, nofun⟩

theorem prompt_referenceStmt (start : Span) (target : Ref) :
    Prompt S n (referenceStmt n start target) (Completing (FormsRef · target) FormsStmt) := by
  refine prompt_peek (viable_useOfReference target) fun kind => ?_
  split
  next =>
    refine promptAt_advance trivial (fun _ _ => prompt_expr.bind fun value =>
      prompt_symbol (prompt_spanned fun span us hvalue ts htarget => ?_)) (Nat.le_succ n)
    exact regroup (.assign htarget hvalue) (by simp)
  next =>
    exact promptAt_advance trivial (fun _ _ => prompt_elementAssignment start target)
      (Nat.le_succ n)
  next =>
    refine promptAt_advance trivial (fun _ _ => (prompt_closeList prompt_expr).bind fun args =>
      prompt_symbol (prompt_spanned fun span => ?_)) (Nat.le_succ n)
    rintro _ (⟨rfl, rfl⟩ | ⟨_, rfl, hargs⟩) _ htarget
    · exact .callNone htarget
    · exact regroup (.call htarget hargs) (by simp)
  next => exact (prompt_unexpected (viable_useOfReference target)).at _

theorem promptAt_nameStmt (start : Span) :
    PromptAt S (n + 1) .identifier (nameStmt n start) FormsStmt := by
  refine promptAt_advance trivial (fun token _ => ?_) (Nat.le_refl _)
  have hreference : Prompt S n
      (members n (.name token.span token.text) >>= referenceStmt n start)
      (After [.identifier token.text] FormsStmt) := by
    refine (prompt_members n _).bind fun target => (prompt_referenceStmt start target).mono ?_
    intro ts a h _ hus
    exact regroup (L := FormsStmt) (h _ (hus _ .name)) (by simp)
  refine prompt_peek hreference.viable fun kind => ?_
  split
  next => exact ((prompt_declaration start _).mono fun ts a h => h _ .object).at _
  next =>
    refine promptAt_advance trivial (fun _ _ => prompt_acceptSymbol _ ?_ ?_) (Nat.le_succ n)
    -- Empty brackets behind a name make it a type.
    · refine prompt_spanFrom fun span => (prompt_declaration start _).mono ?_
      exact fun ts a h => h _ .objectArray
    · exact (prompt_elementAssignment start _).mono fun ts a h => h _ .name
  next => exact hreference.at _

theorem prompt_condition :
    Prompt S n condition (fun ts e => ∃ us, FormsExpr 0 us e ∧
      ts = .symbol .openParen :: us ++ [.symbol .closeParen]) := by
  refine prompt_symbol (prompt_expr.bind fun test => prompt_symbol (prompt_pure fun us htest => ?_))
  exact ⟨us, htest, by simp⟩

theorem prompt_returnStmt (start : Span) :
    Prompt S n (returnStmt start) (After [.keyword .returnKw] FormsStmt) := by
  have hviable : Viable (After [.keyword .returnKw] FormsStmt) [] :=
    ⟨[.symbol .semicolon], .ret Span.builtin none, forall_mem_singleton.mpr (.symbol _), .retNone⟩
  refine prompt_peek hviable fun kind => Prompt.at ?_ kind
  split
  · exact prompt_symbol (prompt_spanned fun span => .retNone)
  · refine prompt_expr.bind fun value => prompt_symbol (prompt_spanned fun span us hvalue => ?_)
    exact regroup (L := FormsStmt) (.ret hvalue) (by simp)

/-- No statement is empty. -/
theorem not_formsStmt_nil (a : Stmt) : ¬ FormsStmt [] a := by
  intro h
  generalize hnil : [] = ts at h
  cases h <;> simp at hnil

theorem viable_stmt : Viable FormsStmt [] := by
  refine ⟨[.symbol .openBrace, .symbol .closeBrace], .block Span.builtin [], ?_, .block .nil⟩
  simp only [forall_mem_cons]
  exact ⟨.symbol _, .symbol _, nofun⟩

section

variable {stmt : Parser Stmt} (hstmt : Prompt S n stmt FormsStmt)
include hstmt

theorem prompt_ifStmt (start : Span) :
    Prompt S n (ifStmt stmt start) (After [.keyword .ifKw] FormsStmt) := by
  refine prompt_condition.bind fun test => hstmt.bind fun thenBranch => ?_
  refine prompt_acceptKeyword _ ?_ ?_
  · refine hstmt.bind fun elseBranch => prompt_spanned fun span => ?_
    rintro _ helse _ hthen _ ⟨_, htest, rfl⟩
    exact regroup (L := FormsStmt) (.ifThenElse htest hthen helse) (by simp)
  · refine prompt_spanned fun span => ?_
    rintro _ hthen _ ⟨_, htest, rfl⟩
    exact regroup (L := FormsStmt) (.ifThen htest hthen) (by simp)

theorem prompt_stmtOver : Prompt S (n + 1) (stmtOver stmt n) FormsStmt := by
  have hdeclaration : ∀ start, Prompt S (n + 1)
      (type >>= declaration start) FormsStmt := fun start =>
    prompt_type.bind fun written => prompt_declaration start written
  refine prompt_here fun start => prompt_peek viable_stmt fun kind => ?_
  split
  next =>
    refine promptAt_advance trivial (fun _ _ => (prompt_manyUntil hstmt not_formsStmt_nil
      (Nat.le_refl n)).bind fun body => prompt_spanned fun span => ?_) (Nat.le_refl _)
    rintro _ ⟨us, rfl, hbody⟩
    exact regroup (L := FormsStmt) (.block hbody) (by simp)
  next => exact (hdeclaration start).at _
  next => exact (hdeclaration start).at _
  next => exact promptAt_advance trivial (fun _ _ => prompt_returnStmt start) (Nat.le_refl _)
  next => exact promptAt_advance trivial (fun _ _ => prompt_ifStmt hstmt start) (Nat.le_refl _)
  next =>
    refine promptAt_advance trivial
      (fun _ _ => prompt_condition.bind fun test => hstmt.bind fun body =>
      prompt_spanned fun span => ?_) (Nat.le_refl _)
    rintro _ hbody _ ⟨_, htest, rfl⟩
    exact regroup (L := FormsStmt) (.loop htest hbody) (by simp)
  next =>
    refine promptAt_advance trivial (fun token _ => (prompt_members n _).bind fun target =>
      (prompt_referenceStmt start target).mono ?_) (Nat.le_refl _)
    intro _ _ h _ hus
    exact regroup (L := FormsStmt) (h _ (hus _ .this)) (by simp)
  next => exact promptAt_nameStmt start
  next => exact (prompt_unexpected viable_stmt).at _

end

theorem prompt_stmtWithin (n : Nat) : Prompt S n (stmtWithin n) FormsStmt := by
  induction n with
  | zero => exact prompt_unexpected viable_stmt
  | succ _ ih => exact prompt_stmtOver ih

theorem prompt_stmt : Prompt S n stmt FormsStmt := Prompt.bounded prompt_stmtWithin

/-! ## Classes -/

theorem prompt_param : Prompt S n param FormsParam := by
  refine prompt_type.bind fun written => prompt_ident.bind fun name => prompt_pure ?_
  rintro _ rfl _ htype
  exact regroup (.mk htype) (by simp)

theorem prompt_privacy : Prompt S n privacy FormsAccess := by
  refine prompt_acceptKeyword _ (prompt_pure .isPrivate) (prompt_acceptKeyword _ ?_ ?_)
  · exact prompt_pure .isPublic
  · exact prompt_pure .unsaid

theorem prompt_static : Prompt S n (accept (.keyword .staticKw)) FormsStatic := by
  have h : Prompt S n (accept (.keyword .staticKw) >>= pure) FormsStatic :=
    prompt_acceptKeyword _ (prompt_pure .isStatic) (prompt_pure .unsaid)
  rwa [bind_pure] at h

theorem prompt_memberType : Prompt S n memberType (fun ts t => FormsResult ts t.value) := by
  have htype : Prompt S n type (fun ts t => FormsResult ts t.value) :=
    prompt_type.mono fun _ _ => .type
  refine prompt_peek htype.viable fun kind => ?_
  split
  next hkind =>
    subst hkind
    exact promptAt_advance trivial (fun _ _ => prompt_pure .void) (Nat.le_succ n)
  next => exact htype.at kind

variable {s s' : TokenStream}

/-- A member that is read as `void` has the range of this word. -/
theorem span_of_void {t : Located Ty} {us : List Token} (hs : s.Ended)
    (h : memberType s = (.ok t, s')) (hus : s.Passes us s') (hvoid : t.value = .void) :
    ∃ u ∈ us, u.span = t.span := by
  unfold memberType at h
  rw [bind_peek] at h
  split at h
  next hkind =>
    cases h
    have hlength := (hus.advances hs).length.symm.trans (advances_of_kind hs hkind nofun).length
    generalize s.next = mid at hus hlength
    cases hus with
    | refl => simp at hlength
    | next => exact ⟨_, mem_cons_self, rfl⟩
  next =>
    obtain ⟨ts, -, htype⟩ := (prompt_type (S := fun _ => False)).exists_of_ok hs (Nat.le_refl _) h
    generalize ts.map Token.terminal = terminals at htype
    rw [hvoid] at htype
    cases htype

/-- What is not `void` is a type. -/
theorem formsType_of_formsResult {ts : List Terminal} {type : Ty} (h : FormsResult ts type)
    (hvoid : type ≠ .void) : FormsType ts type := by
  cases h with
  | void => exact absurd rfl hvoid
  | type h => exact h

theorem prompt_member (owner : String) : Prompt S n (member n owner) (FormsMember owner) := by
  refine prompt_here fun start => prompt_privacy.bind fun isPrivate =>
    prompt_static.bind fun isStatic => ?_
  refine prompt_memberType.bind_of_span (T := fun t span => t.value = .void ∧ span = t.span)
    (fun written => prompt_ident.bind fun name => ?_) (fun _ _ _ => Nat.le_add_right _ _) ?_
  · have hviable : Viable (Completing (· = [.identifier name.value])
        (Completing (FormsResult · written.value) (Completing (FormsStatic · isStatic)
          (Completing (FormsAccess · isPrivate) (FormsMember owner))))) [] := by
      -- Behind its name, a member can always become a method.
      refine ⟨[.symbol .openParen, .symbol .closeParen, .symbol .openBrace, .symbol .closeBrace],
        .method ⟨Span.builtin, isPrivate, isStatic, written, name, owner, [], []⟩, ?_, ?_⟩
      · simp only [forall_mem_cons]
        exact ⟨.symbol _, .symbol _, .symbol _, .symbol _, nofun⟩
      · rintro _ rfl ts hresult ss hstatic vs haccess
        exact regroup (.method haccess hstatic hresult .none .nil) (by simp)
    refine prompt_peek hviable fun kind => Prompt.at ?_ kind
    split
    · split
      next hvoid => exact prompt_fail (fun _ _ h => nomatch h) (.inr ⟨hvoid, rfl⟩) hviable
      next hvoid =>
        refine prompt_symbol (prompt_spanned fun span => ?_)
        rintro _ rfl _ hresult _ hstatic _ haccess
        exact regroup (.field haccess hstatic (formsType_of_formsResult hresult hvoid)) (by simp)
    · refine prompt_symbol ((prompt_closeList prompt_param).bind fun params => prompt_symbol
        ((prompt_manyUntil prompt_stmt not_formsStmt_nil (Nat.le_refl n)).bind fun body =>
          prompt_spanned fun span => ?_))
      rintro _ ⟨_, rfl, hbody⟩ _ hparams _ rfl _ hresult _ hstatic _ haccess
      obtain ⟨rfl, rfl⟩ | ⟨_, rfl, hseparated⟩ := hparams
      · exact regroup (.method haccess hstatic hresult .none hbody) (by simp)
      · exact regroup (.method haccess hstatic hresult (.some hseparated) hbody) (by simp)
  · rintro _ _ _ _ hs hread hus _ ⟨hvoid, rfl⟩
    exact span_of_void hs hread hus hvoid

theorem not_formsMember_nil (owner : String) (a : Member) : ¬ FormsMember owner [] a := by
  intro h
  generalize hnil : [] = ts at h
  cases h <;> simp at hnil

theorem prompt_classDecl : Prompt S (n + 1) (classDecl n) FormsClass := by
  refine (prompt_expect (.keyword .classKw) "" trivial (.keyword _)).bind_of_length (m := n)
    (fun first => ?_) (fun ts _ h => h ▸ Nat.le_refl _)
  refine prompt_ident.bind fun name => prompt_symbol
    ((prompt_manyUntil (prompt_member name.value) (not_formsMember_nil name.value)
      (Nat.le_refl n)).bind fun members => prompt_spanned fun span => ?_)
  rintro _ ⟨_, rfl, hmembers⟩ _ rfl _ rfl
  exact regroup (.mk hmembers) (by simp)

/-- Classes are read up to the end of the file. -/
theorem prompt_classes (n : Nat) : Prompt S n (classes n) (Many FormsClass) := by
  induction n with
  | zero => exact prompt_pure .nil
  | succ _ ih =>
    refine prompt_peek (viable_of_nil .nil) fun kind => Prompt.at ?_ kind
    split
    · exact prompt_pure .nil
    · refine prompt_classDecl.bind_of_length (fun first => ih.bind fun others => prompt_pure ?_) ?_
      · intro _ hothers _ hfirst
        exact regroup (.cons hfirst hothers) (by simp)
      · rintro _ _ ⟨_⟩
        simp only [cons_append, length_cons]
        omega

/-- The parser of programs is prompt. -/
theorem prompt_program : Prompt S n program (fun ts p => Many FormsClass ts p.classes) := by
  refine (Prompt.bounded prompt_classes).bind fun cs => prompt_pure ?_
  intro _ hus
  exact regroup (L := fun ts p => Many FormsClass ts (Program.classes p)) hus (append_nil _)

/-- Classes are read up to the end of the file, which is not taken. -/
theorem current_of_classes (n : Nat) {cs : List ClassDecl} (hs : s.Ended)
    (hlength : s.terminals.length ≤ n) (h : classes n s = (.ok cs, s')) :
    s'.current.kind = .endOfFile := by
  induction n generalizing s cs with
  | zero => exact absurd hlength s.not_length_le_zero
  | succ _ ih =>
    unfold classes at h
    rw [bind_peek] at h
    split at h
    next hlast =>
      cases h
      exact hlast
    next =>
      obtain ⟨_, _, hfirst, h⟩ := bind_ok_iff.mp h
      obtain ⟨_, _, hothers, h⟩ := bind_ok_iff.mp h
      cases h
      obtain ⟨us, hus, hforms⟩ :=
        (prompt_classDecl (S := fun _ => False)).exists_of_ok hs hlength hfirst
      -- As in `prompt_manyUntil`, the class has taken a token.
      have hclass := hus.advances hs
      have htaken : us.map Token.terminal ≠ [] := by
        intro hnil
        rw [hnil] at hforms
        cases hforms
      have hpos := length_pos_iff.mpr htaken
      exact ih hclass.ended (hclass.length_le (by omega)) hothers

/-- A program is read up to the end of the file. -/
theorem current_of_program {p : Program} (hs : s.Ended) (h : program s = (.ok p, s')) :
    s'.current.kind = .endOfFile ∧ s'.upcoming = [] := by
  have hended : s'.Ended := by
    obtain ⟨_, hus, -⟩ := (prompt_program (S := fun _ => False)).exists_of_ok hs (Nat.le_refl _) h
    exact (hus.advances hs).ended
  obtain ⟨_, _, hclasses, h⟩ := bind_ok_iff.mp h
  cases h
  have hlast := current_of_classes _ hs (Nat.le_of_eq (length_map _)) hclasses
  exact ⟨hlast, map_eq_nil_iff.mp (cons.inj (hended.terminals_of_endOfFile hlast)).2⟩

/-- What is read as a program is a program. -/
theorem sound_program {p : Program} (hs : s.Ended) (h : program s = (.ok p, s')) :
    FormsProgram s.terminals p := by
  obtain ⟨_, hus, hmany⟩ := (prompt_program (S := fun _ => False)).exists_of_ok hs (Nat.le_refl _) h
  have hadvances := hus.advances hs
  rw [hadvances.terminals, hadvances.ended.terminals_of_endOfFile (current_of_program hs h).1]
  exact .mk hmany

end Grammar

/-! ## Sources -/

/-- What the grammar sees of a source. -/
def terminalsOf (source : String) : List Terminal := (lex source).map Token.terminal

variable {source : String} {p : Program}

theorem TokenStream.ended_ofSource (source : String) :
    (TokenStream.ofSource source).Ended ∧
      (TokenStream.ofSource source).terminals = terminalsOf source := by
  obtain ⟨front, last, hsplit, hlast, hothers⟩ := (Scanner.ofSource source).exists_tokens
  unfold TokenStream.ofSource terminalsOf
  cases hlex : lex source with
  | nil => exact absurd (hlex.symm.trans hsplit) (by simp)
  | cons _ _ => exact ⟨⟨front, last, hlex.symm.trans hsplit, hlast, hothers⟩, rfl⟩

theorem parse_eq_ok : parse source = .ok p ↔
    ∃ s, program (TokenStream.ofSource source) = (.ok p, s) ∧ s.pending = [] := by
  unfold parse
  rcases program (TokenStream.ofSource source) with ⟨_ | q, current, upcoming, stop,
    _ | ⟨d, ds⟩⟩ <;>
    simp

theorem formsProgram_of_parse (h : parse source = .ok p) : FormsProgram (terminalsOf source) p := by
  obtain ⟨_, hread, -⟩ := parse_eq_ok.mp h
  obtain ⟨hended, hterminals⟩ := TokenStream.ended_ofSource source
  rw [← hterminals]
  exact sound_program hended hread

end MiniJava
