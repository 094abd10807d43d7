import MiniJava.Proofs.Grammar.Owners
import MiniJava.Proofs.Positions.Taken

/-!
# Outlines

How the nodes of a tree lie on the tokens they were read from. The outline of a node lists what the
node is written with, from left to right: tokens of its own, and the outlines of the nodes below it.

> `Outline.On`: these tokens are those of the node, parentheses around it included, and its range
> reaches from the first of them to the last.

An outline says everything about a node that its range depends on, so the general facts about ranges
are proved once for all kinds of nodes: every node has tokens of its own in a row
(`Fills.isInfix_of_mem`), what is inside a node lies within its range (`Fills.inside`), and what
stands side by side lies apart (`Fills.pairwise`).
-/

namespace MiniJava

open Grammar List

/-- What a node is written with. -/
inductive Outline
  /-- Tokens that belong to the node above. -/
  | own (forms : List Terminal → Prop)
  /-- A node with its range and its parts. The flag says whether it may stand in parentheses. -/
  | node (span : Span) (wraps : Bool) (parts : List Outline)

namespace Outline

/-- A certain token. -/
def token (t : Terminal) : Outline := own (· = [t])

/-- The range, if this is a node. -/
def span? : Outline → Option Span
  | own _ => none
  | node span _ _ => some span

def parts : Outline → List Outline
  | own _ => []
  | node _ _ parts => parts

/-- Whether there is a token in it. -/
def Visible : Outline → Prop
  | own forms => ¬ forms []
  | node _ _ _ => True

mutual

/-- All nodes of an outline. -/
def nodes : Outline → List Outline
  | own _ => []
  | node span wraps parts => node span wraps parts :: nodesOf parts

/-- All nodes of some outlines. -/
def nodesOf : List Outline → List Outline
  | [] => []
  | o :: os => o.nodes ++ nodesOf os

end

mutual

/-- These tokens are those of the outline. -/
inductive On : List Token → Outline → Prop
  | own {ts : List Token} {forms : List Terminal → Prop} (h : forms (ts.map Token.terminal)) :
      On ts (.own forms)
  | node {ts : List Token} {wraps : Bool} {parts : List Outline} (hne : ts ≠ [])
      (hparts : Fills ts parts) : On ts (.node (rangeOf ts) wraps parts)
  | wrapped {opening closing : Token} {ts : List Token} {span : Span} {parts : List Outline}
      (hopening : opening.kind = .symbol .openParen) (hinner : On ts (.node span true parts))
      (hclosing : closing.kind = .symbol .closeParen) :
      On (opening :: (ts ++ [closing])) (.node (rangeOf (opening :: (ts ++ [closing]))) true parts)

/-- These tokens are those of the outlines, one behind the other. -/
inductive Fills : List Token → List Outline → Prop
  | nil : Fills [] []
  | cons {ts us : List Token} {o : Outline} {os : List Outline} (h : On ts o) (hos : Fills us os) :
      Fills (ts ++ us) (o :: os)

end

variable {ts us : List Token} {o : Outline} {os os' : List Outline} {span : Span} {wraps : Bool}

theorem nodesOf_append (os os' : List Outline) :
    nodesOf (os ++ os') = nodesOf os ++ nodesOf os' := by
  induction os with
  | nil => rfl
  | cons _ _ ih => rw [cons_append, nodesOf, nodesOf, ih, append_assoc]

theorem nodes_subset (ho : o ∈ os) : o.nodes ⊆ nodesOf os := by
  obtain ⟨_, _, rfl⟩ := append_of_mem ho
  rw [nodesOf_append, nodesOf]
  intro q hq
  exact mem_append_right _ (mem_append_left _ hq)

theorem exists_of_on_token {t : Terminal} (h : On ts (token t)) :
    ∃ x, ts = [x] ∧ x.terminal = t := by
  cases h with
  | own h => exact map_eq_singleton_iff.mp h

theorem On.ne_nil (h : On ts o) (ho : o.Visible) : ts ≠ [] := by
  cases h with
  | own h =>
    rintro rfl
    exact ho h
  | node hne => exact hne
  | wrapped => exact cons_ne_nil _ _

/-- The range of a node reaches from its first token to its last one. -/
theorem On.span_eq (h : On ts (.node span wraps os)) : span = rangeOf ts := by
  cases h <;> rfl

theorem On.fills (h : On ts (.node span false os)) : Fills ts os := by
  cases h with
  | node _ hparts => exact hparts

/-- The parts of a node are the tokens inside of its parentheses. -/
theorem On.exists_fills {ts : List Token} {o : Outline} :
    On ts o → ∃ us, us <:+: ts ∧ Fills us o.parts
  | .own _ => ⟨[], nil_infix, .nil⟩
  | .node _ hparts => ⟨ts, infix_refl ts, hparts⟩
  | .wrapped _ hinner _ => by
    obtain ⟨us, hus, hparts⟩ := hinner.exists_fills
    exact ⟨us, hus.trans ⟨[_], [_], rfl⟩, hparts⟩

theorem fills_singleton (h : On ts o) : Fills ts [o] := by
  have hfills := Fills.cons h .nil
  rwa [append_nil] at hfills

theorem Fills.append (h : Fills ts os) (h' : Fills us os') : Fills (ts ++ us) (os ++ os') := by
  induction os generalizing ts with
  | nil =>
    cases h
    exact h'
  | cons _ _ ih =>
    cases h with
    | cons ho hos =>
      rw [append_assoc]
      exact .cons ho (ih hos)

theorem Fills.exists_append (h : Fills ts (os ++ os')) :
    ∃ us vs, ts = us ++ vs ∧ Fills us os ∧ Fills vs os' := by
  induction os generalizing ts with
  | nil => exact ⟨[], ts, rfl, .nil, h⟩
  | cons _ _ ih =>
    cases h with
    | cons ho hos =>
      obtain ⟨us, vs, rfl, hus, hvs⟩ := ih hos
      exact ⟨_, vs, (append_assoc _ us vs).symm, .cons ho hus, hvs⟩

theorem Fills.on_of_singleton (h : Fills ts [o]) : On ts o := by
  cases h with
  | cons _ hos =>
    cases hos
    rwa [append_nil]

theorem Fills.exists_on (h : Fills ts os) (ho : o ∈ os) : ∃ us, us <:+: ts ∧ On us o := by
  induction os generalizing ts with
  | nil => cases ho
  | cons _ _ ih =>
    cases h with
    | cons hfirst hothers =>
      obtain rfl | ho := mem_cons.mp ho
      · exact ⟨_, (prefix_append _ _).isInfix, hfirst⟩
      · obtain ⟨us, hus, hon⟩ := ih hothers ho
        exact ⟨us, hus.trans (suffix_append _ _).isInfix, hon⟩

theorem Fills.terminals_eq {terminals : List Terminal} (h : Fills ts (terminals.map token)) :
    ts.map Token.terminal = terminals := by
  induction terminals generalizing ts with
  | nil =>
    cases h
    rfl
  | cons _ _ ih =>
    cases h with
    | cons hfirst hothers =>
      obtain ⟨_, rfl, rfl⟩ := exists_of_on_token hfirst
      rw [map_append, ih hothers]
      rfl

/-- What stands side by side lies apart, in the order of the source. -/
theorem Fills.pairwise (h : Fills ts os) (hts : Ordered ts) :
    (os.filterMap span?).Pairwise Span.Before := by
  induction os generalizing ts with
  | nil => exact .nil
  | cons o _ ih =>
    cases h with
    | cons ho hos =>
      cases o with
      | own => exact ih hos hts.right
      | node =>
        refine pairwise_cons.mpr ⟨?_, ih hos hts.right⟩
        intro a ha
        obtain ⟨q, hq, hspan⟩ := mem_filterMap.mp ha
        obtain ⟨_, hus, hon⟩ := hos.exists_on hq
        cases q with
        | own => cases hspan
        | node =>
          cases hspan
          have hne := hon.ne_nil trivial
          -- A later outline lies on tokens behind those of the first one.
          have htail : Span.Before (rangeOf _) (rangeOf _) :=
            hts.before (ho.ne_nil trivial) fun hnil => hne (infix_nil.mp (hnil ▸ hus))
          rw [ho.span_eq, hon.span_eq]
          exact htail.trans (hts.right.inside hus hne).1

/-- What is inside does not reach beyond the tokens around it. -/
theorem Fills.inside (h : Fills ts os) (hts : Ordered ts) {a : Span} (ha : a ∈ os.filterMap span?) :
    a.Inside (rangeOf ts) := by
  obtain ⟨q, hq, hspan⟩ := mem_filterMap.mp ha
  obtain ⟨_, hus, hon⟩ := h.exists_on hq
  cases q with
  | own => cases hspan
  | node =>
    cases hspan
    rw [hon.span_eq]
    exact hts.inside hus (hon.ne_nil trivial)

/-- Of nodes that stand side by side, each one begins before the next. -/
theorem Fills.pairwise_start (h : Fills ts os) (hts : Ordered ts)
    (hmore : ∀ t ∈ ts, t.kind ≠ .endOfFile) :
    (os.filterMap span?).Pairwise fun a b => a.start < b.start := by
  refine (h.pairwise hts).imp_of_mem ?_
  intro a b ha _ hbefore
  obtain ⟨q, hq, hspan⟩ := mem_filterMap.mp ha
  obtain ⟨_, hus, hon⟩ := h.exists_on hq
  cases q with
  | own => cases hspan
  | node =>
    cases hspan
    have hne := hon.ne_nil trivial
    have hsolid := (hts.sublist hus.sublist).start_lt_stop hne fun t ht => hmore t (hus.subset ht)
    rw [← hon.span_eq] at hsolid
    exact Nat.lt_of_lt_of_le hsolid hbefore

theorem Fills.ne_nil (h : Fills ts os) (hos : ∃ o ∈ os, o.Visible) : ts ≠ [] := by
  rintro rfl
  obtain ⟨_, ho, hvisible⟩ := hos
  obtain ⟨_, hus, hon⟩ := h.exists_on ho
  exact hon.ne_nil hvisible (infix_nil.mp hus)

mutual

/-- Every node lies on some of the tokens, one behind the other. -/
theorem On.isInfix_of_mem {ts : List Token} {q : Outline} :
    ∀ {o : Outline}, On ts o → q ∈ o.nodes → ∃ us, us <:+: ts ∧ On us q
  | .own _, _, hq => absurd hq not_mem_nil
  | .node _ _ _, h, hq => by
    obtain rfl | hq := mem_cons.mp hq
    · exact ⟨ts, infix_refl ts, h⟩
    · obtain ⟨_, hus, hparts⟩ := h.exists_fills
      obtain ⟨vs, hvs, hon⟩ := hparts.isInfix_of_mem hq
      exact ⟨vs, hvs.trans hus, hon⟩

theorem Fills.isInfix_of_mem {ts : List Token} {q : Outline} :
    ∀ {os : List Outline}, Fills ts os → q ∈ nodesOf os → ∃ us, us <:+: ts ∧ On us q
  | [], _, hq => absurd hq not_mem_nil
  | _ :: _, .cons ho hos, hq => by
    obtain hq | hq := mem_append.mp hq
    · obtain ⟨us, hus, hon⟩ := ho.isInfix_of_mem hq
      exact ⟨us, hus.trans (prefix_append _ _).isInfix, hon⟩
    · obtain ⟨us, hus, hon⟩ := hos.isInfix_of_mem hq
      exact ⟨us, hus.trans (suffix_append _ _).isInfix, hon⟩

end

end Outline

/-! ## The outlines of a program -/

open Outline

def Ident.outline (x : Ident) : Outline := node x.span false [token (.identifier x.value)]

/-- The outline of a written type or of the result of a method. -/
def outlineOfType (type : Located Ty) : Outline :=
  node type.span false [own (FormsResult · type.value)]

/-- What a reference is written with. -/
def Ref.writtenParts : Ref → List Outline
  | .this _ => [token (.keyword .thisKw)]
  | .name _ text => [token (.identifier text)]
  | .member _ base field =>
    [node base.span false base.writtenParts, token (.symbol .dot), field.outline]

def Ref.outline (r : Ref) : Outline := node r.span false r.writtenParts

/-- Outlines with commas between them. -/
def Outline.separated (os : List Outline) : List Outline := os.intersperse (token (.symbol .comma))

mutual

/-- An expression can stand in parentheses, which then belong to it. -/
def Expr.outline : Expr → Outline
  | .literal span value =>
    node span true [own fun ts => ∃ t, ts = [t] ∧ FormsExpr 7 [t] (.literal Span.builtin value)]
  | .unary span op operand =>
    node span true [own fun ts => ∃ s, UnaryOf s op ∧ ts = [.symbol s], operand.outline]
  | .binary span op left right =>
    node span true [left.outline, own fun ts => ∃ n s, BinaryAt n s op ∧ ts = [.symbol s],
      right.outline]
  | .ref target => node target.span true target.writtenParts
  | .index span target position =>
    node span true [target.outline, token (.symbol .openBracket), position.outline,
      token (.symbol .closeBracket)]
  | .call span method args =>
    node span true ([method.outline, token (.symbol .openParen)] ++
      separated (Expr.outlines args) ++ [token (.symbol .closeParen)])
  | .newObject span className =>
    node span true [token (.keyword .newKw), className.outline, token (.symbol .openParen),
      token (.symbol .closeParen)]
  | .newArray span element size =>
    node span true [token (.keyword .newKw), outlineOfType element, token (.symbol .openBracket),
      size.outline, token (.symbol .closeBracket)]

def Expr.outlines : List Expr → List Outline
  | [] => []
  | e :: es => e.outline :: Expr.outlines es

end

mutual

def Stmt.outline : Stmt → Outline
  | .block span body =>
    node span false (token (.symbol .openBrace) :: Stmt.outlines body ++
      [token (.symbol .closeBrace)])
  | .declare span type name init =>
    node span false [outlineOfType type, name.outline, token (.symbol .assign), init.outline,
      token (.symbol .semicolon)]
  | .assign span target value =>
    node span false [target.outline, token (.symbol .assign), value.outline,
      token (.symbol .semicolon)]
  | .assignIndex span target position value =>
    node span false [target.outline, token (.symbol .openBracket), position.outline,
      token (.symbol .closeBracket), token (.symbol .assign), value.outline,
      token (.symbol .semicolon)]
  | .call span method args =>
    node span false ([method.outline, token (.symbol .openParen)] ++
      separated (Expr.outlines args) ++ [token (.symbol .closeParen), token (.symbol .semicolon)])
  | .ret span none => node span false [token (.keyword .returnKw), token (.symbol .semicolon)]
  | .ret span (some value) =>
    node span false [token (.keyword .returnKw), value.outline, token (.symbol .semicolon)]
  | .ifThen span test thenBranch =>
    node span false [token (.keyword .ifKw), token (.symbol .openParen), test.outline,
      token (.symbol .closeParen), thenBranch.outline]
  | .ifThenElse span test thenBranch elseBranch =>
    node span false [token (.keyword .ifKw), token (.symbol .openParen), test.outline,
      token (.symbol .closeParen), thenBranch.outline, token (.keyword .elseKw), elseBranch.outline]
  | .loop span test body =>
    node span false [token (.keyword .whileKw), token (.symbol .openParen), test.outline,
      token (.symbol .closeParen), body.outline]

def Stmt.outlines : List Stmt → List Outline
  | [] => []
  | s :: ss => s.outline :: Stmt.outlines ss

end

def Param.outline (q : Param) : Outline :=
  node q.span false [outlineOfType q.type, q.name.outline]

/-- The words in front of the type of a member. -/
def modifiersOutline (isPrivate isStatic : Bool) : Outline :=
  own fun ts => ∃ vs ss, ts = vs ++ ss ∧ FormsAccess vs isPrivate ∧ FormsStatic ss isStatic

def Grammar.Member.outline : Member → Outline
  | .field f =>
    node f.span false [modifiersOutline f.isPrivate f.isStatic, outlineOfType f.type,
      f.name.outline, token (.symbol .semicolon)]
  | .method m =>
    node m.span false ([modifiersOutline m.isPrivate m.isStatic, outlineOfType m.returns,
        m.name.outline, token (.symbol .openParen)] ++ separated (m.params.map Param.outline) ++
      [token (.symbol .closeParen), token (.symbol .openBrace)] ++ Stmt.outlines m.body ++
      [token (.symbol .closeBrace)])

def Grammar.Member.span : Member → Span
  | .field f => f.span
  | .method m => m.span

/-- The members of a class in the order of the source, which their ranges tell. -/
def ClassDecl.members (c : ClassDecl) : List Member :=
  (c.fields.map Member.field).merge (c.methods.map Member.method)
    fun a b => a.span.start ≤ b.span.start

/-- The fields and the methods of a class, put together again. -/
theorem Grammar.merge_members {ms : List Member}
    (h : ms.Pairwise fun a b => a.span.start < b.span.start) :
    ((ms.filterMap Member.field?).map Member.field).merge
      ((ms.filterMap Member.method?).map Member.method) (fun a b => a.span.start ≤ b.span.start) =
      ms := by
  induction ms with
  | nil => exact nil_merge []
  | cons first others ih =>
    obtain ⟨hfirst, hothers⟩ := pairwise_cons.mp h
    have ih := ih hothers
    -- The first member comes before the head of the other list.
    cases first with
    | field f =>
      rw [filterMap_cons_some (rfl : Member.field? (.field f) = some f),
        filterMap_cons_none (rfl : Member.method? (.field f) = none), map_cons]
      cases hmethods : others.filterMap Member.method? with
      | nil =>
        rw [hmethods, map_nil, merge_right] at ih
        rw [map_nil, merge_right, ih]
      | cons _ _ =>
        have hm := hfirst _ (mem_of_mem_filterMap_method (hmethods ▸ mem_cons_self))
        rw [hmethods] at ih
        rw [map_cons, cons_merge_cons_pos _ _ _ (decide_eq_true (Nat.le_of_lt hm)), ← map_cons, ih]
    | method m =>
      rw [filterMap_cons_none (rfl : Member.field? (.method m) = none),
        filterMap_cons_some (rfl : Member.method? (.method m) = some m), map_cons]
      cases hfields : others.filterMap Member.field? with
      | nil =>
        rw [hfields, map_nil, nil_merge] at ih
        rw [map_nil, nil_merge, ih]
      | cons _ _ =>
        have hf := hfirst _ (mem_of_mem_filterMap_field (hfields ▸ mem_cons_self))
        rw [hfields] at ih
        rw [map_cons, cons_merge_cons_neg _ _ _ (by simpa using hf), ← map_cons, ih]

def ClassDecl.outline (c : ClassDecl) : Outline :=
  node c.span false ([token (.keyword .classKw), c.name.outline, token (.symbol .openBrace)] ++
    c.members.map Member.outline ++ [token (.symbol .closeBrace)])

def Program.outlines (p : Program) : List Outline := p.classes.map ClassDecl.outline

end MiniJava
