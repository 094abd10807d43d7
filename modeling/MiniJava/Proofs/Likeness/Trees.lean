import MiniJava.Proofs.Grammar.Rules
import MiniJava.Proofs.Likeness.Scopes

/-!
# Programs that are alike

Two trees are alike if they have the same shape, differ in ranges and in the names of variables only
as far as a `Likeness` allows, and if every reference of the one means what the reference in its
place means in the other. A statement takes the pairs of variables in front of it to those behind
it, in the way in which every phase threads its scopes. Ranges that no phase reads are left out.
-/

namespace MiniJava

/-! ## The relation -/

/-- References that are alike: plain names mean the same, and members keep their names. -/
inductive RefAlike (L : Likeness) (ρ : ScopeStack String) : Ref → Ref → Prop
  | this {span span' : Span} (hspan : L.span span span') :
      RefAlike L ρ (.this span) (.this span')
  | name {span span' : Span} {text text' : String} (hspan : L.span span span')
      (hkept : L.kept → text = text') (hvar : SameVar ρ.bindings text text') :
      RefAlike L ρ (.name span text) (.name span' text')
  | member {span span' : Span} {base base' : Ref} {field field' : Ident} (hspan : L.span span span')
      (hbase : RefAlike L ρ base base') (hfield : L.Same field field') :
      RefAlike L ρ (.member span base field) (.member span' base' field')

/-- The text of a reference that is a plain name. -/
def Ref.plain? : Ref → Option String
  | .name _ text => some text
  | .this _ | .member _ _ _ => none

/-- References that are called. A plain name of a method is the same in both. -/
structure CalleeAlike (L : Likeness) (ρ : ScopeStack String) (r r' : Ref) : Prop where
  ref : RefAlike L ρ r r'
  plain : r.plain? = r'.plain?

mutual

/-- Expressions that are alike. -/
inductive ExprAlike (L : Likeness) (ρ : ScopeStack String) : Expr → Expr → Prop
  | literal {span span' : Span} {value : Literal} (hspan : L.span span span') :
      ExprAlike L ρ (.literal span value) (.literal span' value)
  | unary {span span' : Span} {op : UnaryOp} {e e' : Expr} (hspan : L.span span span')
      (he : ExprAlike L ρ e e') : ExprAlike L ρ (.unary span op e) (.unary span' op e')
  | binary {span span' : Span} {op : BinaryOp} {left left' right right' : Expr}
      (hspan : L.span span span') (hleft : ExprAlike L ρ left left')
      (hright : ExprAlike L ρ right right') :
      ExprAlike L ρ (.binary span op left right) (.binary span' op left' right')
  | ref {r r' : Ref} (hr : RefAlike L ρ r r') : ExprAlike L ρ (.ref r) (.ref r')
  | index {span span' : Span} {r r' : Ref} {e e' : Expr} (hspan : L.span span span')
      (hr : RefAlike L ρ r r') (he : ExprAlike L ρ e e') :
      ExprAlike L ρ (.index span r e) (.index span' r' e')
  | call {span span' : Span} {r r' : Ref} {args args' : List Expr} (hspan : L.span span span')
      (hr : CalleeAlike L ρ r r') (hargs : ExprsAlike L ρ args args') :
      ExprAlike L ρ (.call span r args) (.call span' r' args')
  | newObject {span span' : Span} {c c' : Ident} (hspan : L.span span span') (hc : L.Same c c') :
      ExprAlike L ρ (.newObject span c) (.newObject span' c')
  | newArray {span span' : Span} {element element' : Located Ty} {e e' : Expr}
      (hspan : L.span span span') (helement : L.Same element element') (he : ExprAlike L ρ e e') :
      ExprAlike L ρ (.newArray span element e) (.newArray span' element' e')

/-- Lists of expressions that are alike one by one. -/
inductive ExprsAlike (L : Likeness) (ρ : ScopeStack String) : List Expr → List Expr → Prop
  | nil : ExprsAlike L ρ [] []
  | cons {e e' : Expr} {es es' : List Expr} (he : ExprAlike L ρ e e')
      (hes : ExprsAlike L ρ es es') : ExprsAlike L ρ (e :: es) (e' :: es')

end

mutual

/-- Statements that are alike, with the pairs of variables in front of them and behind them. The
initializer of a variable is alike both with and without the new pair, since the phases differ in
that. -/
inductive StmtAlike (L : Likeness) : ScopeStack String → Stmt → Stmt → ScopeStack String → Prop
  | block {ρ ρ' : ScopeStack String} {span span' : Span} {ss ss' : List Stmt}
      (hss : StmtsAlike L ρ.push ss ss' ρ') :
      StmtAlike L ρ (.block span ss) (.block span' ss') ρ'.outer
  | declare {ρ : ScopeStack String} {span span' : Span} {type type' : Located Ty} {x x' : Ident}
      {e e' : Expr} (hspan : L.span span span') (htype : L.Same type type') (hx : L.Like x x')
      (hfits : ρ.Fits x.value x'.value) (hbefore : ExprAlike L ρ e e')
      (hbehind : ExprAlike L (ρ.defineNew x.value x'.value) e e') :
      StmtAlike L ρ (.declare span type x e) (.declare span' type' x' e')
        (ρ.defineNew x.value x'.value)
  | assign {ρ : ScopeStack String} {span span' : Span} {r r' : Ref} {e e' : Expr}
      (hr : RefAlike L ρ r r') (he : ExprAlike L ρ e e') :
      StmtAlike L ρ (.assign span r e) (.assign span' r' e') ρ
  | assignIndex {ρ : ScopeStack String} {span span' : Span} {r r' : Ref} {i i' e e' : Expr}
      (hr : RefAlike L ρ r r') (hi : ExprAlike L ρ i i') (he : ExprAlike L ρ e e') :
      StmtAlike L ρ (.assignIndex span r i e) (.assignIndex span' r' i' e') ρ
  | call {ρ : ScopeStack String} {span span' : Span} {r r' : Ref} {args args' : List Expr}
      (hr : CalleeAlike L ρ r r') (hargs : ExprsAlike L ρ args args') :
      StmtAlike L ρ (.call span r args) (.call span' r' args') ρ
  | retNone {ρ : ScopeStack String} {span span' : Span} (hspan : L.span span span') :
      StmtAlike L ρ (.ret span none) (.ret span' none) ρ
  | retSome {ρ : ScopeStack String} {span span' : Span} {e e' : Expr} (he : ExprAlike L ρ e e') :
      StmtAlike L ρ (.ret span (some e)) (.ret span' (some e')) ρ
  | ifThen {ρ ρ' : ScopeStack String} {span span' : Span} {e e' : Expr} {s s' : Stmt}
      (he : ExprAlike L ρ e e') (hs : StmtAlike L ρ s s' ρ') :
      StmtAlike L ρ (.ifThen span e s) (.ifThen span' e' s') ρ'
  | ifThenElse {ρ ρ₁ ρ₂ : ScopeStack String} {span span' : Span} {e e' : Expr} {a a' b b' : Stmt}
      (he : ExprAlike L ρ e e') (ha : StmtAlike L ρ a a' ρ₁) (hb : StmtAlike L ρ₁ b b' ρ₂) :
      StmtAlike L ρ (.ifThenElse span e a b) (.ifThenElse span' e' a' b') ρ₂
  | loop {ρ ρ' : ScopeStack String} {span span' : Span} {e e' : Expr} {s s' : Stmt}
      (he : ExprAlike L ρ e e') (hs : StmtAlike L ρ s s' ρ') :
      StmtAlike L ρ (.loop span e s) (.loop span' e' s') ρ'

/-- Lists of statements that are alike in turn. -/
inductive StmtsAlike (L : Likeness) :
    ScopeStack String → List Stmt → List Stmt → ScopeStack String → Prop
  | nil {ρ : ScopeStack String} : StmtsAlike L ρ [] [] ρ
  | cons {ρ ρ₁ ρ₂ : ScopeStack String} {s s' : Stmt} {ss ss' : List Stmt}
      (hs : StmtAlike L ρ s s' ρ₁) (hss : StmtsAlike L ρ₁ ss ss' ρ₂) :
      StmtsAlike L ρ (s :: ss) (s' :: ss') ρ₂

end

/-- Parameters that are alike in turn. -/
inductive ParamsAlike (L : Likeness) :
    ScopeStack String → List Param → List Param → ScopeStack String → Prop
  | nil {ρ : ScopeStack String} : ParamsAlike L ρ [] [] ρ
  | cons {ρ ρ' : ScopeStack String} {q q' : Param} {qs qs' : List Param}
      (htype : L.Same q.type q'.type) (hname : L.Like q.name q'.name)
      (hfits : ρ.Fits q.name.value q'.name.value)
      (hqs : ParamsAlike L (ρ.defineNew q.name.value q'.name.value) qs qs' ρ') :
      ParamsAlike L ρ (q :: qs) (q' :: qs') ρ'

/-- Fields that are alike. -/
structure FieldAlike (L : Likeness) (f f' : FieldDecl) : Prop where
  name : L.Same f.name f'.name
  type : L.Same f.type f'.type
  isPrivate : f.isPrivate = f'.isPrivate
  isStatic : f.isStatic = f'.isStatic
  owner : f.owner = f'.owner

/-- Methods that are alike. -/
structure MethodAlike (L : Likeness) (m m' : MethodDecl) : Prop where
  name : L.Same m.name m'.name
  returns : L.Same m.returns m'.returns
  isPrivate : m.isPrivate = m'.isPrivate
  isStatic : m.isStatic = m'.isStatic
  owner : m.owner = m'.owner
  body : ∃ ρ ρ', ParamsAlike L ScopeStack.empty.push m.params m'.params ρ ∧
    StmtsAlike L ρ m.body m'.body ρ'

/-- Classes that are alike. -/
structure ClassAlike (L : Likeness) (c c' : ClassDecl) : Prop where
  name : L.Same c.name c'.name
  fields : List.Forall₂ (FieldAlike L) c.fields c'.fields
  methods : List.Forall₂ (MethodAlike L) c.methods c'.methods

/-- Programs that are alike. -/
def ProgramAlike (L : Likeness) (p p' : Program) : Prop :=
  List.Forall₂ (ClassAlike L) p.classes p'.classes

/-! ## What they have in common -/

variable {qs qs' : List Param} {r r' : Ref}

section

variable {L : Likeness} {ρ ρ' : ScopeStack String}

theorem RefAlike.span (h : RefAlike L ρ r r') : L.span r.span r'.span := by
  cases h <;> assumption

theorem RefAlike.text_eq (h : RefAlike L ρ r r') (hkept : L.kept) : r.text = r'.text := by
  induction h with
  | this => rfl
  | name _ htext => exact htext hkept
  | member _ _ hfield ih => rw [Ref.text, Ref.text, ih, hfield.value]

theorem ExprAlike.span {e e' : Expr} (h : ExprAlike L ρ e e') : L.span e.span e'.span := by
  cases h with
  | ref hr => exact hr.span
  | _ => assumption

theorem ExprsAlike.length_eq {es es' : List Expr} (h : ExprsAlike L ρ es es') :
    es.length = es'.length := by
  induction es generalizing es' with
  | nil => cases h; rfl
  | cons _ _ ih =>
    cases h with
    | cons _ hes => rw [List.length_cons, List.length_cons, ih hes]

theorem ParamsAlike.types_eq (h : ParamsAlike L ρ qs qs' ρ') :
    qs.map (·.type.value) = qs'.map (·.type.value) := by
  induction h with
  | nil => rfl
  | cons htype _ _ _ ih => rw [List.map_cons, List.map_cons, htype.value, ih]

theorem ParamsAlike.length_eq (h : ParamsAlike L ρ qs qs' ρ') : qs.length = qs'.length := by
  simpa using congrArg List.length h.types_eq

end

/-! ## Where all variables keep their names -/

section

variable {L : Likeness} {ρ : ScopeStack String}

namespace ScopeStack

/-- Every variable is paired with its own name. -/
def Diagonal (ρ : ScopeStack String) : Prop := ∀ b ∈ ρ.bindings, b.1 = b.2

theorem diagonal_empty : Diagonal empty := nofun

namespace Diagonal

theorem push (h : ρ.Diagonal) : ρ.push.Diagonal := h

theorem outer (h : ρ.Diagonal) : ρ.outer.Diagonal := by
  obtain ⟨_ | ⟨_, _⟩⟩ := ρ
  · exact h
  · exact fun b hb => h b (List.mem_append_right _ hb)

theorem defineNew (h : ρ.Diagonal) (name : String) : (ρ.defineNew name name).Diagonal := by
  unfold ScopeStack.defineNew
  cases hd : ρ.define? name name with
  | none => exact h
  | some _ =>
    intro b hb
    rw [Option.getD_some, bindings_define hd] at hb
    rcases List.mem_cons.mp hb with rfl | hb
    · rfl
    · exact h b hb

theorem fits (h : ρ.Diagonal) (name : String) : ρ.Fits name name := by
  obtain ⟨_ | ⟨inner, _⟩⟩ := ρ
  · exact nofun
  · rintro _ ⟨⟩
    -- Both columns of the innermost scope are the same list.
    have hsame : inner.map Prod.fst = inner.map Prod.snd :=
      List.map_congr_left fun b hb => h b (List.mem_append_left _ hb)
    rw [hsame]

end Diagonal

end ScopeStack

open ScopeStack

/-! ## Every program is like itself -/

theorem refAlike_refl (hL : ∀ span, L.span span span) (hρ : ρ.Diagonal) (r : Ref) :
    RefAlike L ρ r r := by
  induction r with
  | this span => exact .this (hL span)
  | name span text => exact .name (hL span) (fun _ => rfl) (sameVar_refl hρ text)
  | member span _ _ ih => exact .member (hL span) ih ⟨rfl, hL _⟩

theorem calleeAlike_refl (hL : ∀ span, L.span span span) (hρ : ρ.Diagonal) (r : Ref) :
    CalleeAlike L ρ r r :=
  ⟨refAlike_refl hL hρ r, rfl⟩

mutual

theorem exprAlike_refl (hL : ∀ span, L.span span span) (hρ : ρ.Diagonal) :
    ∀ e : Expr, ExprAlike L ρ e e
  | .literal _ _ => .literal (hL _)
  | .unary _ _ e => .unary (hL _) (exprAlike_refl hL hρ e)
  | .binary _ _ left right =>
    .binary (hL _) (exprAlike_refl hL hρ left) (exprAlike_refl hL hρ right)
  | .ref r => .ref (refAlike_refl hL hρ r)
  | .index _ r e => .index (hL _) (refAlike_refl hL hρ r) (exprAlike_refl hL hρ e)
  | .call _ r args => .call (hL _) (calleeAlike_refl hL hρ r) (exprsAlike_refl hL hρ args)
  | .newObject _ _ => .newObject (hL _) ⟨rfl, hL _⟩
  | .newArray _ _ e => .newArray (hL _) ⟨rfl, hL _⟩ (exprAlike_refl hL hρ e)

theorem exprsAlike_refl (hL : ∀ span, L.span span span) (hρ : ρ.Diagonal) :
    ∀ es : List Expr, ExprsAlike L ρ es es
  | [] => .nil
  | e :: es => .cons (exprAlike_refl hL hρ e) (exprsAlike_refl hL hρ es)

end

mutual

/-- The pairs behind a statement keep the names if those in front of it do. -/
theorem stmtAlike_refl (hL : ∀ span, L.span span span) {ρ : ScopeStack String} (hρ : ρ.Diagonal) :
    ∀ s : Stmt, ∃ ρ', StmtAlike L ρ s s ρ' ∧ ρ'.Diagonal
  | .block _ ss => by
    obtain ⟨_, hss, hρ'⟩ := stmtsAlike_refl hL hρ.push ss
    exact ⟨_, .block hss, hρ'.outer⟩
  | .declare _ _ x e =>
    ⟨_, .declare (hL _) ⟨rfl, hL _⟩ ⟨fun _ => rfl, hL _⟩ (hρ.fits x.value) (exprAlike_refl hL hρ e)
      (exprAlike_refl hL (hρ.defineNew x.value) e), hρ.defineNew x.value⟩
  | .assign _ r e => ⟨ρ, .assign (refAlike_refl hL hρ r) (exprAlike_refl hL hρ e), hρ⟩
  | .assignIndex _ r i e =>
    ⟨ρ, .assignIndex (refAlike_refl hL hρ r) (exprAlike_refl hL hρ i) (exprAlike_refl hL hρ e), hρ⟩
  | .call _ r args => ⟨ρ, .call (calleeAlike_refl hL hρ r) (exprsAlike_refl hL hρ args), hρ⟩
  | .ret _ none => ⟨ρ, .retNone (hL _), hρ⟩
  | .ret _ (some e) => ⟨ρ, .retSome (exprAlike_refl hL hρ e), hρ⟩
  | .ifThen _ e s => by
    obtain ⟨ρ', hs, hρ'⟩ := stmtAlike_refl hL hρ s
    exact ⟨ρ', .ifThen (exprAlike_refl hL hρ e) hs, hρ'⟩
  | .ifThenElse _ e a b => by
    obtain ⟨_, ha, hρ₁⟩ := stmtAlike_refl hL hρ a
    obtain ⟨ρ₂, hb, hρ₂⟩ := stmtAlike_refl hL hρ₁ b
    exact ⟨ρ₂, .ifThenElse (exprAlike_refl hL hρ e) ha hb, hρ₂⟩
  | .loop _ e s => by
    obtain ⟨ρ', hs, hρ'⟩ := stmtAlike_refl hL hρ s
    exact ⟨ρ', .loop (exprAlike_refl hL hρ e) hs, hρ'⟩

theorem stmtsAlike_refl (hL : ∀ span, L.span span span) {ρ : ScopeStack String} (hρ : ρ.Diagonal) :
    ∀ ss : List Stmt, ∃ ρ', StmtsAlike L ρ ss ss ρ' ∧ ρ'.Diagonal
  | [] => ⟨ρ, .nil, hρ⟩
  | s :: ss => by
    obtain ⟨_, hs, hρ₁⟩ := stmtAlike_refl hL hρ s
    obtain ⟨ρ₂, hss, hρ₂⟩ := stmtsAlike_refl hL hρ₁ ss
    exact ⟨ρ₂, .cons hs hss, hρ₂⟩

end

theorem paramsAlike_refl (hL : ∀ span, L.span span span) {ρ : ScopeStack String} (hρ : ρ.Diagonal)
    (qs : List Param) : ∃ ρ', ParamsAlike L ρ qs qs ρ' ∧ ρ'.Diagonal := by
  induction qs generalizing ρ with
  | nil => exact ⟨ρ, .nil, hρ⟩
  | cons q _ ih =>
    obtain ⟨ρ', hqs, hρ'⟩ := ih (hρ.defineNew q.name.value)
    exact ⟨ρ', .cons ⟨rfl, hL _⟩ ⟨fun _ => rfl, hL _⟩ (hρ.fits _) hqs, hρ'⟩

theorem methodAlike_refl (hL : ∀ span, L.span span span) (m : MethodDecl) : MethodAlike L m m := by
  obtain ⟨ρ, hparams, hρ⟩ := paramsAlike_refl hL diagonal_empty.push m.params
  obtain ⟨ρ', hbody, -⟩ := stmtsAlike_refl hL hρ m.body
  exact ⟨⟨rfl, hL _⟩, ⟨rfl, hL _⟩, rfl, rfl, rfl, ρ, ρ', hparams, hbody⟩

theorem classAlike_refl (hL : ∀ span, L.span span span) (c : ClassDecl) : ClassAlike L c c :=
  ⟨⟨rfl, hL _⟩, List.forall₂_same.mpr fun _ _ => ⟨⟨rfl, hL _⟩, ⟨rfl, hL _⟩, rfl, rfl, rfl⟩,
    List.forall₂_same.mpr fun m _ => methodAlike_refl hL m⟩

/-- A program is like itself. -/
theorem programAlike_refl (hL : ∀ span, L.span span span) (p : Program) : ProgramAlike L p p :=
  List.forall₂_same.mpr fun c _ => classAlike_refl hL c

/-! ## Where ranges do not count, they may be forgotten -/

theorem RefAlike.bare (hL : ∀ span span', L.span span span') (h : RefAlike L ρ r r') :
    RefAlike L ρ r r'.bare := by
  induction h with
  | this => exact .this (hL _ _)
  | name _ hkept hvar => exact .name (hL _ _) hkept hvar
  | member _ _ hfield ih => exact .member (hL _ _) ih ⟨hfield.value, hL _ _⟩

theorem CalleeAlike.bare (hL : ∀ span span', L.span span span') (h : CalleeAlike L ρ r r') :
    CalleeAlike L ρ r r'.bare := by
  refine ⟨h.ref.bare hL, h.plain.trans ?_⟩
  cases r' <;> rfl

mutual

theorem ExprAlike.bare (hL : ∀ span span', L.span span span') :
    ∀ {e e' : Expr}, ExprAlike L ρ e e' → ExprAlike L ρ e e'.bare
  | _, _, .literal _ => .literal (hL _ _)
  | _, _, .unary _ he => .unary (hL _ _) (he.bare hL)
  | _, _, .binary _ hleft hright => .binary (hL _ _) (hleft.bare hL) (hright.bare hL)
  | _, _, .ref hr => .ref (hr.bare hL)
  | _, _, .index _ hr he => .index (hL _ _) (hr.bare hL) (he.bare hL)
  | _, _, .call _ hr hargs => .call (hL _ _) (hr.bare hL) (hargs.bare hL)
  | _, _, .newObject _ hc => .newObject (hL _ _) ⟨hc.value, hL _ _⟩
  | _, _, .newArray _ helement he => .newArray (hL _ _) ⟨helement.value, hL _ _⟩ (he.bare hL)

theorem ExprsAlike.bare (hL : ∀ span span', L.span span span') :
    ∀ {es es' : List Expr}, ExprsAlike L ρ es es' → ExprsAlike L ρ es (Expr.bareOf es')
  | _, _, .nil => .nil
  | _, _, .cons he hes => .cons (he.bare hL) (hes.bare hL)

end

mutual

theorem StmtAlike.bare (hL : ∀ span span', L.span span span') :
    ∀ {ρ ρ' : ScopeStack String} {s s' : Stmt}, StmtAlike L ρ s s' ρ' → StmtAlike L ρ s s'.bare ρ'
  | _, _, _, _, .block hss => .block (hss.bare hL)
  | _, _, _, _, .declare _ htype hx hfits hbefore hbehind =>
    .declare (hL _ _) ⟨htype.value, hL _ _⟩ ⟨hx.value, hL _ _⟩ hfits (hbefore.bare hL)
      (hbehind.bare hL)
  | _, _, _, _, .assign hr he => .assign (hr.bare hL) (he.bare hL)
  | _, _, _, _, .assignIndex hr hi he => .assignIndex (hr.bare hL) (hi.bare hL) (he.bare hL)
  | _, _, _, _, .call hr hargs => .call (hr.bare hL) (hargs.bare hL)
  | _, _, _, _, .retNone _ => .retNone (hL _ _)
  | _, _, _, _, .retSome he => .retSome (he.bare hL)
  | _, _, _, _, .ifThen he hs => .ifThen (he.bare hL) (hs.bare hL)
  | _, _, _, _, .ifThenElse he ha hb => .ifThenElse (he.bare hL) (ha.bare hL) (hb.bare hL)
  | _, _, _, _, .loop he hs => .loop (he.bare hL) (hs.bare hL)

theorem StmtsAlike.bare (hL : ∀ span span', L.span span span') :
    ∀ {ρ ρ' : ScopeStack String} {ss ss' : List Stmt}, StmtsAlike L ρ ss ss' ρ' →
      StmtsAlike L ρ ss (Stmt.bareOf ss') ρ'
  | _, _, _, _, .nil => .nil
  | _, _, _, _, .cons hs hss => .cons (hs.bare hL) (hss.bare hL)

end

theorem ParamsAlike.bare (hL : ∀ span span', L.span span span') {ρ ρ' : ScopeStack String}
    (h : ParamsAlike L ρ qs qs' ρ') :
    ParamsAlike L ρ qs (qs'.map Param.bare) ρ' := by
  induction h with
  | nil => exact .nil
  | cons htype hname hfits _ ih =>
    exact .cons ⟨htype.value, hL _ _⟩ ⟨hname.value, hL _ _⟩ hfits ih

theorem MethodAlike.bare (hL : ∀ span span', L.span span span') {m m' : MethodDecl}
    (h : MethodAlike L m m') : MethodAlike L m m'.bare := by
  obtain ⟨ρ, ρ', hparams, hbody⟩ := h.body
  exact ⟨⟨h.name.value, hL _ _⟩, ⟨h.returns.value, hL _ _⟩, h.isPrivate, h.isStatic, h.owner, ρ, ρ',
    hparams.bare hL, hbody.bare hL⟩

theorem ClassAlike.bare (hL : ∀ span span', L.span span span') {c c' : ClassDecl}
    (h : ClassAlike L c c') : ClassAlike L c c'.bare := by
  refine ⟨⟨h.name.value, hL _ _⟩, ?_, ?_⟩
  · refine List.forall₂_map_right_iff.mpr (h.fields.imp fun f f' hf => ?_)
    exact ⟨⟨hf.name.value, hL _ _⟩, ⟨hf.type.value, hL _ _⟩, hf.isPrivate, hf.isStatic, hf.owner⟩
  · exact List.forall₂_map_right_iff.mpr (h.methods.imp fun _ _ hm => hm.bare hL)

/-- A program is like the one with all ranges forgotten, if ranges do not count. -/
theorem programAlike_bare (hL : ∀ span span', L.span span span') (p : Program) :
    ProgramAlike L p p.bare :=
  List.forall₂_map_right_iff.mpr
    ((programAlike_refl (fun span => hL span span) p).imp fun _ _ hc => hc.bare hL)

end

end MiniJava
