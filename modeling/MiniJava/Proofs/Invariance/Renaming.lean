import MiniJava.Proofs.Likeness.Builds
import MiniJava.Proofs.Scoping.Identified

/-!
# The names of variables do not count

A parameter or a local variable may be given another name, as long as the references to it are
changed along and the new name is not in use (`build_renameLocal`). `Program.renameLocal` does that:
it goes through a method with the new names of the variables in scope, and changes a reference by
the declaration that its first name is bound to. Members and classes of the same name stay, and so
do other variables.

The new name is not used where it could be captured or could capture something: no variable has it,
and no reference begins with it. Then the renamed program is like the original one
(`programAlike_rename`).
-/

namespace MiniJava

open Scoping List

/-! ## Renaming -/

/-- A declaration, with a new name if it is the one to be renamed. A declaration is known by its
name and its place. -/
def renamed (x : Ident) (y : String) (d : Ident) : Ident := if d = x then ⟨y, d.span⟩ else d

/-- The name of a variable and its new one. -/
def namePair (x : Ident) (y : String) (d : Ident) : String × String :=
    (d.value, (renamed x y d).value)

/-- What becomes of a name where the variables in scope have these new names, the latest ones
first. -/
def newName (pairs : List (String × String)) (name : String) : String :=
  (pairs.lookup name).getD name

/-- Renames the variable that a reference begins with. -/
def Ref.rename (pairs : List (String × String)) : Ref → Ref
  | .this span => .this span
  | .name span text => .name span (newName pairs text)
  | .member span base field => .member span (base.rename pairs) field

mutual

/-- Renames the variables of an expression. -/
def Expr.rename (pairs : List (String × String)) : Expr → Expr
  | .literal span value => .literal span value
  | .unary span op operand => .unary span op (operand.rename pairs)
  | .binary span op left right => .binary span op (left.rename pairs) (right.rename pairs)
  | .ref target => .ref (target.rename pairs)
  | .index span target position => .index span (target.rename pairs) (position.rename pairs)
  | .call span method args => .call span (method.rename pairs) (Expr.renameAll pairs args)
  | .newObject span className => .newObject span className
  | .newArray span element size => .newArray span element (size.rename pairs)

/-- Renames the variables of several expressions. -/
def Expr.renameAll (pairs : List (String × String)) : List Expr → List Expr
  | [] => []
  | e :: es => e.rename pairs :: Expr.renameAll pairs es

end

/-- The variable that a statement declares, with its new name. -/
def Stmt.pair? (x : Ident) (y : String) : Stmt → Option (String × String)
  | .declare _ _ d _ => some (namePair x y d)
  | _ => none

mutual

/-- Renames one variable in a statement. A variable is in scope in its own initializer. -/
def Stmt.rename (x : Ident) (y : String) (pairs : List (String × String)) : Stmt → Stmt
  | .block span body => .block span (Stmt.renameAll x y pairs body)
  | .declare span type d init =>
    .declare span type (renamed x y d) (init.rename (namePair x y d :: pairs))
  | .assign span target value => .assign span (target.rename pairs) (value.rename pairs)
  | .assignIndex span target position value =>
    .assignIndex span (target.rename pairs) (position.rename pairs) (value.rename pairs)
  | .call span method args => .call span (method.rename pairs) (Expr.renameAll pairs args)
  | .ret span value => .ret span (value.map (·.rename pairs))
  | .ifThen span test thenBranch =>
    .ifThen span (test.rename pairs) (thenBranch.rename x y pairs)
  | .ifThenElse span test thenBranch elseBranch =>
    .ifThenElse span (test.rename pairs) (thenBranch.rename x y pairs) (elseBranch.rename x y pairs)
  | .loop span test body => .loop span (test.rename pairs) (body.rename x y pairs)

/-- Renames one variable in statements in turn. -/
def Stmt.renameAll (x : Ident) (y : String) (pairs : List (String × String)) : List Stmt → List Stmt
  | [] => []
  | s :: ss => s.rename x y pairs :: Stmt.renameAll x y ((s.pair? x y).toList ++ pairs) ss

end

/-- Renames one variable in a method. -/
def MethodDecl.rename (x : Ident) (y : String) (m : MethodDecl) : MethodDecl :=
  { m with
    params := m.params.map fun q => { q with name := renamed x y q.name }
    body := Stmt.renameAll x y (m.params.reverse.map fun q => namePair x y q.name) m.body }

/-- Renames the parameter or local variable declared as `x` to `y`. -/
def Program.renameLocal (x : Ident) (y : String) (p : Program) : Program :=
  ⟨p.classes.map fun c => { c with methods := c.methods.map (·.rename x y) }⟩

/-! ## Variables and the names in use -/

mutual

/-- The variables that are declared in a statement. -/
def Stmt.locals : Stmt → List Ident
  | .block _ body => Stmt.allLocals body
  | .declare _ _ d _ => [d]
  | .ifThen _ _ thenBranch => thenBranch.locals
  | .ifThenElse _ _ thenBranch elseBranch => thenBranch.locals ++ elseBranch.locals
  | .loop _ _ body => body.locals
  | .assign _ _ _ | .assignIndex _ _ _ _ | .call _ _ _ | .ret _ _ => []

/-- The variables that are declared in statements in turn. -/
def Stmt.allLocals : List Stmt → List Ident
  | [] => []
  | s :: ss => s.locals ++ Stmt.allLocals ss

end

mutual

/-- The names of the variables of a statement, and those with which its references begin. -/
def Stmt.names : Stmt → List String
  | .block _ body => Stmt.allNames body
  | .declare _ _ d init => d.value :: init.roots
  | .assign _ target value => target.root?.toList ++ value.roots
  | .assignIndex _ target position value =>
    target.root?.toList ++ position.roots ++ value.roots
  | .call _ method args => method.root?.toList ++ Expr.rootsOf args
  | .ret _ none => []
  | .ret _ (some value) => value.roots
  | .ifThen _ test thenBranch => test.roots ++ thenBranch.names
  | .ifThenElse _ test thenBranch elseBranch => test.roots ++ thenBranch.names ++ elseBranch.names
  | .loop _ test body => test.roots ++ body.names

/-- The names of statements in turn. -/
def Stmt.allNames : List Stmt → List String
  | [] => []
  | s :: ss => s.names ++ Stmt.allNames ss

end

/-- The parameters and local variables of a program, in the order of the source. -/
def Program.locals (p : Program) : List Ident :=
  p.classes.flatMap fun c => c.methods.flatMap fun m =>
    m.params.map (·.name) ++ Stmt.allLocals m.body

/-- The names of the variables of a program, and those with which its references begin. -/
def Program.names (p : Program) : List String :=
  p.classes.flatMap fun c => c.methods.flatMap fun m =>
    m.params.map (·.name.value) ++ Stmt.allNames m.body

/-! ## New names -/

/-- Each variable keeps its name, which is not the new one, or it is called `x` and gets the new
one. -/
def NamesApart (x y : String) (pairs : List (String × String)) : Prop :=
  ∀ b ∈ pairs, (b.1 = b.2 ∧ b.1 ≠ y) ∨ (b.1 = x ∧ b.2 = y)

/-- Ranges stay as they are, and variables may have other names. -/
def Likeness.renaming : Likeness := ⟨Eq, False⟩

variable {pairs : List (String × String)} {p : Program} {d : Ident}

section

variable {x : Ident} {y : String} {pairs inner : List (String × String)}
  {outer : List (List (String × String))}

theorem newName_cases {x : String} (h : NamesApart x y pairs) (name : String) :
    newName pairs name = name ∨ (name = x ∧ newName pairs name = y) := by
  unfold newName
  cases hlookup : pairs.lookup name with
  | none => exact .inl rfl
  | some _ =>
    rcases h _ (mem_of_lookup hlookup) with ⟨hsame, -⟩ | hnew
    · exact .inl hsame.symm
    · exact .inr hnew

variable {name : String}

theorem newName_cons_of_ne {b : String × String} (h : name ≠ b.1) :
    newName (b :: pairs) name = newName pairs name := by
  rw [newName, newName, lookup_cons, beq_false_of_ne h]

/-- A name and what becomes of it mean the same: nothing is captured. -/
theorem sameVar_newName {x : String} (h : NamesApart x y pairs) (hname : name ≠ y) :
    SameVar pairs name (newName pairs name) := by
  induction pairs with
  | nil => rfl
  | cons b _ ih =>
    obtain ⟨n, n'⟩ := b
    obtain ⟨hfirst, hpairs⟩ := forall_mem_cons.mp h
    have hb : (n = n' ∧ n ≠ y) ∨ (n = x ∧ n' = y) := hfirst
    by_cases hn : name = n
    · subst hn
      exact .inl ⟨rfl, by simp [newName]⟩
    · rw [newName_cons_of_ne hn]
      -- A pair for another name is passed over on both sides, since the new name is no old one.
      refine .inr ⟨hn, ?_, ih hpairs⟩
      rcases newName_cases hpairs name with hkept | ⟨rfl, hnew⟩
      · rw [hkept]
        rcases hb with ⟨rfl, -⟩ | ⟨-, rfl⟩
        · exact hn
        · exact hname
      · rw [hnew]
        rcases hb with ⟨rfl, hne⟩ | ⟨rfl, -⟩
        · exact hne.symm
        · exact absurd rfl hn

theorem newName_of_notMem (h : name ∉ pairs.map Prod.fst) : newName pairs name = name := by
  have hnone : pairs.lookup name = none := by
    rw [lookup_eq_none_iff]
    intro b hb
    rw [bne_iff_ne]
    rintro rfl
    exact h (mem_map_of_mem hb)
  rw [newName, hnone]
  rfl

theorem apart_namePair (hd : d.value ≠ y) :
    ((namePair x y d).1 = (namePair x y d).2 ∧ (namePair x y d).1 ≠ y) ∨
      ((namePair x y d).1 = x.value ∧ (namePair x y d).2 = y) := by
  unfold namePair renamed
  split
  next heq => exact .inr ⟨congrArg Located.value heq, rfl⟩
  next => exact .inl ⟨rfl, hd⟩

theorem like_renamed (d : Ident) : Likeness.renaming.Like d (renamed x y d) := by
  refine ⟨fun hkept => hkept.elim, ?_⟩
  unfold renamed
  split <;> rfl

/-- A new variable takes no name twice, before or after renaming. -/
theorem fits_renamed (hd : d.value ≠ y) (h : NamesApart x.value y inner)
    (hnew : d.value ∉ inner.map Prod.fst) :
    (⟨inner :: outer⟩ : ScopeStack String).Fits d.value (renamed x y d).value := by
  rintro _ ⟨⟩
  refine iff_of_false hnew ?_
  -- A variable that has the new name by now was called like this one, or has been called so all
  -- along.
  intro hmem
  obtain ⟨b, hb, heq⟩ := mem_map.mp hmem
  unfold renamed at heq
  split at heq
  next hx =>
    rcases h b hb with ⟨hsame, hne⟩ | ⟨hfirst, -⟩
    · exact hne (hsame.trans heq)
    · exact hnew (mem_map.mpr ⟨b, hb, hfirst.trans (congrArg Located.value hx.symm)⟩)
  next =>
    rcases h b hb with ⟨hsame, -⟩ | ⟨-, hsecond⟩
    · exact hnew (mem_map.mpr ⟨b, hb, hsame.trans heq⟩)
    · exact hd (heq.symm.trans hsecond)

theorem defineNew_renamed (hnew : d.value ∉ inner.map Prod.fst) :
    (⟨inner :: outer⟩ : ScopeStack String).defineNew d.value (renamed x y d).value =
      ⟨(namePair x y d :: inner) :: outer⟩ := by
  have hnone : ¬ (inner.lookup d.value).isSome = true := mt ScopeStack.isSome_lookup_iff.mp hnew
  rw [ScopeStack.defineNew, ScopeStack.define?]
  simp only [if_neg hnone, Option.getD_some, namePair]

end

/-! ## References and expressions -/

section

variable {x : String} {y : String} {ρ : ScopeStack String} {home : Home} {vars : Vars}

theorem refAlike_rename (h : NamesApart x y ρ.bindings) {r : Ref} (hy : y ∉ r.root?.toList) :
    RefAlike .renaming ρ r (r.rename ρ.bindings) := by
  induction r with
  | this => exact .this rfl
  | name _ text =>
    have htext : text ≠ y := by
      rintro rfl
      exact hy (mem_singleton_self _)
    exact .name rfl (fun hkept => hkept.elim) (sameVar_newName h htext)
  | member _ _ _ ih => exact .member rfl (ih hy) ⟨rfl, rfl⟩

/-- What is called by its plain name is no variable, so it keeps its name. -/
theorem calleeAlike_rename (h : NamesApart x y ρ.bindings) {r : Ref} (hcall : home.CanCall vars r)
    (hvars : ∀ n ∈ r.root?.toList, n ∈ ρ.bindings.map Prod.fst → n ∈ vars.map Prod.fst)
    (hy : y ∉ r.root?.toList) : CalleeAlike .renaming ρ r (r.rename ρ.bindings) := by
  refine ⟨refAlike_rename h hy, ?_⟩
  cases r with
  | this _ | member _ _ _ => rfl
  | name span text =>
    -- Only members and classes can be called, and a variable of that name would hide them.
    have hnone : vars.lookup text = none := by
      have hmeans : home.Means vars (.name span text) .method := hcall
      generalize hreferent : Referent.method = referent at hmeans
      cases hmeans with
      | bound => cases hreferent
      | own hvar | classNamed hvar => exact hvar
    have hmem : text ∉ vars.map Prod.fst := by
      rw [← ScopeStack.isSome_lookup_iff, hnone]
      exact Bool.false_ne_true
    have hfree : text ∉ ρ.bindings.map Prod.fst :=
      fun hbound => hmem (hvars text (mem_singleton_self _) hbound)
    rw [Ref.rename, newName_of_notMem hfree]

mutual

/-- An expression is like the renamed one, if its variables are known where it stands. -/
theorem exprAlike_rename (h : NamesApart x y ρ.bindings) :
    ∀ e : Expr, home.ExprScoped vars e →
      (∀ n ∈ e.roots, n ∈ ρ.bindings.map Prod.fst → n ∈ vars.map Prod.fst) → y ∉ e.roots →
      ExprAlike .renaming ρ e (e.rename ρ.bindings)
  | .literal _ _, _, _, _ => .literal rfl
  | .unary _ _ e, hscoped, hvars, hy => .unary rfl (exprAlike_rename h e hscoped hvars hy)
  | .binary _ _ left right, hscoped, hvars, hy => by
    rw [Expr.roots, mem_append, not_or] at hy
    rw [Expr.roots, forall_mem_append] at hvars
    exact .binary rfl (exprAlike_rename h left hscoped.1 hvars.1 hy.1)
      (exprAlike_rename h right hscoped.2 hvars.2 hy.2)
  | .ref _, _, _, hy => .ref (refAlike_rename h hy)
  | .index _ _ e, hscoped, hvars, hy => by
    rw [Expr.roots, mem_append, not_or] at hy
    rw [Expr.roots, forall_mem_append] at hvars
    exact .index rfl (refAlike_rename h hy.1) (exprAlike_rename h e hscoped.2 hvars.2 hy.2)
  | .call _ _ args, hscoped, hvars, hy => by
    rw [Expr.roots, mem_append, not_or] at hy
    rw [Expr.roots, forall_mem_append] at hvars
    exact .call rfl (calleeAlike_rename h hscoped.1 hvars.1 hy.1)
      (exprsAlike_rename h args hscoped.2 hvars.2 hy.2)
  | .newObject _ _, _, _, _ => .newObject rfl ⟨rfl, rfl⟩
  | .newArray _ _ e, hscoped, hvars, hy =>
    .newArray rfl ⟨rfl, rfl⟩ (exprAlike_rename h e hscoped.2 hvars hy)

theorem exprsAlike_rename (h : NamesApart x y ρ.bindings) :
    ∀ es : List Expr, home.ExprsScoped vars es →
      (∀ n ∈ Expr.rootsOf es, n ∈ ρ.bindings.map Prod.fst → n ∈ vars.map Prod.fst) →
      y ∉ Expr.rootsOf es → ExprsAlike .renaming ρ es (Expr.renameAll ρ.bindings es)
  | [], _, _, _ => .nil
  | e :: es, hscoped, hvars, hy => by
    rw [Expr.rootsOf, mem_append, not_or] at hy
    rw [Expr.rootsOf, forall_mem_append] at hvars
    exact .cons (exprAlike_rename h e hscoped.1 hvars.1 hy.1)
      (exprsAlike_rename h es hscoped.2 hvars.2 hy.2)

end

/-! ## Renaming looks at the names in use only -/

theorem Ref.rename_congr {pairs' : List (String × String)} {r : Ref}
    (h : ∀ n ∈ r.root?.toList, newName pairs n = newName pairs' n) :
    r.rename pairs = r.rename pairs' := by
  induction r with
  | this => rfl
  | name span text => exact congrArg (Ref.name span) (h text (mem_singleton_self _))
  | member span _ field ih => exact congrArg (Ref.member span · field) (ih h)

mutual

theorem Expr.rename_congr {pairs pairs' : List (String × String)} :
    ∀ e : Expr, (∀ n ∈ e.roots, newName pairs n = newName pairs' n) →
      e.rename pairs = e.rename pairs'
  | .literal _ _, _ => rfl
  | .unary _ _ e, h => by rw [Expr.rename, Expr.rename, Expr.rename_congr e h]
  | .binary _ _ left right, h => by
    rw [Expr.roots, forall_mem_append] at h
    rw [Expr.rename, Expr.rename, Expr.rename_congr left h.1, Expr.rename_congr right h.2]
  | .ref _, h => congrArg Expr.ref (Ref.rename_congr h)
  | .index _ _ e, h => by
    rw [Expr.roots, forall_mem_append] at h
    rw [Expr.rename, Expr.rename, Ref.rename_congr h.1, Expr.rename_congr e h.2]
  | .call _ _ args, h => by
    rw [Expr.roots, forall_mem_append] at h
    rw [Expr.rename, Expr.rename, Ref.rename_congr h.1, Expr.renameAll_congr args h.2]
  | .newObject _ _, _ => rfl
  | .newArray _ _ e, h => by rw [Expr.rename, Expr.rename, Expr.rename_congr e h]

theorem Expr.renameAll_congr {pairs pairs' : List (String × String)} :
    ∀ es : List Expr, (∀ n ∈ Expr.rootsOf es, newName pairs n = newName pairs' n) →
      Expr.renameAll pairs es = Expr.renameAll pairs' es
  | [], _ => rfl
  | e :: es, h => by
    rw [Expr.rootsOf, forall_mem_append] at h
    rw [Expr.renameAll, Expr.renameAll, Expr.rename_congr e h.1, Expr.renameAll_congr es h.2]

end

end

/-! ## Statements -/

section

variable {x : Ident} {y : String} {home : Home}

theorem pair?_eq_none {s : Stmt} (h : s.binding? = none) : s.pair? x y = none := by
  cases s <;> first | rfl | cases h

theorem map_fst_pair_append (s : Stmt) (pairs : List (String × String)) :
    ((s.pair? x y).toList ++ pairs).map Prod.fst =
      (s.binding?.map Prod.fst).toList ++ pairs.map Prod.fst := by
  cases s <;> rfl

theorem namesApart_pair {s : Stmt} (hy : y ∉ s.names) (h : NamesApart x.value y pairs) :
    NamesApart x.value y ((s.pair? x y).toList ++ pairs) := by
  cases s with
  | declare =>
    rw [Stmt.names, mem_cons, not_or] at hy
    exact forall_mem_cons.mpr ⟨apart_namePair (Ne.symm hy.1), h⟩
  | _ => exact h

variable {outer : List (List (String × String))} {inner : List (String × String)} {vars : Vars}

/-- An expression is like the renamed one where exactly the variables that have a new name are
known. -/
theorem exprAlike_rename_here (h : NamesApart x.value y (inner ++ outer.flatten))
    (hvars : vars.map Prod.fst = (inner ++ outer.flatten).map Prod.fst) {e : Expr}
    (hscoped : home.ExprScoped vars e) (hy : y ∉ e.roots) :
    ExprAlike .renaming ⟨inner :: outer⟩ e (e.rename (inner ++ outer.flatten)) :=
  exprAlike_rename (ρ := ⟨inner :: outer⟩) h e hscoped (fun _ _ hmem => hvars ▸ hmem) hy

/-- An initializer does not use its own variable, so it is the same in front of the declaration and
behind it. -/
theorem declareAlike_rename (h : NamesApart x.value y (inner ++ outer.flatten))
    (hvars : vars.map Prod.fst = (inner ++ outer.flatten).map Prod.fst) (span : Span)
    {type : Located Ty} {init : Expr} (hscoped : home.StmtScoped vars (.declare span type d init))
    (hnew : d.value ∉ inner.map Prod.fst) (hd : d.value ≠ y) (hy : y ∉ init.roots) :
    StmtAlike .renaming ⟨inner :: outer⟩ (.declare span type d init)
      (Stmt.rename x y (inner ++ outer.flatten) (.declare span type d init))
      ⟨(namePair x y d :: inner) :: outer⟩ := by
  obtain ⟨-, hroots, hinit⟩ := hscoped
  have hinner : NamesApart x.value y inner := fun b hb => h b (mem_append_left _ hb)
  have hbehind : ExprAlike .renaming ⟨(namePair x y d :: inner) :: outer⟩ init
      (init.rename (namePair x y d :: (inner ++ outer.flatten))) := by
    refine exprAlike_rename (ρ := ⟨(namePair x y d :: inner) :: outer⟩)
      (forall_mem_cons.mpr ⟨apart_namePair hd, h⟩) init hinit ?_ hy
    intro n hn hmem
    rcases mem_cons.mp hmem with rfl | hmem
    · exact absurd hn hroots
    · exact hvars ▸ hmem
  have hsame : init.rename (namePair x y d :: (inner ++ outer.flatten)) =
      init.rename (inner ++ outer.flatten) := by
    refine Expr.rename_congr init fun n hn => ?_
    refine newName_cons_of_ne ?_
    rintro rfl
    exact hroots hn
  have hbefore : ExprAlike .renaming ⟨inner :: outer⟩ init
      (init.rename (namePair x y d :: (inner ++ outer.flatten))) := by
    rw [hsame]
    exact exprAlike_rename_here h hvars hinit hy
  rw [← defineNew_renamed hnew] at hbehind ⊢
  exact .declare rfl ⟨rfl, rfl⟩ (like_renamed d) (fits_renamed hd hinner hnew) hbefore hbehind

/-- A branch is no declaration, so it leaves the variables as they are. -/
theorem branchAlike_rename {s s' : Stmt} (hnone : s.binding? = none)
    (halike : (∀ b ∈ s.binding?, b.1 ∉ inner.map Prod.fst) →
      StmtAlike .renaming ⟨inner :: outer⟩ s s' ⟨((s.pair? x y).toList ++ inner) :: outer⟩) :
    StmtAlike .renaming ⟨inner :: outer⟩ s s' ⟨inner :: outer⟩ := by
  rw [pair?_eq_none hnone, hnone] at halike
  exact halike nofun

mutual

/-- A statement whose names are used as they may be is like the renamed one, and leaves the variable
that it declares. -/
theorem stmtAlike_rename {inner : List (String × String)} {outer : List (List (String × String))}
    {vars : Vars} (h : NamesApart x.value y (inner ++ outer.flatten))
    (hvars : vars.map Prod.fst = (inner ++ outer.flatten).map Prod.fst) :
    ∀ s : Stmt, home.StmtScoped vars s → (∀ b ∈ s.binding?, b.1 ∉ inner.map Prod.fst) →
      y ∉ s.names → StmtAlike .renaming ⟨inner :: outer⟩ s (s.rename x y (inner ++ outer.flatten))
        ⟨((s.pair? x y).toList ++ inner) :: outer⟩
  | .block _ body, hscoped, _, hy => by
    -- A block opens a scope of its own, with no variables in it.
    have hpushed : NamesApart x.value y ([] ++ (inner :: outer).flatten) := h
    obtain ⟨_, hbody⟩ := stmtsAlike_rename hpushed hvars body hscoped.2 hscoped.1
      (disjoint_nil_right _) hy
    exact .block hbody
  | .declare span _ d init, hscoped, hnew, hy => by
    rw [Stmt.names, mem_cons, not_or] at hy
    exact declareAlike_rename h hvars span hscoped (hnew _ rfl) (Ne.symm hy.1) hy.2
  | .assign _ _ e, hscoped, _, hy => by
    rw [Stmt.names, mem_append, not_or] at hy
    exact .assign (refAlike_rename (ρ := ⟨inner :: outer⟩) h hy.1)
      (exprAlike_rename_here h hvars hscoped.2 hy.2)
  | .assignIndex _ _ i e, hscoped, _, hy => by
    rw [Stmt.names, mem_append, not_or, mem_append, not_or] at hy
    exact .assignIndex (refAlike_rename (ρ := ⟨inner :: outer⟩) h hy.1.1)
      (exprAlike_rename_here h hvars hscoped.2.1 hy.1.2)
      (exprAlike_rename_here h hvars hscoped.2.2 hy.2)
  | .call _ _ args, hscoped, _, hy => by
    rw [Stmt.names, mem_append, not_or] at hy
    exact .call
      (calleeAlike_rename (ρ := ⟨inner :: outer⟩) h hscoped.1 (fun _ _ hmem => hvars ▸ hmem) hy.1)
      (exprsAlike_rename (ρ := ⟨inner :: outer⟩) h args hscoped.2
      (fun _ _ hmem => hvars ▸ hmem) hy.2)
  | .ret _ none, _, _, _ => .retNone rfl
  | .ret _ (some _), hscoped, _, hy => .retSome (exprAlike_rename_here h hvars hscoped hy)
  | .ifThen _ _ s, hscoped, _, hy => by
    rw [Stmt.names, mem_append, not_or] at hy
    exact .ifThen (exprAlike_rename_here h hvars hscoped.1 hy.1)
      (branchAlike_rename hscoped.2.1 fun hnew => stmtAlike_rename h hvars s hscoped.2.2 hnew hy.2)
  | .ifThenElse _ _ a b, hscoped, _, hy => by
    rw [Stmt.names, mem_append, not_or, mem_append, not_or] at hy
    exact .ifThenElse (exprAlike_rename_here h hvars hscoped.1 hy.1.1)
      (branchAlike_rename hscoped.2.1.1 fun hnew =>
        stmtAlike_rename h hvars a hscoped.2.1.2 hnew hy.1.2)
      (branchAlike_rename hscoped.2.2.1 fun hnew =>
        stmtAlike_rename h hvars b hscoped.2.2.2 hnew hy.2)
  | .loop _ _ s, hscoped, _, hy => by
    rw [Stmt.names, mem_append, not_or] at hy
    exact .loop (exprAlike_rename_here h hvars hscoped.1 hy.1)
      (branchAlike_rename hscoped.2.1 fun hnew => stmtAlike_rename h hvars s hscoped.2.2 hnew hy.2)

/-- So are statements in turn that declare no name twice. -/
theorem stmtsAlike_rename {inner : List (String × String)} {outer : List (List (String × String))}
    {vars : Vars} (h : NamesApart x.value y (inner ++ outer.flatten))
    (hvars : vars.map Prod.fst = (inner ++ outer.flatten).map Prod.fst) :
    ∀ ss : List Stmt, home.StmtsScoped vars ss → (Stmt.boundNames ss).Nodup →
      (Stmt.boundNames ss).Disjoint (inner.map Prod.fst) → y ∉ Stmt.allNames ss →
      ∃ inner', StmtsAlike .renaming ⟨inner :: outer⟩ ss
        (Stmt.renameAll x y (inner ++ outer.flatten) ss) ⟨inner' :: outer⟩
  | [], _, _, _, _ => ⟨inner, .nil⟩
  | s :: ss, hscoped, hnodup, hdisjoint, hy => by
    rw [Stmt.allNames, mem_append, not_or] at hy
    rw [Stmt.boundNames_cons] at hnodup hdisjoint
    rw [nodup_append'] at hnodup
    rw [disjoint_append_left] at hdisjoint
    have hnew : ∀ b ∈ s.binding?, b.1 ∉ inner.map Prod.fst := by
      intro b hb
      refine hdisjoint.1 ?_
      rw [Option.mem_toList]
      exact Option.mem_map_of_mem _ hb
    have hs := stmtAlike_rename h hvars s hscoped.1 hnew hy.1
    -- The variable that the statement declares comes first behind it, in both programs.
    have hbehind : NamesApart x.value y (((s.pair? x y).toList ++ inner) ++ outer.flatten) := by
      rw [append_assoc]
      exact namesApart_pair hy.1 h
    have hvarsBehind : (s.binding?.toList ++ vars).map Prod.fst =
        (((s.pair? x y).toList ++ inner) ++ outer.flatten).map Prod.fst := by
      rw [append_assoc, map_fst_pair_append, map_append, hvars, Option.toList_map]
    have hfresh : (Stmt.boundNames ss).Disjoint (((s.pair? x y).toList ++ inner).map Prod.fst) := by
      rw [map_fst_pair_append, disjoint_append_right]
      exact ⟨hnodup.2.2.symm, hdisjoint.2⟩
    obtain ⟨inner', hss⟩ := stmtsAlike_rename hbehind hvarsBehind ss hscoped.2
      hnodup.2.1 hfresh hy.2
    rw [append_assoc] at hss
    exact ⟨inner', .cons hs hss⟩

end

/-! ## Programs -/

theorem paramsAlike_rename {qs : List Param} (h : NamesApart x.value y inner)
    (hnodup : (qs.map (·.name.value)).Nodup)
    (hdisjoint : (qs.map (·.name.value)).Disjoint (inner.map Prod.fst))
    (hy : y ∉ qs.map (·.name.value)) :
    ParamsAlike .renaming ⟨inner :: outer⟩ qs
      (qs.map fun q => { q with name := renamed x y q.name })
      ⟨(qs.reverse.map (fun q => namePair x y q.name) ++ inner) :: outer⟩ := by
  induction qs generalizing inner with
  | nil => exact .nil
  | cons q qs ih =>
    rw [map_cons, mem_cons, not_or] at hy
    rw [map_cons, nodup_cons] at hnodup
    rw [map_cons, disjoint_cons_left] at hdisjoint
    have hq : q.name.value ≠ y := Ne.symm hy.1
    have hfresh : (qs.map (·.name.value)).Disjoint
        ((namePair x y q.name :: inner).map Prod.fst) := by
      rw [map_cons, disjoint_cons_right]
      exact ⟨hnodup.1, hdisjoint.2⟩
    have hqs := ih (forall_mem_cons.mpr ⟨apart_namePair hq, h⟩) hnodup.2 hfresh hy.2
    rw [← defineNew_renamed hdisjoint.1] at hqs
    rw [map_cons, reverse_cons, map_append, append_assoc]
    exact .cons ⟨rfl, rfl⟩ (like_renamed q.name) (fits_renamed hq h hdisjoint.1) hqs

/-- The statements of a body stand in the scope of the parameters. -/
theorem bodyAlike_rename (h : NamesApart x.value y pairs)
    (hvars : vars.map Prod.fst = pairs.map Prod.fst) {ss : List Stmt}
    (hscoped : home.StmtsScoped vars ss) (hnodup : (Stmt.boundNames ss).Nodup)
    (hfresh : (Stmt.boundNames ss).Disjoint (pairs.map Prod.fst)) (hy : y ∉ Stmt.allNames ss) :
    ∃ inner', StmtsAlike .renaming ⟨[pairs]⟩ ss (Stmt.renameAll x y pairs ss) ⟨[inner']⟩ := by
  have hflatten : pairs ++ List.flatten [] = pairs := append_nil _
  have halike : ∃ inner', StmtsAlike .renaming ⟨[pairs]⟩ ss
      (Stmt.renameAll x y (pairs ++ List.flatten []) ss) ⟨[inner']⟩ :=
    stmtsAlike_rename (hflatten.symm ▸ h) (hflatten.symm ▸ hvars) ss hscoped hnodup hfresh hy
  rwa [hflatten] at halike

/-- A method with a renamed variable is like the one it was. -/
theorem methodAlike_rename {className : String} {m : MethodDecl}
    (hscoped : MethodScoped p className m)
    (hy : y ∉ m.params.map (·.name.value) ++ Stmt.allNames m.body) :
    MethodAlike .renaming m (m.rename x y) := by
  rw [mem_append, not_or] at hy
  obtain ⟨hparams, hlocals, hapart⟩ := nodup_append'.mp hscoped.nodup
  have hpairs : NamesApart x.value y (m.params.reverse.map fun q => namePair x y q.name) := by
    intro b hb
    obtain ⟨_, hq, rfl⟩ := mem_map.mp hb
    exact apart_namePair fun heq => hy.1 (heq ▸ mem_map_of_mem (mem_reverse.mp hq))
  have hkeys : (m.params.reverse.map fun q => namePair x y q.name).map Prod.fst =
      (m.params.map (·.name.value)).reverse := by
    rw [map_map, ← map_reverse]
    rfl
  have hvars : (m.params.reverse.map fun q => (q.name.value, q.type.value)).map Prod.fst =
      (m.params.map (·.name.value)).reverse := by
    rw [map_map, ← map_reverse]
    rfl
  have hstart : ParamsAlike .renaming ScopeStack.empty.push m.params (m.rename x y).params
      ⟨[m.params.reverse.map (fun q => namePair x y q.name) ++ []]⟩ :=
    paramsAlike_rename (forall_mem_nil _) hparams (disjoint_nil_right _) hy.1
  rw [append_nil] at hstart
  have hfresh : (Stmt.boundNames m.body).Disjoint
      ((m.params.reverse.map fun q => namePair x y q.name).map Prod.fst) := by
    rw [hkeys, disjoint_reverse_right]
    exact hapart.symm
  obtain ⟨_, hbody⟩ :=
    bodyAlike_rename hpairs (hvars.trans hkeys.symm) hscoped.body hlocals hfresh hy.2
  exact ⟨⟨rfl, rfl⟩, ⟨rfl, rfl⟩, rfl, rfl, rfl, _, _, hstart, hbody⟩

/-- A program that passes identification is like the renamed one. -/
theorem programAlike_rename {table : ClassTable} (howned : p.MembersOwned)
    (hidentify : identify p = .ok table) (hy : y ∉ p.names) :
    ProgramAlike .renaming p (p.renameLocal x y) := by
  have ht := isTableOf_of_identify hidentify
  obtain ⟨_, -, ⟨⟩, hclasses, ⟨⟩⟩ := bind₂_eq_ok.mp hidentify
  refine forall₂_map_right_iff.mpr (forall₂_same.mpr fun c hc => ?_)
  obtain ⟨-, hmethods⟩ := (checkClass_iff ht howned).mp (forM_eq_ok_iff.mp hclasses c hc)
  refine ⟨⟨rfl, rfl⟩, forall₂_same.mpr fun f _ => ⟨⟨rfl, rfl⟩, ⟨rfl, rfl⟩, rfl, rfl, rfl⟩,
    forall₂_map_right_iff.mpr (forall₂_same.mpr fun m hm => ?_)⟩
  refine methodAlike_rename (hmethods m hm) fun hmem => hy ?_
  exact mem_flatMap.mpr ⟨c, hc, mem_flatMap.mpr ⟨m, hm, hmem⟩⟩

end

/-! ## Images -/

section

variable {x : Ident} {y : String}

mutual

theorem Stmt.locals_rename : ∀ (pairs : List (String × String)) (s : Stmt),
    (s.rename x y pairs).locals = s.locals.map (renamed x y)
  | pairs, .block _ body => Stmt.allLocals_renameAll pairs body
  | _, .declare _ _ _ _ => rfl
  | _, .assign _ _ _ => rfl
  | _, .assignIndex _ _ _ _ => rfl
  | _, .call _ _ _ => rfl
  | _, .ret _ _ => rfl
  | pairs, .ifThen _ _ s => Stmt.locals_rename pairs s
  | pairs, .ifThenElse _ _ a b => by
    rw [Stmt.rename, Stmt.locals, Stmt.locals, map_append, Stmt.locals_rename pairs a,
      Stmt.locals_rename pairs b]
  | pairs, .loop _ _ s => Stmt.locals_rename pairs s

theorem Stmt.allLocals_renameAll : ∀ (pairs : List (String × String)) (ss : List Stmt),
    Stmt.allLocals (Stmt.renameAll x y pairs ss) = (Stmt.allLocals ss).map (renamed x y)
  | _, [] => rfl
  | pairs, s :: ss => by
    rw [Stmt.renameAll, Stmt.allLocals, Stmt.allLocals, map_append, Stmt.locals_rename pairs s,
      Stmt.allLocals_renameAll _ ss]

end

/-- One variable has a new name, and all others are as before. -/
theorem locals_renameLocal (p : Program) :
    (p.renameLocal x y).locals = p.locals.map (renamed x y) := by
  simp only [Program.locals, Program.renameLocal, MethodDecl.rename, flatMap_map,
    map_flatMap, map_append, map_map, Stmt.allLocals_renameAll, Function.comp_def]

theorem membersOwned_renameLocal (h : p.MembersOwned) : (p.renameLocal x y).MembersOwned := by
  refine ⟨forall_mem_map.mpr h.fields, forall_mem_map.mpr fun c hc => ?_⟩
  exact forall_mem_map.mpr (h.methods c hc)

/-- A program that is accepted has the same image after a variable has got a new name. -/
theorem build_renameLocal {image : List UInt8} (howned : p.MembersOwned)
    (hbuild : p.build = .ok image) (hy : y ∉ p.names) : (p.renameLocal x y).build = .ok image := by
  obtain ⟨_, hidentify, -⟩ := build_eq_ok_iff.mp hbuild
  exact build_eq_ok_of_alike (programAlike_rename howned hidentify hy) hbuild

end

end MiniJava
