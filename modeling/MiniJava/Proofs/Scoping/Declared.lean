import Mathlib.Data.List.Nodup
import Mathlib.Data.List.Perm.Basic
import MiniJava.Proofs.Positions.Exact

/-!
# Where names are declared

A name is declared in a scope: the classes of a program, the members of a class, the parameters and
the variables at the top of a method, or the variables of a block (`Program.scopes`).

The names of a scope stand in the order of the source (`pairwise_of_mem_scopes`), and no name stands
in two scopes (`scopesApart_of_parse`). Both follow from a list of all names in the order of the
source (`Program.sourceNames`), which the tokens of the program give (`Outline.Carries`).
-/

namespace MiniJava

open Grammar List

/-! ## Scopes -/

/-- The name that a statement declares for those behind it. -/
def Stmt.declaredName? : Stmt → Option Ident
  | .declare _ _ name _ => some name
  | _ => none

/-- The names that statements declare in the scope in which they stand. -/
def Stmt.declaredNames (ss : List Stmt) : List Ident := ss.filterMap Stmt.declaredName?

theorem Stmt.declaredNames_cons (s : Stmt) (ss : List Stmt) :
    Stmt.declaredNames (s :: ss) = s.declaredName?.toList ++ Stmt.declaredNames ss := by
  unfold Stmt.declaredNames
  rw [filterMap_cons]
  cases s.declaredName? <;> rfl

mutual

/-- The scopes of the blocks in a statement. -/
def Stmt.scopes : Stmt → List (List Ident)
  | .block _ body => Stmt.declaredNames body :: Stmt.scopesOf body
  | .ifThen _ _ thenBranch => thenBranch.scopes
  | .ifThenElse _ _ thenBranch elseBranch => thenBranch.scopes ++ elseBranch.scopes
  | .loop _ _ body => body.scopes
  | .declare .. | .assign .. | .assignIndex .. | .call .. | .ret .. => []

/-- The scopes of the blocks in some statements. -/
def Stmt.scopesOf : List Stmt → List (List Ident)
  | [] => []
  | s :: ss => s.scopes ++ Stmt.scopesOf ss

end

/-- The scope at the top of a method, and those inside. -/
def MethodDecl.scopes (m : MethodDecl) : List (List Ident) :=
  (m.params.map (·.name) ++ Stmt.declaredNames m.body) :: Stmt.scopesOf m.body

namespace Grammar.Member

def name : Member → Ident
  | field f => f.name
  | method m => m.name

/-- The scopes in a member. -/
def scopes : Member → List (List Ident)
  | field _ => []
  | method m => m.scopes

end Grammar.Member

/-- The scope of the members of a class. -/
def ClassDecl.memberScope (c : ClassDecl) : List Ident := c.members.map Member.name

/-- The scopes of parameters and variables. -/
def Program.localScopes (p : Program) : List (List Ident) :=
  p.classes.flatMap fun c => c.members.flatMap Member.scopes

/-- The scopes of a program. -/
def Program.scopes (p : Program) : List (List Ident) :=
  p.classes.map (·.name) :: (p.classes.map ClassDecl.memberScope ++ p.localScopes)

/-! ## All names in order -/

mutual

/-- The names that are declared in the blocks of a statement. -/
def Stmt.innerNames : Stmt → List Ident
  | .block _ body => Stmt.sourceNames body
  | .ifThen _ _ thenBranch => thenBranch.innerNames
  | .ifThenElse _ _ thenBranch elseBranch => thenBranch.innerNames ++ elseBranch.innerNames
  | .loop _ _ body => body.innerNames
  | .declare .. | .assign .. | .assignIndex .. | .call .. | .ret .. => []

/-- The names that statements declare, in their own scope and in blocks. -/
def Stmt.sourceNames : List Stmt → List Ident
  | [] => []
  | s :: ss => s.declaredName?.toList ++ s.innerNames ++ Stmt.sourceNames ss

end

/-- The names that are declared inside a member. -/
def Grammar.Member.innerNames : Member → List Ident
  | field _ => []
  | method m => m.params.map (·.name) ++ Stmt.sourceNames m.body

/-- The names of the members of a class, each with those inside. -/
def ClassDecl.sourceNames (c : ClassDecl) : List Ident :=
    c.members.flatMap fun a => a.name :: a.innerNames

/-- The names that a program declares, in the order of the source. -/
def Program.sourceNames (p : Program) : List Ident :=
    p.classes.flatMap fun c => c.name :: c.sourceNames

/-! ## The names are in the scopes -/

open List in
mutual

theorem Stmt.innerNames_perm : ∀ s : Stmt, s.innerNames ~ s.scopes.flatten
  | .block _ body => Stmt.sourceNames_perm body
  | .ifThen _ _ thenBranch => thenBranch.innerNames_perm
  | .ifThenElse _ _ thenBranch elseBranch => by
    rw [Stmt.innerNames, Stmt.scopes, flatten_append]
    exact thenBranch.innerNames_perm.append elseBranch.innerNames_perm
  | .loop _ _ body => body.innerNames_perm
  | .declare .. | .assign .. | .assignIndex .. | .call .. | .ret .. => .nil

theorem Stmt.sourceNames_perm : ∀ ss : List Stmt,
    Stmt.sourceNames ss ~ Stmt.declaredNames ss ++ (Stmt.scopesOf ss).flatten
  | [] => .nil
  | s :: ss => by
    rw [Stmt.sourceNames, Stmt.scopesOf, Stmt.declaredNames_cons, flatten_append,
      append_assoc, append_assoc]
    refine Perm.append_left _ ?_
    exact ((Stmt.innerNames_perm s).append (Stmt.sourceNames_perm ss)).trans
      (perm_append_comm_assoc _ _ _)

end

open List in
theorem Grammar.Member.innerNames_perm (a : Member) : a.innerNames ~ a.scopes.flatten := by
  cases a with
  | field => exact .nil
  | method m =>
    show m.params.map (·.name) ++ Stmt.sourceNames m.body ~
      m.params.map (·.name) ++ Stmt.declaredNames m.body ++ (Stmt.scopesOf m.body).flatten
    rw [append_assoc]
    exact (Stmt.sourceNames_perm m.body).append_left _

variable {scope : List Ident} {α : Type}

open List in
theorem flatMap_perm_flatten {β : Type} {f : α → List β} {g : α → List (List β)}
    (h : ∀ a, f a ~ (g a).flatten) (l : List α) : l.flatMap f ~ (l.flatMap g).flatten := by
  rw [← flatMap_id, flatMap_assoc]
  refine Perm.flatMap_left l fun a _ => ?_
  rw [flatMap_id]
  exact h a

open List in
/-- Every declared name is in one scope, and nothing else is. -/
theorem Program.sourceNames_perm (p : Program) : p.sourceNames ~ p.scopes.flatten := by
  have hclass : ∀ c : ClassDecl, c.sourceNames ~
      c.memberScope ++ (c.members.flatMap Member.scopes).flatten := fun c =>
    (map_append_flatMap_perm c.members Member.name Member.innerNames).symm.trans
      ((flatMap_perm_flatten Member.innerNames_perm c.members).append_left _)
  have hclasses : p.classes.flatMap ClassDecl.sourceNames ~
    p.classes.flatMap ClassDecl.memberScope ++
      p.classes.flatMap fun c => (c.members.flatMap Member.scopes).flatten :=
    (Perm.flatMap_left p.classes fun c _ => hclass c).trans (flatMap_append_perm p.classes _ _).symm
  refine (map_append_flatMap_perm p.classes (·.name) ClassDecl.sourceNames).symm.trans ?_
  rw [Program.scopes, flatten_cons, flatten_append, ← flatMap_def]
  refine Perm.append_left _ (hclasses.trans (Perm.append_left _ ?_))
  exact flatMap_perm_flatten (fun _ => Perm.refl _) p.classes

/-! ## The order of the source -/

namespace Outline

variable {o : Outline} {os os' : List Outline} {xs ys : List Ident} {span : Span} {wraps : Bool}

/-- The names stand on tokens of the outline, in this order. -/
def Carries (o : Outline) (xs : List Ident) : Prop :=
  ∀ ts, On ts o → (xs.map (·.span.start)).Sublist (ts.map (·.span.start))

/-- The names stand on tokens of the outlines, in this order. -/
def CarriesAll (os : List Outline) (xs : List Ident) : Prop :=
  ∀ ts, Fills ts os → (xs.map (·.span.start)).Sublist (ts.map (·.span.start))

theorem carries_nil (o : Outline) : Carries o [] := fun _ _ => nil_sublist _

theorem carriesAll_nil (os : List Outline) : CarriesAll os [] := fun _ _ => nil_sublist _

theorem Carries.cons (ho : Carries o xs) (hos : CarriesAll os ys) :
    CarriesAll (o :: os) (xs ++ ys) := by
  intro _ h
  cases h with
  | cons hon hfills =>
    rw [map_append, map_append]
    exact (ho _ hon).append (hos _ hfills)

theorem CarriesAll.cons (hos : CarriesAll os ys) (o : Outline) : CarriesAll (o :: os) ys :=
  (carries_nil o).cons hos

theorem CarriesAll.append (hos : CarriesAll os xs) (hos' : CarriesAll os' ys) :
    CarriesAll (os ++ os') (xs ++ ys) := by
  intro _ h
  obtain ⟨us, vs, rfl, hus, hvs⟩ := h.exists_append
  rw [map_append, map_append]
  exact (hos us hus).append (hos' vs hvs)

theorem Carries.single (ho : Carries o xs) : CarriesAll [o] xs := by
  intro ts h
  exact ho ts h.on_of_singleton

/-- Outlines behind the others may carry nothing. -/
theorem CarriesAll.left (hos : CarriesAll os xs) (os' : List Outline) :
    CarriesAll (os ++ os') xs := by
  have h := hos.append (carriesAll_nil os')
  rwa [append_nil] at h

theorem CarriesAll.node (hos : CarriesAll os xs) : Carries (node span wraps os) xs := by
  intro _ h
  obtain ⟨us, hus, hfills⟩ := h.exists_fills
  exact (hos us hfills).trans (hus.sublist.map _)

theorem carriesAll_map {f : α → Outline} {g : α → List Ident} (h : ∀ a, Carries (f a) (g a))
    (l : List α) : CarriesAll (l.map f) (l.flatMap g) := by
  induction l with
  | nil => exact carriesAll_nil _
  | cons a _ ih => exact (h a).cons ih

/-- Commas between the outlines carry nothing. -/
theorem carriesAll_separated {f : α → Outline} {g : α → List Ident} (h : ∀ a, Carries (f a) (g a))
    (l : List α) : CarriesAll (separated (l.map f)) (l.flatMap g) := by
  induction l with
  | nil => exact carriesAll_nil _
  | cons a l ih =>
    cases l with
    | nil => exact (h a).cons (carriesAll_nil _)
    | cons => exact (h a).cons (ih.cons _)

end Outline

open Outline

theorem Ident.carries (x : Ident) : x.outline.Carries [x] := by
  intro _ h
  obtain ⟨_, rfl, -⟩ := exists_of_on_token h.fills.on_of_singleton
  rw [map_singleton, map_singleton, h.span_eq]
  exact List.Sublist.refl _

mutual

theorem Stmt.carries : ∀ s : Stmt, s.outline.Carries (s.declaredName?.toList ++ s.innerNames)
  | .block _ body => (((Stmt.carriesAll body).cons (token (.symbol .openBrace))).left _).node
  | .declare _ type name _ =>
    ((name.carries.cons (carriesAll_nil _)).cons (outlineOfType type)).node
  | .ifThen _ _ thenBranch =>
    (((((Stmt.carries_inner thenBranch).single.cons _).cons _).cons _).cons _).node
  | .ifThenElse _ _ thenBranch elseBranch => by
    have hbranches := (Stmt.carries_inner thenBranch).cons
      ((Stmt.carries_inner elseBranch).single.cons (token (.keyword .elseKw)))
    exact ((((hbranches.cons _).cons _).cons _).cons _).node
  | .loop _ _ body => (((((Stmt.carries_inner body).single.cons _).cons _).cons _).cons _).node
  | .assign .. | .assignIndex .. | .call .. | .ret _ none | .ret _ (some _) => carries_nil _

theorem Stmt.carries_inner (s : Stmt) : s.outline.Carries s.innerNames := fun ts h =>
  ((sublist_append_right _ _).map _).trans (s.carries ts h)

theorem Stmt.carriesAll : ∀ ss : List Stmt, CarriesAll (Stmt.outlines ss) (Stmt.sourceNames ss)
  | [] => carriesAll_nil _
  | s :: ss => s.carries.cons (Stmt.carriesAll ss)

end

theorem Param.carries (q : Param) : q.outline.Carries [q.name] :=
  (q.name.carries.single.cons (outlineOfType q.type)).node

theorem Grammar.Member.carries (a : Member) : a.outline.Carries (a.name :: a.innerNames) := by
  cases a with
  | field f => exact ((f.name.carries.cons (carriesAll_nil _)).cons _ |>.cons _).node
  | method m =>
    have hparams := carriesAll_separated Param.carries m.params
    rw [← map_eq_flatMap] at hparams
    have hname : CarriesAll [modifiersOutline m.isPrivate m.isStatic, outlineOfType m.returns,
        m.name.outline, token (.symbol .openParen)] [m.name] :=
      ((m.name.carries.cons (carriesAll_nil _)).cons _).cons _
    exact ((((hname.append hparams).left _).append (Stmt.carriesAll m.body)).left _).node

theorem ClassDecl.carries (c : ClassDecl) : c.outline.Carries (c.name :: c.sourceNames) := by
  have hname : CarriesAll [token (.keyword .classKw), c.name.outline, token (.symbol .openBrace)]
      [c.name] :=
    (c.name.carries.cons (carriesAll_nil _)).cons _
  exact ((hname.append (carriesAll_map Grammar.Member.carries c.members)).left _).node

variable {source : String} {p : Program}

/-- The names of a parsed program begin one behind the other. -/
theorem starts_of_parse (h : parse source = .ok p) :
    (p.sourceNames.map (·.span.start)).Pairwise (· < ·) := by
  obtain ⟨ts, _, hlex, -, hfills⟩ := exists_fills_of_parse h
  obtain ⟨_, _, hsplit, -, hothers⟩ := (Scanner.ofSource source).exists_tokens
  obtain ⟨rfl, -⟩ := append_inj' (hlex.symm.trans hsplit) rfl
  have hordered := ordered_lex source
  rw [hlex] at hordered
  have hsublist := carriesAll_map ClassDecl.carries p.classes ts hfills
  exact (pairwise_map.mpr (hordered.left.pairwise_start hothers)).sublist hsublist

/-! ## Scopes in the order of the source -/

theorem sublist_flatMap_of_mem {β : Type} {f : α → List β} {l : List α} {a : α} (h : a ∈ l) :
    (f a).Sublist (l.flatMap f) :=
  sublist_flatten_of_mem (mem_map_of_mem h)

theorem map_sublist_flatMap {β : Type} (f : α → β) (g : α → List β) (l : List α) :
    (l.map f).Sublist (l.flatMap fun a => f a :: g a) := by
  induction l with
  | nil => exact .slnil
  | cons a _ ih => exact (ih.trans (sublist_append_right (g a) _)).cons_cons (f a)

mutual

theorem Stmt.sublist_of_mem_scopes {scope : List Ident} :
    ∀ s : Stmt, scope ∈ s.scopes → scope.Sublist s.innerNames
  | .block _ body, h => by
    obtain rfl | h := mem_cons.mp h
    · exact Stmt.declaredNames_sublist body
    · exact Stmt.sublist_of_mem_scopesOf body h
  | .ifThen _ _ thenBranch, h => thenBranch.sublist_of_mem_scopes h
  | .ifThenElse _ _ thenBranch elseBranch, h => by
    obtain h | h := mem_append.mp h
    · exact (thenBranch.sublist_of_mem_scopes h).trans (sublist_append_left _ _)
    · exact (elseBranch.sublist_of_mem_scopes h).trans (sublist_append_right _ _)
  | .loop _ _ body, h => body.sublist_of_mem_scopes h
  | .declare .., h | .assign .., h | .assignIndex .., h | .call .., h | .ret .., h =>
    absurd h not_mem_nil

theorem Stmt.sublist_of_mem_scopesOf {scope : List Ident} :
    ∀ ss : List Stmt, scope ∈ Stmt.scopesOf ss → scope.Sublist (Stmt.sourceNames ss)
  | [], h => absurd h not_mem_nil
  | s :: ss, h => by
    obtain h | h := mem_append.mp h
    · exact ((s.sublist_of_mem_scopes h).trans (sublist_append_right _ _)).trans
        (sublist_append_left _ _)
    · exact (Stmt.sublist_of_mem_scopesOf ss h).trans (sublist_append_right _ _)

theorem Stmt.declaredNames_sublist :
    ∀ ss : List Stmt, (Stmt.declaredNames ss).Sublist (Stmt.sourceNames ss)
  | [] => .slnil
  | s :: ss => by
    rw [Stmt.declaredNames_cons, Stmt.sourceNames]
    exact (sublist_append_left _ _).append (Stmt.declaredNames_sublist ss)

end

theorem Grammar.Member.sublist_of_mem_scopes {a : Member} (h : scope ∈ a.scopes) :
    scope.Sublist a.innerNames := by
  cases a with
  | field => cases h
  | method m =>
    obtain rfl | h := mem_cons.mp h
    · exact (Stmt.declaredNames_sublist m.body).append_left _
    · exact (Stmt.sublist_of_mem_scopesOf m.body h).trans (sublist_append_right _ _)

theorem Program.sublist_of_mem_scopes (h : scope ∈ p.scopes) : scope.Sublist p.sourceNames := by
  have hclass : ∀ c ∈ p.classes, c.sourceNames.Sublist p.sourceNames := fun c hc =>
    (sublist_cons_self c.name c.sourceNames).trans
      (sublist_flatMap_of_mem (f := fun c => c.name :: c.sourceNames) hc)
  obtain rfl | h := mem_cons.mp h
  · exact map_sublist_flatMap _ _ _
  obtain h | h := mem_append.mp h
  · obtain ⟨c, hc, rfl⟩ := mem_map.mp h
    exact (map_sublist_flatMap _ _ _).trans (hclass c hc)
  · obtain ⟨c, hc, h⟩ := mem_flatMap.mp h
    obtain ⟨a, ha, h⟩ := mem_flatMap.mp h
    have hmember : (a.name :: a.innerNames).Sublist c.sourceNames :=
      sublist_flatMap_of_mem (f := fun a => a.name :: a.innerNames) ha
    exact ((Member.sublist_of_mem_scopes h).trans (sublist_cons_self _ _)).trans
      (hmember.trans (hclass c hc))

/-- The names of a scope begin one behind the other. -/
theorem pairwise_of_mem_scopes (h : parse source = .ok p) (hscope : scope ∈ p.scopes) :
    scope.Pairwise fun a b => a.span.start < b.span.start :=
  pairwise_map.mp ((starts_of_parse h).sublist ((Program.sublist_of_mem_scopes hscope).map _))

theorem sublist_merge (le : α → α → Bool) (l r : List α) :
    l.Sublist (l.merge r le) ∧ r.Sublist (l.merge r le) := by
  induction l generalizing r with
  | nil => exact ⟨nil_sublist _, by rw [nil_merge]⟩
  | cons a _ ihl =>
    induction r with
    | nil => exact ⟨by rw [merge_right], nil_sublist _⟩
    | cons b r ihr =>
      rw [cons_merge_cons]
      split
      · exact ⟨(ihl (b :: r)).1.cons_cons a, (ihl (b :: r)).2.cons a⟩
      · exact ⟨ihr.1.cons b, ihr.2.cons_cons b⟩

/-- Fields stand among the members in their own order, and so do methods. -/
theorem ClassDecl.sublist_memberScope (c : ClassDecl) :
    (c.fields.map (·.name)).Sublist c.memberScope ∧
    (c.methods.map (·.name)).Sublist c.memberScope := by
  obtain ⟨hfields, hmethods⟩ := sublist_merge
    (fun a b : Member => decide (a.span.start ≤ b.span.start))
    (c.fields.map Member.field) (c.methods.map Member.method)
  have hfields := hfields.map Member.name
  have hmethods := hmethods.map Member.name
  rw [map_map] at hfields hmethods
  exact ⟨hfields, hmethods⟩

open List in
theorem ClassDecl.memberScope_perm (c : ClassDecl) :
    c.memberScope ~ c.fields.map (·.name) ++ c.methods.map (·.name) := by
  have hmembers : c.members ~ c.fields.map Member.field ++ c.methods.map Member.method :=
    merge_perm_append _
  have hnames := hmembers.map Member.name
  rwa [map_append, map_map, map_map] at hnames

/-- No name of one scope begins where a name of the other does. -/
def ScopesApart (s t : List Ident) : Prop := ∀ a ∈ s, ∀ b ∈ t, a.span.start ≠ b.span.start

instance : Std.Symm ScopesApart := ⟨fun _ _ h a ha b hb heq => h b hb a ha heq.symm⟩

/-- Two scopes of a parsed program have no name in common. -/
theorem scopesApart_of_parse (h : parse source = .ok p) : p.scopes.Pairwise ScopesApart := by
  have hnodup : (p.sourceNames.map (·.span.start)).Nodup := (starts_of_parse h).imp Nat.ne_of_lt
  rw [(p.sourceNames_perm.map _).nodup_iff, map_flatten, nodup_flatten] at hnodup
  refine (pairwise_map.mp hnodup.2).imp ?_
  intro _ _ hdisjoint _ ha _ hb heq
  exact hdisjoint (mem_map_of_mem ha) (heq ▸ mem_map_of_mem hb)

section

variable (h : parse source = .ok p) {c : ClassDecl} (hc : c ∈ p.classes)
include h hc

theorem classNames_apart : ScopesApart (p.classes.map (·.name)) c.memberScope := by
  refine (pairwise_cons.mp (scopesApart_of_parse h)).1 c.memberScope ?_
  exact mem_append_left _ (mem_map_of_mem hc)

theorem memberScope_apart (hscope : scope ∈ p.localScopes) : ScopesApart c.memberScope scope := by
  have htail := (pairwise_cons.mp (scopesApart_of_parse h)).2
  exact (pairwise_append.mp htail).2.2 c.memberScope (mem_map_of_mem hc) scope hscope

/-- A member is a member of one class. -/
theorem eq_of_start_eq {c' : ClassDecl} (hc' : c' ∈ p.classes) {a b : Ident}
    (ha : a ∈ c.memberScope)
    (hb : b ∈ c'.memberScope) (hstart : a.span.start = b.span.start) : c = c' := by
  have htail := (pairwise_cons.mp (scopesApart_of_parse h)).2
  have hclasses := pairwise_map.mp (pairwise_append.mp htail).1
  by_contra hother
  have hsymm : Std.Symm fun c c' : ClassDecl => ScopesApart c.memberScope c'.memberScope :=
    ⟨fun _ _ hapart => Std.Symm.symm _ _ hapart⟩
  exact hclasses.forall hc hc' hother a ha b hb hstart

end

end MiniJava
