import MiniJava.Proofs.Resolution.ScopeMap
import MiniJava.Source.Span

/-!
# Two runs side by side

What a phase of the compiler does to one program is compared here with what it does to another. The
two programs may differ in the ranges of their nodes and in the names of their variables; `Likeness`
says how much of that is allowed.

The variables in scope are paired by a stack `ρ` that gives the variables of the one program the
names they have in the other. Two names mean the same (`SameVar`) if the same pair is the first to
have either of them. While the scopes of the two runs bind paired names to equal values
(`Parallel`):

> `Parallel.lookup_cases`: names that mean the same are found with the same value, or both are not
> found.

> `Parallel.define?`: a pair of names is bound in both scopes or in neither, and the scopes stay
> parallel.
-/

namespace MiniJava

/-! ## Results -/

section

variable {ε ε' α β γ δ : Type} {E : ε → ε' → Prop} {A : α → β → Prop} {B : γ → δ → Prop}

/-- Two steps that give related results, or end in related faults. -/
inductive ResultLike (E : ε → ε' → Prop) (A : α → β → Prop) : Except ε α → Except ε' β → Prop
  | ok {a : α} {b : β} (h : A a b) : ResultLike E A (.ok a) (.ok b)
  | error {e : ε} {e' : ε'} (h : E e e') : ResultLike E A (.error e) (.error e')

namespace ResultLike

variable {y : Except ε' β} {x : Except ε α}

theorem bind {f : α → Except ε γ} {g : β → Except ε' δ} (h : ResultLike E A x y)
    (hfg : ∀ a b, A a b → ResultLike E B (f a) (g b)) :
    ResultLike E B (x >>= f) (y >>= g) := by
  cases h with
  | ok h => exact hfg _ _ h
  | error h => exact .error h

/-- A check in front of a step. -/
theorem check {x : Except ε Unit} {y : Except ε' Unit} {f : Unit → Except ε γ}
    {g : Unit → Except ε' δ} (h : ResultLike E Eq x y) (hfg : ResultLike E B (f ()) (g ())) :
    ResultLike E B (x >>= f) (y >>= g) :=
  h.bind fun _ _ _ => hfg

theorem map {f : α → γ} {g : β → δ} (h : ResultLike E A x y) (hfg : ∀ a b, A a b → B (f a) (g b)) :
    ResultLike E B (f <$> x) (g <$> y) := by
  cases h with
  | ok h => exact .ok (hfg _ _ h)
  | error h => exact .error h

theorem mono {E' : ε → ε' → Prop} {A' : α → β → Prop} (h : ResultLike E A x y)
    (hE : ∀ e e', E e e' → E' e e') (hA : ∀ a b, A a b → A' a b) :
    ResultLike E' A' x y := by
  cases h with
  | ok h => exact .ok (hA _ _ h)
  | error h => exact .error (hE _ _ h)

theorem mapError {ζ ζ' : Type} {F : ζ → ζ' → Prop} {f : ε → ζ} {g : ε' → ζ'}
    (h : ResultLike E A x y) (hfg : ∀ e e', E e e' → F (f e) (g e')) :
    ResultLike F A (x.mapError f) (y.mapError g) := by
  cases h with
  | ok h => exact .ok h
  | error h => exact .error (hfg _ _ h)

/-- The results come from the steps. -/
theorem attach (h : ResultLike E A x y) :
    ResultLike E (fun a b => x = .ok a ∧ y = .ok b ∧ A a b) x y := by
  cases h with
  | ok h => exact .ok ⟨rfl, rfl, h⟩
  | error h => exact .error h

theorem exists_ok (h : ResultLike E A x y) {a : α} (hx : x = .ok a) : ∃ b, y = .ok b ∧ A a b := by
  subst hx
  cases h with
  | ok h => exact ⟨_, rfl, h⟩

/-- Checks of the items of two lists in turn. -/
theorem forM {as : List α} {bs : List β} {f : α → Except ε Unit} {g : β → Except ε' Unit}
    (h : List.Forall₂ A as bs) (hfg : ∀ a b, A a b → ResultLike E Eq (f a) (g b)) :
    ResultLike E Eq (as.forM f) (bs.forM g) := by
  induction h with
  | nil => exact .ok rfl
  | cons hab _ ih => exact (hfg _ _ hab).check ih

/-- Steps through two lists that hand on related states. -/
theorem foldlM {as : List α} {bs : List β} {f : γ → α → Except ε γ} {g : δ → β → Except ε' δ}
    (h : List.Forall₂ A as bs)
    (hfg : ∀ c d a b, B c d → A a b → ResultLike E B (f c a) (g d b)) {c : γ} {d : δ}
    (hcd : B c d) : ResultLike E B (as.foldlM f c) (bs.foldlM g d) := by
  induction h generalizing c d with
  | nil => exact .ok hcd
  | cons hab _ ih =>
    rw [List.foldlM_cons, List.foldlM_cons]
    exact (hfg _ _ _ _ hcd hab).bind fun _ _ h => ih h

end ResultLike

end

/-! ## Places and names -/

/-- How far two programs may differ: which ranges may stand in each other's place, and whether the
variables have kept their names. -/
structure Likeness where
  span : Span → Span → Prop
  kept : Prop

namespace Likeness

variable {α : Type}

/-- The same thing at corresponding places. -/
structure Same (L : Likeness) (a b : Located α) : Prop where
  value : a.value = b.value
  span : L.span a.span b.span

/-- Two things at corresponding places that may differ in the names of variables. -/
structure Like (L : Likeness) (a b : Located α) : Prop where
  value : L.kept → a.value = b.value
  span : L.span a.span b.span

end Likeness

/-- Two names mean the same where these pairs of variables are in scope, the latest ones first. -/
def SameVar : List (String × String) → String → String → Prop
  | [], name, name' => name = name'
  | (n, n') :: pairs, name, name' =>
    (name = n ∧ name' = n') ∨ (name ≠ n ∧ name' ≠ n' ∧ SameVar pairs name name')

/-- Where all variables keep their names, so does everything else. -/
theorem sameVar_refl {pairs : List (String × String)} (h : ∀ b ∈ pairs, b.1 = b.2) (name : String) :
    SameVar pairs name name := by
  induction pairs with
  | nil => rfl
  | cons b _ ih =>
    obtain ⟨hb, hpairs⟩ := List.forall_mem_cons.mp h
    by_cases hname : name = b.1
    · exact .inl ⟨hname, hname.trans hb⟩
    · exact .inr ⟨hname, hb ▸ hname, ih hpairs⟩

namespace ScopeStack

variable {α : Type} {ρ : ScopeStack String} {s s' : ScopeStack α} {name name' : String}

/-- The same values under the second names that are stored with them. -/
def rekey (t : ScopeStack (String × α)) : ScopeStack α := ⟨t.scopes.map (List.map Prod.snd)⟩

/-- Two stacks that bind, place by place, paired names to equal values. -/
def Parallel (ρ : ScopeStack String) (s s' : ScopeStack α) : Prop :=
  ∃ t : ScopeStack (String × α), t.map Prod.fst = ρ ∧ t.map Prod.snd = s ∧ t.rekey = s'

/-- The innermost scope has either both names or neither. -/
def Fits (ρ : ScopeStack String) (name name' : String) : Prop :=
  ∀ inner ∈ ρ.scopes.head?, name ∈ inner.map Prod.fst ↔ name' ∈ inner.map Prod.snd

theorem parallel_empty : Parallel empty (empty : ScopeStack α) empty := ⟨empty, rfl, rfl, rfl⟩

namespace Parallel

section

variable (h : Parallel ρ s s')
include h

theorem push : Parallel ρ.push s.push s'.push := by
  obtain ⟨t, rfl, rfl, rfl⟩ := h
  exact ⟨t.push, rfl, rfl, rfl⟩

theorem outer : Parallel ρ.outer s.outer s'.outer := by
  obtain ⟨t, rfl, rfl, rfl⟩ := h
  exact ⟨t.outer, map_outer _ _, map_outer _ _, by simp [rekey, ScopeStack.outer, List.map_tail]⟩

theorem innerSize_eq : s.innerSize = s'.innerSize := by
  obtain ⟨⟨_ | ⟨_, _⟩⟩, rfl, rfl, rfl⟩ := h
  · rfl
  · simp [innerSize, map, mapScope, rekey]

/-- The bindings of both stacks, read off one list. -/
theorem bindings :
    ∃ bs : List (String × String × α), ρ.bindings = bs.map (fun b => (b.1, b.2.1)) ∧
      s.bindings = bs.map (fun b => (b.1, b.2.2)) ∧ s'.bindings = bs.map Prod.snd := by
  obtain ⟨t, rfl, rfl, rfl⟩ := h
  refine ⟨t.bindings, ?_, ?_, ?_⟩
  · exact List.map_flatten.symm
  · exact List.map_flatten.symm
  · exact List.map_flatten.symm

/-- Names that mean the same are found with the same value, or both not found and equal. -/
theorem lookup_cases (hvar : SameVar ρ.bindings name name') :
    (∃ v, s.lookup name = some v ∧ s'.lookup name' = some v) ∨
      (s.lookup name = none ∧ s'.lookup name' = none ∧ name = name') := by
  obtain ⟨bs, hρ, hs, hs'⟩ := h.bindings
  rw [hρ] at hvar
  rw [← lookup_bindings, ← lookup_bindings, hs, hs']
  clear hρ hs hs'
  induction bs with
  | nil => exact .inr ⟨rfl, rfl, hvar⟩
  | cons b _ ih =>
    obtain ⟨_, _, v⟩ := b
    rcases hvar with ⟨rfl, rfl⟩ | ⟨hname, hname', hrest⟩
    · exact .inl ⟨v, List.lookup_cons_self, List.lookup_cons_self⟩
    · simp only [List.map_cons, List.lookup_cons, beq_false_of_ne hname, beq_false_of_ne hname']
      exact ih hrest

/-- A pair of names is bound in both stacks or in neither. -/
theorem define? (hfits : ρ.Fits name name') (v : α) :
    (s.define? name v = none ∧ s'.define? name' v = none ∧ ρ.define? name name' = none) ∨
      ∃ ρ' u u', ρ.define? name name' = some ρ' ∧ s.define? name v = some u ∧
        s'.define? name' v = some u' ∧ Parallel ρ' u u' := by
  obtain ⟨⟨_ | ⟨inner, outer⟩⟩, rfl, rfl, rfl⟩ := h
  · exact .inl ⟨rfl, rfl, rfl⟩
  · have hmem : (inner.lookup name).isSome = true ↔
      ((inner.map Prod.snd).lookup name').isSome = true := by
      rw [isSome_lookup_iff, isSome_lookup_iff]
      simpa [mapScope, Function.comp_def] using hfits (mapScope Prod.fst inner) rfl
    simp only [ScopeStack.define?, map, rekey, List.map_cons, lookup_mapScope,
      Option.isSome_map, ← hmem]
    by_cases hname : (inner.lookup name).isSome = true
    · exact .inl ⟨if_pos hname, if_pos hname, if_pos hname⟩
    · refine .inr ⟨_, _, _, if_neg hname, if_neg hname, if_neg hname, ?_⟩
      exact ⟨⟨((name, name', v) :: inner) :: outer⟩, rfl, rfl, rfl⟩

theorem defineNew (hfits : ρ.Fits name name') (v : α) :
    Parallel (ρ.defineNew name name') (s.defineNew name v) (s'.defineNew name' v) := by
  unfold ScopeStack.defineNew
  rcases h.define? hfits v with ⟨hs, hs', hρ⟩ | ⟨_, _, _, hρ, hs, hs', hu⟩
  · rw [hs, hs', hρ]
    exact h
  · rw [hs, hs', hρ]
    exact hu

end

end Parallel

end ScopeStack

end MiniJava
