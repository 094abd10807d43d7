import Mathlib.Data.List.Nodup
import MiniJava.ScopeStack

/-!
# Scopes with translated values

The phases of the compiler keep their own scopes of one and the same variables:
one remembers whether a variable is ready, one its type, one its place. Two such
stacks belong together if one is the other with its values translated (`map`), so
"the phases see the same variables" is an equation, and every operation on scopes
keeps it because translating goes through the operation.

`define?_set` is about the one place where the phases take different ways: a variable
that is bound at once and changed later is the same as one that is bound later. The
last sections are about what holds of all values, hidden ones included, and about the
names alone.
-/

namespace MiniJava.ScopeStack

open List

variable {α β : Type}

/-- Translates the values of one scope. -/
def mapScope (f : α → β) (scope : List (String × α)) : List (String × β) :=
  scope.map fun (name, value) => (name, f value)

/-- Translates all values. -/
def map (f : α → β) (s : ScopeStack α) : ScopeStack β := ⟨s.scopes.map (mapScope f)⟩

theorem lookup_mapScope (f : α → β) (scope : List (String × α)) (name : String) :
    (mapScope f scope).lookup name = (scope.lookup name).map f := by
  induction scope with
  | nil => rfl
  | cons binding _ ih =>
    obtain ⟨_, _⟩ := binding
    simp only [mapScope, map_cons, lookup_cons] at ih ⊢
    split
    · rfl
    · exact ih

@[simp]
theorem lookup_map (f : α → β) (s : ScopeStack α) (name : String) :
    (s.map f).lookup name = (s.lookup name).map f := by
  simp only [lookup, map]
  induction s.scopes with
  | nil => rfl
  | cons inner _ ih =>
    simp only [map_cons, findSome?_cons, lookup_mapScope]
    cases inner.lookup name with
    | none => exact ih
    | some => rfl

variable {name : String} {value old : α} {scope : List (String × α)} {f : α → β}

/-- Translating back gives the same scopes. -/
theorem map_map_of_leftInverse {g : β → α} (h : Function.LeftInverse g f) (s : ScopeStack α) :
    (s.map f).map g = s := by
  obtain ⟨_⟩ := s
  simp [map, mapScope, Function.comp_def, h.eq]

@[simp]
theorem map_push (f : α → β) (s : ScopeStack α) : s.push.map f = (s.map f).push := rfl

@[simp]
theorem map_empty (f : α → β) : (empty : ScopeStack α).map f = empty := rfl

@[simp]
theorem map_outer (f : α → β) (s : ScopeStack α) : s.outer.map f = (s.map f).outer := by
  simp [map, outer, map_tail]

theorem define?_map (f : α → β) (s : ScopeStack α) (name : String) (value : α) :
    (s.map f).define? name (f value) = (s.define? name value).map (map f) := by
  obtain ⟨_ | ⟨_, _⟩⟩ := s
  · rfl
  · simp only [define?, map, map_cons, lookup_mapScope, Option.isSome_map]
    split <;> rfl

/-- A binding that succeeds does so for every translation of the scopes. -/
theorem defineNew_map {s t : ScopeStack α} (h : s.define? name value = some t) :
    (s.map f).defineNew name (f value) = t.map f := by
  rw [defineNew, define?_map, h]
  rfl

/-- Binding a name and then replacing its value is binding the name to that value. -/
theorem define?_set {s t : ScopeStack α} (h : s.define? name value = some t) (other : α) :
    s.define? name other = some (t.set name other) := by
  obtain ⟨_ | ⟨_, _⟩⟩ := s
  · simp [define?] at h
  · simp only [define?] at h ⊢
    split at h
    next => simp at h
    next hnew =>
      cases h
      rw [if_neg hnew]
      simp [set, setFirst, setIn]

/-- Whether a name can be bound does not depend on the value. -/
theorem define?_isSome_congr {s : ScopeStack α} {t : ScopeStack α}
    (h : s.define? name value = some t) (other : α) : ∃ u, s.define? name other = some u :=
  ⟨_, define?_set h other⟩

/-! ## Replacing a value -/

theorem mapScope_setIn (f : α → β) (name : String) (value : α) (scope : List (String × α)) :
    mapScope f (setIn name value scope) = setIn name (f value) (mapScope f scope) := by
  induction scope with
  | nil => rfl
  | cons binding _ ih =>
    obtain ⟨_, _⟩ := binding
    simp only [mapScope, map_cons, setIn] at ih ⊢
    split
    next => rfl
    next => rw [map_cons, ih]

theorem map_set (f : α → β) (s : ScopeStack α) (name : String) (value : α) :
    (s.set name value).map f = (s.map f).set name (f value) := by
  obtain ⟨scopes⟩ := s
  simp only [map, set, mk.injEq]
  induction scopes with
  | nil => rfl
  | cons _ _ ih =>
    simp only [map_cons, setFirst, lookup_mapScope, Option.isSome_map]
    split
    next => rw [map_cons, mapScope_setIn]
    next => rw [map_cons, ih]

theorem exists_split_setIn (h : scope.lookup name = some old) :
    ∃ l₁ l₂, scope = l₁ ++ (name, old) :: l₂ ∧
      ∀ value, setIn name value scope = l₁ ++ (name, value) :: l₂ := by
  induction scope with
  | nil => cases h
  | cons binding rest ih =>
    obtain ⟨n, v⟩ := binding
    by_cases hn : n = name
    · subst hn
      rw [lookup_cons_self] at h
      cases h
      exact ⟨[], rest, rfl, fun value => by rw [setIn, if_pos rfl]; rfl⟩
    · rw [lookup_cons, beq_false_of_ne (Ne.symm hn)] at h
      obtain ⟨l₁, l₂, rfl, hset⟩ := ih h
      exact ⟨(n, v) :: l₁, l₂, rfl, fun value => by rw [setIn, if_neg hn, hset]; rfl⟩

/-- A value that is found stands in one place, and that is where it is replaced. -/
theorem exists_split {s : ScopeStack α} (h : s.lookup name = some old) :
    ∃ L₁ l₁ l₂ L₂, s = ⟨L₁ ++ (l₁ ++ (name, old) :: l₂) :: L₂⟩ ∧
      ∀ value, s.set name value = ⟨L₁ ++ (l₁ ++ (name, value) :: l₂) :: L₂⟩ := by
  obtain ⟨scopes⟩ := s
  simp only [lookup] at h
  simp only [set, mk.injEq]
  induction scopes with
  | nil => cases h
  | cons inner outer ih =>
    rw [findSome?_cons] at h
    cases hi : inner.lookup name with
    | some _ =>
      rw [hi] at h
      cases h
      obtain ⟨l₁, l₂, rfl, hset⟩ := exists_split_setIn hi
      exact ⟨[], l₁, l₂, outer, rfl, fun value => by rw [setFirst, hi, if_pos (by rfl), hset]; rfl⟩
    | none =>
      rw [hi] at h
      obtain ⟨L₁, l₁, l₂, L₂, rfl, hset⟩ := ih h
      exact ⟨inner :: L₁, l₁, l₂, L₂, rfl, fun value =>
        by rw [setFirst, hi, if_neg (by simp), hset]; rfl⟩

/-- Replacing a value by one with the same translation does not show in the translation. -/
theorem map_set_of_eq {s : ScopeStack α} (h : s.lookup name = some old) (hf : f value = f old) :
    (s.set name value).map f = s.map f := by
  obtain ⟨_, _, _, _, rfl, hset⟩ := exists_split h
  rw [hset]
  simp [map, mapScope, hf]

/-! ## All values -/

/-- The bindings of all scopes, the innermost ones first. -/
def bindings (s : ScopeStack α) : List (String × α) := s.scopes.flatten

/-- A name is looked for in one scope after the other. -/
@[simp]
theorem lookup_bindings (s : ScopeStack α) (name : String) :
    s.bindings.lookup name = s.lookup name := by
  simp only [bindings, lookup]
  induction s.scopes with
  | nil => rfl
  | cons inner _ ih =>
    rw [flatten_cons, lookup_append, findSome?_cons, ih]
    cases inner.lookup name <;> rfl

theorem bindings_define {s t : ScopeStack α} (h : s.define? name value = some t) :
    t.bindings = (name, value) :: s.bindings := by
  obtain ⟨_ | ⟨_, _⟩⟩ := s
  · cases h
  · simp only [define?] at h
    split at h
    next => cases h
    next => cases h; rfl

/-- All values of all scopes have a property. -/
def All (p : α → Prop) (s : ScopeStack α) : Prop := ∀ scope ∈ s.scopes, ∀ b ∈ scope, p b.2

variable {p q : α → Prop} {s t : ScopeStack α}

theorem All.mono (h : s.All p) (hpq : ∀ a, p a → q a) : s.All q :=
  fun scope hscope b hb => hpq b.2 (h scope hscope b hb)

theorem all_empty : (empty : ScopeStack α).All p := nofun

theorem All.push (h : s.All p) : s.push.All p := by
  intro scope hscope b hb
  rcases mem_cons.mp hscope with rfl | hscope
  · cases hb
  · exact h scope hscope b hb

theorem All.outer (h : s.All p) : s.outer.All p :=
  fun scope hscope => h scope (mem_of_mem_tail hscope)

/-- All values of all scopes, the innermost ones first. -/
def values (s : ScopeStack α) : List α := s.scopes.flatMap fun scope => scope.map (·.2)

theorem all_iff : s.All p ↔ ∀ a ∈ s.values, p a := by
  simp only [All, values, mem_flatMap, mem_map]
  constructor
  · rintro h _ ⟨scope, hscope, b, hb, rfl⟩
    exact h scope hscope b hb
  · exact fun h scope hscope b hb => h b.2 ⟨scope, hscope, b, hb, rfl⟩

theorem values_map (f : α → β) (s : ScopeStack α) : (s.map f).values = s.values.map f := by
  simp [values, map, mapScope, flatMap_map, map_flatMap, Function.comp_def]

theorem values_define (h : s.define? name value = some t) : t.values = value :: s.values := by
  obtain ⟨_ | ⟨_, _⟩⟩ := s
  · cases h
  · simp only [define?] at h
    split at h
    next => cases h
    next => cases h; rfl

theorem All.define (h : s.All p) {name : String} {value : α} (hv : p value)
    (hd : s.define? name value = some t) : t.All p := by
  rw [all_iff] at h ⊢
  rw [values_define hd]
  exact forall_mem_cons.mpr ⟨hv, h⟩

theorem values_outer_sublist (s : ScopeStack α) : s.outer.values.Sublist s.values := by
  obtain ⟨_ | ⟨_, _⟩⟩ := s
  · exact List.Sublist.refl _
  · exact sublist_append_right _ _

theorem exists_values_split (h : s.lookup name = some old) :
    ∃ front back, s.values = front ++ old :: back ∧
      ∀ value, (s.set name value).values = front ++ value :: back := by
  obtain ⟨L₁, l₁, l₂, L₂, rfl, hset⟩ := exists_split h
  refine ⟨L₁.flatMap (·.map (·.2)) ++ l₁.map (·.2),
    l₂.map (·.2) ++ L₂.flatMap (·.map (·.2)), ?_, ?_⟩
  · simp [values]
  · intro _
    rw [hset]
    simp [values]

theorem All.set (h : s.All p) (hlookup : s.lookup name = some old) (hv : p value) :
    (s.set name value).All p := by
  obtain ⟨_, _, hvalues, hset⟩ := exists_values_split hlookup
  rw [all_iff] at h ⊢
  rw [hvalues, forall_mem_append, forall_mem_cons] at h
  rw [hset, forall_mem_append, forall_mem_cons]
  exact ⟨h.1, hv, h.2.2⟩

/-- If no two values share a key, then a replacement concerns no value with another key. -/
theorem All.set_of_nodup {κ : Type} {key : α → κ} (hnodup : (s.values.map key).Nodup) (h : s.All p)
    (hlookup : s.lookup name = some old) (hvalue : q value)
    (hothers : ∀ a, key a ≠ key old → p a → q a) : (s.set name value).All q := by
  obtain ⟨_, _, hvalues, hset⟩ := exists_values_split hlookup
  rw [all_iff] at h ⊢
  rw [hvalues, map_append, map_cons, nodup_middle, ← map_append, nodup_cons] at hnodup
  intro a ha
  rw [hset, mem_append, mem_cons, or_left_comm] at ha
  rcases ha with rfl | ha
  · exact hvalue
  · refine hothers a ?_ (h a ?_)
    · -- Keys are different, so the old value is not found among the others.
      intro hkey
      exact hnodup.1 (hkey ▸ mem_map_of_mem (mem_append.mpr ha))
    · rw [hvalues, mem_append, mem_cons]
      exact ha.imp_right .inr

theorem All.lookup (h : s.All p) {name : String} {value : α} (hv : s.lookup name = some value) :
    p value := by
  obtain ⟨_, hscope, hlookup⟩ := exists_of_findSome?_eq_some hv
  obtain ⟨_, _, rfl, -⟩ := lookup_eq_some_iff.mp hlookup
  exact h _ hscope (name, value) (by simp)

/-! ## The names in the scopes -/

/-- The names that are bound in each scope. -/
def names (s : ScopeStack α) : List (List String) := s.scopes.map (·.map (·.1))

theorem names_push (s : ScopeStack α) : s.push.names = [] :: s.names := rfl

theorem names_outer (s : ScopeStack α) : s.outer.names = s.names.tail := by
  exact map_tail

theorem map_setIn (name : String) (value : α) (scope : List (String × α)) :
    (setIn name value scope).map (·.1) = scope.map (·.1) := by
  induction scope with
  | nil => rfl
  | cons binding _ ih =>
    obtain ⟨_, _⟩ := binding
    unfold setIn
    split
    · rfl
    · rw [map_cons, map_cons, ih]

theorem names_set (s : ScopeStack α) (name : String) (value : α) :
    (s.set name value).names = s.names := by
  obtain ⟨scopes⟩ := s
  show (setFirst name value scopes).map _ = scopes.map _
  induction scopes with
  | nil => rfl
  | cons _ _ ih =>
    unfold setFirst
    split
    · rw [map_cons, map_cons, map_setIn]
    · rw [map_cons, map_cons, ih]

theorem isSome_lookup_iff {scope : List (String × α)} :
    (scope.lookup name).isSome = true ↔ name ∈ scope.map Prod.fst := by
  simp

/-- A name can be bound in the innermost scope unless it is bound there. -/
theorem define?_cases {inner : List String} {outer : List (List String)}
    (h : s.names = inner :: outer) (name : String) (value : α) :
    (s.define? name value = none ∧ name ∈ inner) ∨
      ∃ t, s.define? name value = some t ∧ name ∉ inner ∧ t.names = (name :: inner) :: outer := by
  obtain ⟨_ | ⟨_, _⟩⟩ := s
  · cases h
  · obtain ⟨rfl, rfl⟩ := cons.inj h
    unfold define?
    dsimp only
    split
    next hbound => exact .inl ⟨rfl, isSome_lookup_iff.mp hbound⟩
    next hnew => exact .inr ⟨_, rfl, hnew ∘ isSome_lookup_iff.mpr, rfl⟩

end MiniJava.ScopeStack
