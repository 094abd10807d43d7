/-!
# Nested scopes

A stack of scopes, the innermost first. A name may be defined once in a scope and
again in a scope inside it, where it hides the outer definition. The stack is seen
through `lookup`: `lookup_define?` and `lookup_set` say what the two ways to change
it do to every name.
-/

namespace MiniJava

/-- A stack of scopes that bind names to values, the innermost first. -/
structure ScopeStack (α : Type) where
  scopes : List (List (String × α))
  deriving Repr

namespace ScopeStack

variable {α : Type}

/-- No scope at all. -/
def empty : ScopeStack α := ⟨[]⟩

/-- Opens a scope inside the others. -/
def push (s : ScopeStack α) : ScopeStack α := ⟨[] :: s.scopes⟩

/-- Closes the innermost scope and hands over its bindings. -/
def pop? (s : ScopeStack α) : Option (List (String × α) × ScopeStack α) :=
  match s.scopes with
  | [] => none
  | inner :: outer => some (inner, ⟨outer⟩)

/-- The scopes around the innermost one. -/
def outer (s : ScopeStack α) : ScopeStack α := ⟨s.scopes.tail⟩

/-- How many names the innermost scope binds. -/
def innerSize (s : ScopeStack α) : Nat :=
  match s.scopes with
  | [] => 0
  | inner :: _ => inner.length

/-- Binds a name in the innermost scope. There must be a scope, and it must not
bind the name yet. -/
def define? (s : ScopeStack α) (name : String) (value : α) : Option (ScopeStack α) :=
  match s.scopes with
  | [] => none
  | inner :: outer =>
    if (inner.lookup name).isSome then none
    else some ⟨((name, value) :: inner) :: outer⟩

/-- Binds a name in the innermost scope unless that fails. -/
def defineNew (s : ScopeStack α) (name : String) (value : α) : ScopeStack α :=
  (s.define? name value).getD s

/-- The value of a name in the innermost scope that binds it. -/
def lookup (s : ScopeStack α) (name : String) : Option α :=
  s.scopes.findSome? (·.lookup name)

/-- Replaces the value of a name in one scope. -/
def setIn (name : String) (value : α) : List (String × α) → List (String × α)
  | [] => []
  | (n, v) :: rest =>
    if n = name then (n, value) :: rest else (n, v) :: setIn name value rest

/-- Replaces the value of a name in the first of the scopes that binds it. -/
def setFirst (name : String) (value : α) : List (List (String × α)) → List (List (String × α))
  | [] => []
  | inner :: outer =>
    if (inner.lookup name).isSome then setIn name value inner :: outer
    else inner :: setFirst name value outer

/-- Replaces the value of a name in the innermost scope that binds it. -/
def set (s : ScopeStack α) (name : String) (value : α) : ScopeStack α :=
  ⟨setFirst name value s.scopes⟩

@[simp]
theorem lookup_push (s : ScopeStack α) (name : String) : s.push.lookup name = s.lookup name := rfl

@[simp]
theorem outer_push (s : ScopeStack α) : s.push.outer = s := rfl

@[simp]
theorem pop?_push (s : ScopeStack α) : s.push.pop? = some ([], s) := rfl

theorem pop?_empty : (empty : ScopeStack α).pop? = none := rfl

/-- A new binding hides the outer ones of its name and no others. -/
theorem lookup_define? {s t : ScopeStack α} {name : String} {value : α}
    (h : s.define? name value = some t) (other : String) :
    t.lookup other = if other = name then some value else s.lookup other := by
  unfold define? at h
  split at h
  next => simp at h
  next inner outer hs =>
    split at h
    next => simp at h
    next =>
      cases h
      by_cases ho : other = name
      · simp [lookup, ho]
      · simp [lookup, List.findSome?_cons, List.lookup_cons, beq_false_of_ne ho, ho, hs]

/-- What lies outside of the innermost scope is not touched by a definition. -/
theorem outer_define? {s t : ScopeStack α} {name : String} {value : α}
    (h : s.define? name value = some t) : t.outer = s.outer := by
  unfold define? at h
  split at h
  next => simp at h
  next inner outer hs =>
    split at h
    next => simp at h
    next => cases h; simp [ScopeStack.outer, hs]

theorem lookup_setIn (name : String) (value : α) (scope : List (String × α)) (other : String) :
    (setIn name value scope).lookup other =
      if other = name then (scope.lookup name).map fun _ => value else scope.lookup other := by
  induction scope with
  | nil => by_cases ho : other = name <;> simp [setIn, ho]
  | cons binding rest ih =>
    obtain ⟨n, v⟩ := binding
    by_cases hn : n = name
    · subst hn
      by_cases ho : other = n
      · simp [setIn, ho]
      · simp [setIn, List.lookup_cons, ho, beq_false_of_ne ho]
    · by_cases ho : other = name
      · subst ho
        simp [setIn, List.lookup_cons, hn, beq_false_of_ne (Ne.symm hn), ih]
      · simp [setIn, List.lookup_cons, hn, ho, ih]

theorem findSome?_setFirst (name : String) (value : α) (scopes : List (List (String × α)))
    (other : String) :
    (setFirst name value scopes).findSome? (·.lookup other) =
      if other = name then (scopes.findSome? (·.lookup name)).map fun _ => value
      else scopes.findSome? (·.lookup other) := by
  induction scopes with
  | nil => by_cases ho : other = name <;> simp [setFirst, ho]
  | cons inner outer ih =>
    cases hi : inner.lookup name with
    | some old =>
      by_cases ho : other = name <;> simp [setFirst, hi, List.findSome?_cons, lookup_setIn, ho]
    | none =>
      by_cases ho : other = name
      · subst ho
        simpa [setFirst, hi, List.findSome?_cons] using ih
      · simp only [ho, if_false] at ih
        simp [setFirst, hi, List.findSome?_cons, ih, ho]

/-- Replacing a value shows in the binding that is in force, and nowhere else. -/
theorem lookup_set (s : ScopeStack α) (name : String) (value : α) (other : String) :
    (s.set name value).lookup other =
      if other = name then (s.lookup name).map fun _ => value else s.lookup other :=
  findSome?_setFirst name value s.scopes other

end ScopeStack

end MiniJava
