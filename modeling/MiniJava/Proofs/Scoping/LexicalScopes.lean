import MiniJava.Proofs.Resolution.ScopeMap

/-!
# Scopes are a lexical environment

All phases of the compiler rest on `ScopeStack` (`lexical_environment`). What it answers is told
here by what has been done with it: a history lists the operations from the empty stack on, the
latest first, and a binding is known by the history in front of the definition that made it.

What one operation does to any scope is said once (`lookupAt_next`), and so is what it does to the
bindings (`bound_cons`). So a scope binds exactly the names whose definitions succeeded in it
(`exists_bound_iff`), the latest binding of a name is the innermost one (`Bound.inForce_iff`), and
the values are the current ones (`lookupAt_iff`).
-/

namespace MiniJava.ScopeStack

open List

variable {α : Type}

/-! ## Histories -/

/-- What can be done with scopes. -/
inductive Op (α : Type)
  | push
  | pop
  | define (name : String) (value : α)
  | lookup (name : String)
  /-- Changes the value that a lookup of the name gives. -/
  | update (name : String) (change : α → α)

/-- The scopes after one more operation. What fails changes nothing. -/
def next (s : ScopeStack α) : Op α → ScopeStack α
  | .push => s.push
  | .pop =>
    match s.pop? with
    | none => s
    | some (_, outer) => outer
  | .define name value => s.defineNew name value
  | .lookup _ => s
  | .update name change =>
    match s.lookup name with
    | none => s
    | some value => s.set name (change value)

/-- The scopes after a history, which has the latest operation first. -/
def after : List (Op α) → ScopeStack α
  | [] => empty
  | op :: earlier => (after earlier).next op

/-- How many scopes are open after a history. -/
def depth : List (Op α) → Nat
  | [] => 0
  | .push :: earlier => depth earlier + 1
  | .pop :: earlier => depth earlier - 1
  | _ :: earlier => depth earlier

/-- How many more scopes are open than before the operations, if all scopes from before are still
open. -/
def opened : List (Op α) → Option Nat
  | [] => some 0
  | .push :: earlier => (opened earlier).map (· + 1)
  | .pop :: earlier =>
    match opened earlier with
    | some (n + 1) => some n
    | _ => none
  | _ :: earlier => opened earlier

/-- The name was defined after `before`, with success, and its scope is still open with `level`
scopes inside it. -/
def Bound (h : List (Op α)) (name : String) (before : List (Op α)) (level : Nat) : Prop :=
  ∃ later value t, h = later ++ .define name value :: before ∧
    (after before).define? name value = some t ∧ opened later = some level

/-- Of the definitions of the name whose scopes are still open, the one after `before` is the
latest. -/
def InForce (h : List (Op α)) (name : String) (before : List (Op α)) : Prop :=
  (∃ level, Bound h name before level) ∧
    ∀ other level, Bound h name other level → other.length ≤ before.length

/-- What becomes of a value of the name: an update of the name changes it if its binding is in
force. -/
def Op.Takes (op : Op α) (name : String) (inForce : Prop) (old new : α) : Prop :=
  (∃ change, op = .update name change ∧ inForce ∧ new = change old) ∨
    (∀ change, op = .update name change → ¬ inForce) ∧ new = old

/-- The current value of the binding that was made after `before`: the one it was defined with,
changed by every update since then for which it was in force. -/
inductive Holds (name : String) (before : List (Op α)) : List (Op α) → α → Prop
  | defined (value : α) : Holds name before (.define name value :: before) value
  | later {h : List (Op α)} {op : Op α} {old new : α} (hold : Holds name before h old)
      (hnew : op.Takes name (InForce h name before) old new) : Holds name before (op :: h) new

/-- The names that were defined with success in a scope itself since it was opened after `before`,
the latest first. -/
def ownNames (before : List (Op α)) : List (Op α) → List String
  | [] => []
  | .define name value :: body =>
    if opened body = some 0 ∧ ((after (body ++ .push :: before)).define? name value).isSome then
      name :: ownNames before body
    else ownNames before body
  | _ :: body => ownNames before body

/-- The value of a name in the scope with `level` scopes inside it. -/
def lookupAt (s : ScopeStack α) (level : Nat) (name : String) : Option α :=
  s.scopes[level]?.bind (·.lookup name)

/-! ## One scope of the stack -/

section

variable {s t : ScopeStack α} {level : Nat} {name other : String} {value : α}

theorem lookupAt_define? (h : s.define? name value = some t) :
    t.lookupAt level other = if level = 0 ∧ other =
      name then some value else s.lookupAt level other := by
  obtain ⟨_ | ⟨_, _⟩⟩ := s
  · cases h
  · simp only [define?] at h
    split at h
    next => cases h
    next =>
      cases h
      cases level with
      | zero =>
        by_cases hother : other = name
        · simp [lookupAt, hother]
        · simp [lookupAt, lookup_cons, hother, beq_false_of_ne hother]
      | succ => simp [lookupAt]

theorem define?_eq_none_iff :
    s.define? name value = none ↔ s.scopes.length = 0 ∨ ∃ old, s.lookupAt 0 name = some old := by
  obtain ⟨_ | ⟨_, _⟩⟩ := s
  · simp [define?]
  · simp [define?, lookupAt, Option.isSome_iff_exists]

/-- A name is looked up in the innermost scope that binds it. -/
theorem lookup_eq_some_iff : s.lookup name = some value ↔
    ∃ level, s.lookupAt level name = some value ∧ ∀ j < level, s.lookupAt j name = none := by
  rw [lookup, findSome?_eq_some_iff]
  constructor
  · rintro ⟨front, scope, _, hs, hvalue, hfront⟩
    refine ⟨front.length, by simp [lookupAt, hs, hvalue], fun j hj => ?_⟩
    rw [lookupAt, hs, getElem?_append_left hj, getElem?_eq_getElem hj]
    exact hfront _ (getElem_mem hj)
  · rintro ⟨level, hvalue, hinner⟩
    obtain ⟨scope, hscope, hvalue⟩ := Option.bind_eq_some_iff.mp hvalue
    obtain ⟨_, rfl⟩ := List.getElem?_eq_some_iff.mp hscope
    refine ⟨s.scopes.take level, _, s.scopes.drop (level + 1),
      by simp, hvalue, fun scope hscope => ?_⟩
    obtain ⟨j, _, rfl⟩ := List.mem_take_iff_getElem.mp hscope
    have hnone := hinner j (by omega)
    rwa [lookupAt, getElem?_eq_getElem (by omega)] at hnone

/-- A value is replaced in the innermost scope that binds the name, and nowhere else. -/
theorem lookupAt_set {top : Nat} {old : α} (h : s.lookupAt top name = some old)
    (hinner : ∀ j < top, s.lookupAt j name = none) :
    (s.set name value).lookupAt level other =
      if level = top ∧ other = name then some value else s.lookupAt level other := by
  obtain ⟨scopes⟩ := s
  simp only [set, lookupAt] at h hinner ⊢
  induction scopes generalizing top level with
  | nil => cases h
  | cons inner _ ih =>
    rw [setFirst]
    cases top with
    | zero =>
      have hi : inner.lookup name = some old := h
      rw [hi, if_pos Option.isSome_some]
      cases level with
      | zero => simp [lookup_setIn, hi]
      | succ => simp
    | succ top =>
      have hi : inner.lookup name = none := hinner 0 (Nat.succ_pos top)
      rw [hi, if_neg (by simp)]
      cases level with
      | zero => simp
      | succ =>
        simp only [getElem?_cons_succ, Nat.add_right_cancel_iff]
        exact ih h fun j hj => hinner (j + 1) (Nat.succ_lt_succ hj)

end

/-! ## What one operation does to the scopes -/

section

variable {s : ScopeStack α} {level : Nat} {name other : String} {change : α → α}

theorem next_pop (s : ScopeStack α) : s.next .pop = s.outer := by
  obtain ⟨_ | ⟨_, _⟩⟩ := s <;> rfl

/-- An update changes the value in the innermost scope that has the name. -/
theorem lookupAt_update (hinner : ∀ j < level, s.lookupAt j name = none) :
    (s.next (.update name change)).lookupAt level name = (s.lookupAt level name).map change := by
  rw [next]
  cases hlookup : s.lookup name with
  | none =>
    have hlevel : s.lookupAt level name = none := by
      refine Option.eq_none_iff_forall_ne_some.mpr fun value hvalue => ?_
      rw [lookup_eq_some_iff.mpr ⟨level, hvalue, hinner⟩] at hlookup
      cases hlookup
    simp [hlevel]
  | some _ =>
    obtain ⟨top, htop, habove⟩ := lookup_eq_some_iff.mp hlookup
    simp only [lookupAt_set htop habove, and_true]
    -- The update concerns the innermost binding, and no scope inside of it has one.
    rcases Nat.lt_trichotomy level top with hlt | rfl | hgt
    · simp [Nat.ne_of_lt hlt, habove level hlt]
    · simp [htop]
    · rw [hinner top hgt] at htop
      cases htop

/-- An update changes no other value. -/
theorem lookupAt_update_of_not (hnot : ¬ (other = name ∧ ∀ j < level, s.lookupAt j name = none)) :
    (s.next (.update name change)).lookupAt level other = s.lookupAt level other := by
  rw [next]
  cases hlookup : s.lookup name with
  | none => rfl
  | some _ =>
    obtain ⟨_, htop, hinner⟩ := lookup_eq_some_iff.mp hlookup
    simp only [lookupAt_set htop hinner]
    refine if_neg ?_
    rintro ⟨rfl, rfl⟩
    exact hnot ⟨rfl, hinner⟩

/-- How an operation moves an open scope: it had `k` scopes inside it, and now it has `level`. -/
def Op.Shifts : Op α → Nat → Nat → Prop
  | .push, k, level => k + 1 = level
  | .pop, k, level => k = level + 1
  | _, k, level => k = level

/-- A scope has the names from before, with what the operation makes of their values, and a new one
if the operation defines it. -/
theorem lookupAt_next {op : Op α} {value : α} : (s.next op).lookupAt level name = some value ↔
    (op = .define name value ∧ (∃ t, s.define? name value = some t) ∧ level = 0) ∨
      ∃ k old, op.Shifts k level ∧ s.lookupAt k name = some old ∧
        op.Takes name (∀ j < k, s.lookupAt j name = none) old value := by
  cases op with
  | push =>
    cases level with
    | zero => simp [next, push, lookupAt, Op.Shifts]
    | succ => simp [next, push, lookupAt, Op.Shifts, Op.Takes]
  | pop => simp [next_pop, outer, lookupAt, Op.Shifts, Op.Takes]
  | lookup => simp [next, Op.Shifts, Op.Takes]
  | define other new =>
    have hkept : (∃ k old, (Op.define other new).Shifts k level ∧ s.lookupAt k name = some old ∧
        (Op.define other new).Takes name (∀ j < k, s.lookupAt j name = none) old value) ↔
          s.lookupAt level name = some value := by
      simp [Op.Shifts, Op.Takes]
    rw [next, defineNew, hkept]
    cases hdefine : s.define? other new with
    | none =>
      refine (or_iff_right ?_).symm
      rintro ⟨⟨⟩, ⟨t, hsome⟩, -⟩
      rw [hdefine] at hsome
      cases hsome
    | some t =>
      rw [Option.getD_some, lookupAt_define? hdefine]
      by_cases hnew : level = 0 ∧ name = other
      · obtain ⟨rfl, rfl⟩ := hnew
        rw [if_pos ⟨rfl, rfl⟩, or_iff_left fun hold => ?_]
        · constructor
          · rintro ⟨⟩
            exact ⟨rfl, ⟨t, hdefine⟩, rfl⟩
          · rintro ⟨⟨⟩, -⟩
            rfl
        · -- A binding of the name in this scope would have made the definition fail.
          rw [define?_eq_none_iff.mpr (.inr ⟨value, hold⟩)] at hdefine
          cases hdefine
      · rw [if_neg hnew]
        refine (or_iff_right ?_).symm
        rintro ⟨⟨⟩, -, rfl⟩
        exact hnew ⟨rfl, rfl⟩
  | update other change =>
    by_cases hinner : name = other ∧ ∀ j < level, s.lookupAt j other = none
    · obtain ⟨rfl, hinner⟩ := hinner
      rw [lookupAt_update hinner, Option.map_eq_some_iff]
      constructor
      · rintro ⟨old, hold, rfl⟩
        exact .inr ⟨level, old, rfl, hold, .inl ⟨change, rfl, hinner, rfl⟩⟩
      · rintro (⟨⟨⟩, -⟩ | ⟨_, old, rfl, hold, ⟨_, ⟨⟩, -, rfl⟩ | ⟨hnot, -⟩⟩)
        · exact ⟨old, hold, rfl⟩
        · exact absurd hinner (hnot change rfl)
    · rw [lookupAt_update_of_not hinner]
      constructor
      · intro hold
        refine .inr ⟨level, value, rfl, hold, .inr ⟨?_, rfl⟩⟩
        rintro _ ⟨⟩ habove
        exact hinner ⟨rfl, habove⟩
      · rintro (⟨⟨⟩, -⟩ | ⟨_, _, rfl, hold, ⟨_, ⟨⟩, habove, -⟩ | ⟨-, rfl⟩⟩)
        · exact absurd ⟨rfl, habove⟩ hinner
        · exact hold

end

/-! ## Bindings -/

section

variable {h before : List (Op α)} {op : Op α} {name : String} {level : Nat}

theorem opened_cons {later : List (Op α)} :
    opened (op :: later) = some level ↔ ∃ k, opened later = some k ∧ op.Shifts k level := by
  cases op with
  | push => simp only [opened, Option.map_eq_some_iff, Op.Shifts]
  | pop =>
    rw [opened]
    split
    next hn => simp [Op.Shifts, hn]
    next hother => simpa [Op.Shifts] using hother level
  | define | lookup | update => simp [opened, Op.Shifts]

/-- What one operation does to the bindings. -/
theorem bound_cons : Bound (op :: h) name before level ↔
    (∃ value t, op = .define name value ∧ before = h ∧
      (after h).define? name value = some t ∧ level = 0) ∨
      ∃ k, Bound h name before k ∧ op.Shifts k level := by
  constructor
  · rintro ⟨_ | ⟨_, later⟩, value, t, heq, hdefine, hopened⟩
    · obtain ⟨rfl, rfl⟩ := cons.inj heq
      exact .inl ⟨value, t, rfl, rfl, hdefine, (Option.some.inj hopened).symm⟩
    · obtain ⟨rfl, rfl⟩ := cons.inj heq
      obtain ⟨k, hk, hshift⟩ := opened_cons.mp hopened
      exact .inr ⟨k, ⟨later, value, t, rfl, hdefine, hk⟩, hshift⟩
  · rintro (⟨value, t, rfl, rfl, hdefine, rfl⟩ | ⟨k, ⟨later, value, t, rfl, hdefine, hk⟩, hshift⟩)
    · exact ⟨[], value, t, rfl, hdefine, rfl⟩
    · exact ⟨op :: later, value, t, rfl, hdefine, opened_cons.mpr ⟨k, hk, hshift⟩⟩

theorem not_bound_nil : ¬ Bound ([] : List (Op α)) name before level := by
  rintro ⟨later, _, _, heq, -⟩
  exact append_ne_nil_of_right_ne_nil later (cons_ne_nil _ _) heq.symm

theorem Bound.length_lt (hbound : Bound h name before level) : before.length < h.length := by
  obtain ⟨_, _, _, rfl, -⟩ := hbound
  rw [length_append, length_cons]
  omega

/-- A scope binds exactly the names whose definitions succeeded in it. -/
theorem exists_bound_iff :
    (∃ before, Bound h name before level) ↔ ∃ value, (after h).lookupAt level name =
    some value := by
  induction h generalizing level with
  | nil => exact ⟨fun ⟨_, hbound⟩ => absurd hbound not_bound_nil, nofun⟩
  | cons op h ih =>
    simp only [bound_cons, after, lookupAt_next]
    constructor
    · rintro ⟨before, ⟨value, t, rfl, -, hdefine, rfl⟩ | ⟨k, hbound, hshift⟩⟩
      · exact ⟨value, .inl ⟨rfl, ⟨t, hdefine⟩, rfl⟩⟩
      · obtain ⟨old, hold⟩ := ih.mp ⟨before, hbound⟩
        by_cases hop : ∃ change, op = .update name change ∧
          ∀ j < k, (after h).lookupAt j name = none
        · obtain ⟨change, heq, hinner⟩ := hop
          exact ⟨_, .inr ⟨k, old, hshift, hold, .inl ⟨change, heq, hinner, rfl⟩⟩⟩
        · have hkept : ∀ change, op = .update name change →
              ¬ ∀ j < k, (after h).lookupAt j name = none :=
              fun change heq hin => hop ⟨change, heq, hin⟩
          exact ⟨_, .inr ⟨k, old, hshift, hold, .inr ⟨hkept, rfl⟩⟩⟩
    · rintro ⟨value, ⟨rfl, ⟨t, hdefine⟩, rfl⟩ | ⟨k, old, hshift, hold, -⟩⟩
      · exact ⟨h, .inl ⟨value, t, rfl, rfl, hdefine, rfl⟩⟩
      · obtain ⟨before, hbound⟩ := ih.mpr ⟨old, hold⟩
        exact ⟨before, .inr ⟨k, hbound, hshift⟩⟩

/-- A binding is later than another one of its name if and only if it is further inside. -/
theorem Bound.length_lt_iff {other : List (Op α)} {k : Nat} (hbound : Bound h name before level)
    (hother : Bound h name other k) : before.length < other.length ↔ k < level := by
  induction h generalizing level k with
  | nil => exact absurd hbound not_bound_nil
  | cons op _ ih =>
    rcases bound_cons.mp hbound with ⟨_, _, rfl, rfl, -, rfl⟩ | ⟨_, hi, hshift⟩
    · -- The first one is the latest of all, and it is in the innermost scope.
      have hle : other.length ≤ before.length := Nat.le_of_lt_succ hother.length_lt
      exact ⟨fun hlt => absurd hlt (Nat.not_lt.mpr hle), nofun⟩
    · rcases bound_cons.mp hother with ⟨_, _, rfl, rfl, hdefine, rfl⟩ | ⟨_, hj, hshift'⟩
      · refine ⟨fun _ => Nat.pos_of_ne_zero ?_, fun _ => hi.length_lt⟩
        rintro rfl
        -- In the same scope, the second definition would have failed.
        cases hshift
        rw [define?_eq_none_iff.mpr (.inr (exists_bound_iff.mp ⟨before, hi⟩))] at hdefine
        cases hdefine
      · rw [ih hi hj]
        cases op <;> simp only [Op.Shifts] at hshift hshift' <;> omega

/-- The latest binding of a name is the innermost one. -/
theorem Bound.inForce_iff (hbound : Bound h name before level) :
    InForce h name before ↔ ∀ j < level, (after h).lookupAt j name = none := by
  constructor
  · rintro ⟨-, hlatest⟩ j hj
    refine Option.eq_none_iff_forall_ne_some.mpr fun value hvalue => ?_
    obtain ⟨other, hother⟩ := exists_bound_iff.mpr ⟨value, hvalue⟩
    exact absurd ((hbound.length_lt_iff hother).mpr hj) (Nat.not_lt.mpr (hlatest other j hother))
  · intro hinner
    refine ⟨⟨level, hbound⟩, fun other j hother => Nat.le_of_not_lt fun hlt => ?_⟩
    obtain ⟨_, hvalue⟩ := exists_bound_iff.mp ⟨other, hother⟩
    rw [hinner j ((hbound.length_lt_iff hother).mp hlt)] at hvalue
    cases hvalue

/-! ## Values -/

variable {value : α}

theorem Holds.length_lt (hvalue : Holds name before h value) : before.length < h.length := by
  induction hvalue with
  | defined => exact Nat.lt_succ_self _
  | later _ _ ih => exact Nat.lt_succ_of_lt ih

/-- Each scope has the current values of its bindings. -/
theorem lookupAt_iff : (after h).lookupAt level name = some value ↔
    ∃ before, Bound h name before level ∧ Holds name before h value := by
  induction h generalizing level value with
  | nil => exact ⟨nofun, fun ⟨_, hbound, _⟩ => absurd hbound not_bound_nil⟩
  | cons _ h ih =>
    refine lookupAt_next.trans ⟨?_, ?_⟩
    · rintro (⟨rfl, ⟨t, hdefine⟩, rfl⟩ | ⟨k, _, hshift, hold, hnew⟩)
      · exact ⟨h, bound_cons.mpr (.inl ⟨value, t, rfl, rfl, hdefine, rfl⟩), .defined value⟩
      · obtain ⟨before, hbound, hold⟩ := ih.mp hold
        rw [← hbound.inForce_iff] at hnew
        exact ⟨before, bound_cons.mpr (.inr ⟨k, hbound, hshift⟩), .later hold hnew⟩
    · rintro ⟨before, hbound, hvalue⟩
      rcases bound_cons.mp hbound with ⟨_, t, rfl, rfl, hdefine, rfl⟩ | ⟨k, hk, hshift⟩
      · cases hvalue with
        | defined => exact .inl ⟨rfl, ⟨t, hdefine⟩, rfl⟩
        | later hold => exact absurd hold.length_lt (Nat.lt_irrefl _)
      · cases hvalue with
        | defined => exact absurd hk.length_lt (Nat.lt_irrefl _)
        | later hold hnew =>
          rw [hk.inForce_iff] at hnew
          exact .inr ⟨k, _, hshift, ih.mpr ⟨before, hk, hold⟩, hnew⟩

theorem lookup_iff : (after h).lookup name = some value ↔
    ∃ before, InForce h name before ∧ Holds name before h value := by
  simp only [lookup_eq_some_iff, lookupAt_iff]
  constructor
  · rintro ⟨level, ⟨before, hbound, hvalue⟩, hinner⟩
    exact ⟨before, hbound.inForce_iff.mpr hinner, hvalue⟩
  · rintro ⟨before, hforce, hvalue⟩
    obtain ⟨level, hbound⟩ := hforce.1
    exact ⟨level, ⟨before, hbound, hvalue⟩, hbound.inForce_iff.mp hforce⟩

theorem lookup_eq_none_iff : (after h).lookup name = none ↔ ∀ before, ¬ InForce h name before := by
  constructor
  · rintro hnone before ⟨⟨level, hbound⟩, hlatest⟩
    have hinner := hbound.inForce_iff.mp ⟨⟨level, hbound⟩, hlatest⟩
    obtain ⟨_, hvalue⟩ := exists_bound_iff.mp ⟨before, hbound⟩
    rw [lookup_eq_some_iff.mpr ⟨level, hvalue, hinner⟩] at hnone
    cases hnone
  · intro hnot
    refine Option.eq_none_iff_forall_ne_some.mpr fun value hvalue => ?_
    obtain ⟨before, hforce, -⟩ := lookup_iff.mp hvalue
    exact hnot before hforce

end

/-! ## Names -/

section

variable {s : ScopeStack α} {name : String}

theorem names_update {change : α → α} : (s.next (.update name change)).names = s.names := by
  rw [next]
  cases s.lookup name with
  | none => rfl
  | some => exact names_set s name _

/-- A definition adds the name to those of the innermost scope, or it fails and adds nothing. -/
theorem names_define_cases (s : ScopeStack α) (name : String) (value : α) :
    (s.define? name value = none ∧ (s.next (.define name value)).names = s.names) ∨
      ∃ t inner outer, s.define? name value = some t ∧ s.names = inner :: outer ∧ name ∉ inner ∧
        (s.next (.define name value)).names = (name :: inner) :: outer := by
  rw [next, defineNew]
  cases hdefine : s.define? name value with
  | none => exact .inl ⟨rfl, rfl⟩
  | some t =>
    cases hs : s.names with
    | nil =>
      rw [define?, map_eq_nil_iff.mp hs] at hdefine
      cases hdefine
    | cons inner outer =>
      obtain ⟨hnone, -⟩ | ⟨_, hsome, hnew, hnames⟩ := define?_cases hs name value
      · cases hnone.symm.trans hdefine
      · cases hsome.symm.trans hdefine
        exact .inr ⟨t, inner, outer, rfl, rfl, hnew, hnames⟩

theorem length_names_after (h : List (Op α)) : (after h).names.length = depth h := by
  induction h with
  | nil => rfl
  | cons op h ih =>
    rw [after]
    cases op with
    | push => exact congrArg (· + 1) ih
    | pop => rw [next_pop, names_outer, length_tail, ih, depth]
    | define name value =>
      obtain ⟨-, heq⟩ | ⟨_, _, _, -, hs, -, heq⟩ := names_define_cases (after h) name value
      · rw [heq]
        exact ih
      · rw [hs] at ih
        rw [heq]
        exact ih
    | lookup => exact ih
    | update =>
      rw [names_update]
      exact ih

theorem nodup_names_after (h : List (Op α)) : ∀ names ∈ (after h).names, names.Nodup := by
  induction h with
  | nil => exact nofun
  | cons op h ih =>
    rw [after]
    cases op with
    | push => exact forall_mem_cons.mpr ⟨nodup_nil, ih⟩
    | pop =>
      rw [next_pop, names_outer]
      exact fun names hnames => ih names (mem_of_mem_tail hnames)
    | define name value =>
      obtain ⟨-, heq⟩ | ⟨_, _, _, -, hs, hnew, heq⟩ := names_define_cases (after h) name value
      · rwa [heq]
      · rw [hs, forall_mem_cons] at ih
        rw [heq, forall_mem_cons, nodup_cons]
        exact ⟨⟨hnew, ih.1⟩, ih.2⟩
    | lookup => exact ih
    | update => rwa [names_update]

end

/-! ## From a push to the pop that goes with it -/

section

variable {before body : List (Op α)} {name : String} {k : Nat}

/-- As long as a scope is open, it has the names that were defined in it. -/
theorem names_body (hbody : opened body = some k) :
    (after (body ++ .push :: before)).names[k]? = some (ownNames before body) := by
  induction body generalizing k with
  | nil =>
    cases hbody
    rfl
  | cons op body ih =>
    obtain ⟨_, hj, hshift⟩ := opened_cons.mp hbody
    have hnames := ih hj
    rw [cons_append, after]
    cases op with
    | push =>
      cases hshift
      exact hnames
    | pop =>
      cases hshift
      rw [next_pop, names_outer, getElem?_tail]
      exact hnames
    | define name value =>
      cases hshift
      rw [ownNames, hj]
      obtain ⟨hnone, heq⟩ | ⟨_, _, _, hdefine, hs, -, heq⟩ :=
        names_define_cases (after (body ++ .push :: before)) name value
      · rw [heq, hnone, hnames]
        simp
      · rw [hs] at hnames
        rw [heq, hdefine]
        -- While a scope inside is open, the definition is made there.
        cases k with
        | zero =>
          cases hnames
          simp
        | succ => simpa using hnames
    | lookup =>
      cases hshift
      exact hnames
    | update =>
      cases hshift
      rw [names_update]
      exact hnames

/-- What is done inside a scope does not concern the bindings outside of it. -/
theorem bound_body (hbody : opened body = some k) {made : List (Op α)} {level : Nat} :
    Bound (body ++ .push :: before) name made (level + 1 + k) ↔ Bound before name made level := by
  induction body generalizing k with
  | nil =>
    cases hbody
    simp [bound_cons, Op.Shifts]
  | cons op _ ih =>
    obtain ⟨j, hj, hshift⟩ := opened_cons.mp hbody
    have hshifts : ∀ i, op.Shifts i (level + 1 + k) ↔ i = level + 1 + j := by
      intro _
      cases op <;> simp only [Op.Shifts] at hshift ⊢ <;> omega
    rw [cons_append, bound_cons, or_iff_right]
    · simp only [hshifts, exists_eq_right, ih hj]
    · rintro ⟨-, -, -, -, -, _⟩
      omega

/-- A value is kept as long as its binding is not updated. -/
theorem holds_body {made : List (Op α)} {value : α} (hvalue : Holds name made before value)
    (hbody : ∀ later change earlier, body = later ++ .update name change :: earlier →
      ¬ InForce (earlier ++ .push :: before) name made) :
    Holds name made (body ++ .push :: before) value := by
  induction body with
  | nil => exact .later hvalue (.inr ⟨nofun, rfl⟩)
  | cons op body ih =>
    refine .later (ih fun later change earlier heq => hbody
      (op :: later) change earlier (heq ▸ rfl)) (.inr ⟨?_, rfl⟩)
    rintro change rfl
    exact hbody [] change body rfl

theorem inForce_restored (hbody : opened body = some 0) {made : List (Op α)} :
    InForce (.pop :: (body ++ .push :: before)) name made ↔ InForce before name made := by
  have hbound : ∀ other level, Bound (.pop :: (body ++ .push :: before)) name other level ↔
      Bound before name other level := by
    intro _ _
    refine Iff.trans ?_ (bound_body hbody)
    simp [bound_cons, Op.Shifts]
  simp only [InForce, hbound]

theorem lookup_restored (hbody : opened body = some 0) (name : String) :
    (after (.pop :: (body ++ .push :: before))).lookup name = (after before).lookup name ∨
      ∃ made later change earlier, InForce before name made ∧
        body = later ++ .update name change :: earlier ∧
        InForce (earlier ++ .push :: before) name made := by
  cases hlookup : (after before).lookup name with
  | none =>
    refine .inl (lookup_eq_none_iff.mpr fun made hforce => ?_)
    exact lookup_eq_none_iff.mp hlookup made ((inForce_restored hbody).mp hforce)
  | some _ =>
    obtain ⟨made, hforce, hvalue⟩ := lookup_iff.mp hlookup
    -- What the body does not update has the value it had in front of it.
    refine Classical.or_iff_not_imp_right.mpr fun hspared => ?_
    refine lookup_iff.mpr ⟨made, (inForce_restored hbody).mpr hforce,
      .later (holds_body hvalue ?_) (.inr ⟨nofun, rfl⟩)⟩
    intro later change earlier heq hupdated
    exact hspared ⟨made, later, change, earlier, hforce, heq, hupdated⟩

end

/-! ## The environment -/

/-- What has been done decides what the scopes answer next. -/
structure Lexical (h : List (Op α)) : Prop where
  /-- A lookup gives the current value of the latest definition of the name whose scope is still
  open. -/
  lookup : ∀ name value, (after h).lookup name = some value ↔
    ∃ made, InForce h name made ∧ Holds name made h value
  /-- It gives nothing only where there is no such definition. -/
  absent : ∀ name, (after h).lookup name = none ↔ ∀ made, ¬ InForce h name made
  /-- A definition fails if and only if there is no scope or the innermost one has the name. -/
  define : ∀ name value, (after h).define? name value = none ↔
    depth h = 0 ∨ ∃ made, Bound h name made 0
  /-- A definition that fails changes nothing. -/
  failed : ∀ name value, (after h).define? name value = none →
  after (.define name value :: h) = after h
  /-- An update changes the value of the binding in force, in the scope where it is. -/
  update : ∀ name change made level, InForce h name made → Bound h name made level →
    (after (.update name change :: h)).lookupAt level name =
    ((after h).lookupAt level name).map change
  /-- It changes no other value, in that scope or in another one. -/
  spared : ∀ name change level other,
    (other = name → ∀ made, Bound h name made level → ¬ InForce h name made) →
    (after (.update name change :: h)).lookupAt level other = (after h).lookupAt level other
  /-- There is a scope to close unless all have been closed. -/
  unbalanced : (after h).pop? = none ↔ depth h = 0
  /-- The pop that goes with a push gives the names that were defined in the scope since then, each
  once and with its current value. -/
  popped : ∀ body before, h = body ++ .push :: before → opened body = some 0 →
    ∃ inner, (after h).pop? = some (inner, after (.pop :: h)) ∧
      inner.map (·.1) = ownNames before body ∧ (ownNames before body).Nodup ∧
      (after h).innerSize = (ownNames before body).length ∧
      ∀ name value, inner.lookup name = some value ↔ ∃ made, Bound h name made 0 ∧
      Holds name made h value
  /-- The bindings in force are then those from before the push. A name has the value that it had,
  unless its binding was updated in between. -/
  restored : ∀ body before, h = body ++ .push :: before → opened body = some 0 → ∀ name,
    (∀ made, InForce (.pop :: h) name made ↔ InForce before name made) ∧
    ((after (.pop :: h)).lookup name = (after before).lookup name ∨
      ∃ made later change earlier, InForce before name made ∧
        body = later ++ .update name change :: earlier ∧
        InForce (earlier ++ .push :: before) name made)

section

variable {h : List (Op α)}

theorem pop?_after_eq_none_iff : (after h).pop? = none ↔ depth h = 0 := by
  rw [pop?, ← length_names_after, names, length_map]
  cases (after h).scopes with
  | nil | cons => simp

theorem lookupAt_after_update_of_not {name other : String} {change : α → α} {level : Nat}
    (hnot : other = name → ∀ made, Bound h name made level → ¬ InForce h name made) :
    (after (.update name change :: h)).lookupAt level other = (after h).lookupAt level other := by
  by_cases hinner : other = name ∧ ∀ j < level, (after h).lookupAt j name = none
  · obtain ⟨rfl, hinner⟩ := hinner
    rw [after, lookupAt_update hinner]
    cases hvalue : (after h).lookupAt level other with
    | none => rfl
    | some value =>
      obtain ⟨made, hbound⟩ := exists_bound_iff.mpr ⟨value, hvalue⟩
      exact absurd (hbound.inForce_iff.mpr hinner) (hnot rfl made hbound)
  · exact lookupAt_update_of_not hinner

/-- If the innermost scope has these names, then closing it gives its bindings. -/
theorem exists_pop? {own : List String} (hnames : (after h).names[0]? = some own) :
    ∃ inner, (after h).pop? = some (inner, after (.pop :: h)) ∧ inner.map (·.1) = own ∧
      (after h).innerSize = own.length ∧ ∀ name, inner.lookup name = (after h).lookupAt 0 name := by
  rw [after, next_pop]
  generalize after h = s at hnames
  obtain ⟨_ | ⟨inner, _⟩⟩ := s
  · cases hnames
  · have hinner : inner.map (·.1) = own := Option.some.inj hnames
    refine ⟨inner, rfl, hinner, ?_, fun name => rfl⟩
    rw [← hinner, length_map]
    rfl

end

/-- Whatever has been done with the scopes from the beginning, they are a lexical environment. -/
theorem lexical_environment (h : List (Op α)) : Lexical h where
  lookup _ _ := lookup_iff
  absent _ := lookup_eq_none_iff
  define name value := by
    rw [define?_eq_none_iff, exists_bound_iff, ← length_names_after, names, length_map]
  failed name value hnone := by
    rw [after, next, defineNew, hnone]
    rfl
  update name change made level hforce hbound := lookupAt_update (hbound.inForce_iff.mp hforce)
  spared _ _ _ _ := lookupAt_after_update_of_not
  unbalanced := pop?_after_eq_none_iff
  popped body before heq hbody := by
    have hnames : (after h).names[0]? = some (ownNames before body) := heq ▸ names_body hbody
    obtain ⟨inner, hpop, hinner, hsize, hvalues⟩ := exists_pop? hnames
    have hnodup := nodup_names_after h _ (mem_of_getElem? hnames)
    refine ⟨inner, hpop, hinner, hnodup, hsize, ?_⟩
    intro name _
    rw [hvalues, lookupAt_iff]
  restored body before heq hbody name :=
    heq ▸ ⟨fun _ => inForce_restored hbody, lookup_restored hbody name⟩

/-- A scope in which one name is hidden, with a second definition that fails, and another is
updated. -/
theorem lexical_environment_hidden :
    let before : List (Op Nat) := [.define "y" 1, .define "x" 1, .push]
    let body : List (Op Nat) :=
      [.update "y" (· + 5), .pop, .define "z" 4, .push, .define "x" 3, .define "x" 2]
    opened body = some 0 ∧ (∃ inner, (after (body ++ .push :: before)).pop? =
      some (inner, after (.pop :: (body ++ .push :: before))) ∧ inner.map (·.1) = ["x"]) ∧
    (after (.pop :: (body ++ .push :: before))).lookup "x" = some 1 ∧
    (after (.pop :: (body ++ .push :: before))).lookup "y" = some 6 := by
  intro before body
  obtain ⟨inner, hpop, hnames, -⟩ := (lexical_environment (body ++ .push :: before)).popped body
    before rfl rfl
  exact ⟨rfl, ⟨inner, hpop, hnames⟩, by decide, by decide⟩

end MiniJava.ScopeStack
