/-!
# Steps that may end in a fault

A chain of steps gives a result if and only if each step does. These are the
lemmas with which proofs about the phases of the compiler take such a chain apart.
-/

namespace MiniJava

variable {ε α β γ δ : Type} {f : α → Except ε β} {x : Except ε α} {l : List α}

theorem bind_eq_ok {b : β} : x >>= f = .ok b ↔ ∃ a, x = .ok a ∧ f a = .ok b := by
  constructor
  · intro h
    cases x with
    | error => cases h
    | ok a => exact ⟨a, rfl, h⟩
  · rintro ⟨_, rfl, h⟩
    exact h

/-- Two steps in front of the rest. -/
theorem bind₂_eq_ok {g : α → β → Except ε γ} {c : γ} :
    (x >>= fun a => f a >>= g a) = .ok c ↔ ∃ a, x = .ok a ∧ ∃ b, f a = .ok b ∧ g a b = .ok c := by
  simp only [bind_eq_ok]

theorem bind₃_eq_ok {g : α → β → Except ε γ} {h : α → β → γ → Except ε δ} {d : δ} :
    (x >>= fun a => f a >>= fun b => g a b >>= h a b) = .ok d ↔
      ∃ a, x = .ok a ∧ ∃ b, f a = .ok b ∧ ∃ c, g a b = .ok c ∧ h a b c = .ok d := by
  simp only [bind_eq_ok]

theorem pure_eq_ok {a b : α} : (pure a : Except ε α) = .ok b ↔ b = a := by
  constructor
  · rintro ⟨⟩
    rfl
  · rintro rfl
    rfl

/-- A check in front of a step. -/
theorem check_bind_eq_ok {x : Except ε Unit} {f : Unit → Except ε β} {b : β} :
    x >>= f = .ok b ↔ x = .ok () ∧ f () = .ok b := by
  rw [bind_eq_ok]
  constructor
  · rintro ⟨⟨⟩, hx, hf⟩
    exact ⟨hx, hf⟩
  · rintro ⟨hx, hf⟩
    exact ⟨(), hx, hf⟩

theorem map_eq_ok {f : α → β} {b : β} : f <$> x = .ok b ↔ ∃ a, x = .ok a ∧ f a = b := by
  constructor
  · intro h
    cases x with
    | error => cases h
    | ok a => cases h; exact ⟨a, rfl, rfl⟩
  · rintro ⟨_, rfl, rfl⟩
    rfl

theorem bind_eq_error {e : ε} :
    x >>= f = .error e ↔ x = .error e ∨ ∃ a, x = .ok a ∧ f a = .error e := by
  constructor
  · intro h
    cases x with
    | error => cases h; exact .inl rfl
    | ok a => exact .inr ⟨a, rfl, h⟩
  · rintro (rfl | ⟨_, rfl, h⟩)
    · rfl
    · exact h

theorem map_eq_error_iff {f : α → β} {e : ε} : f <$> x = .error e ↔ x = .error e := by
  cases x with
  | error =>
    constructor
    · rintro ⟨⟩
      rfl
    · rintro ⟨⟩
      rfl
  | ok => exact ⟨nofun, nofun⟩

/-- A check of every item of a list succeeds only if it does so for each item. -/
theorem forM_eq_ok {f : α → Except ε Unit} (h : l.forM f = .ok ()) : ∀ a ∈ l, f a = .ok () := by
  induction l with
  | nil => exact nofun
  | cons _ _ ih =>
    rw [List.forM_eq_forM, List.forM_cons] at h
    obtain ⟨⟨⟩, hb, hl⟩ := bind_eq_ok.mp h
    intro a ha
    rcases List.mem_cons.mp ha with rfl | hrest
    · exact hb
    · exact ih hl a hrest

theorem forM_eq_ok_iff {f : α → Except ε Unit} : l.forM f = .ok () ↔ ∀ a ∈ l, f a = .ok () := by
  refine ⟨forM_eq_ok, ?_⟩
  intro h
  induction l with
  | nil => rfl
  | cons a _ ih =>
    rw [List.forM_eq_forM, List.forM_cons, h a List.mem_cons_self]
    exact ih fun b hb => h b (List.mem_cons_of_mem a hb)

/-- A translation that succeeds for every item of a list succeeds for the list. -/
theorem mapM_eq_ok {g : α → β} (h : ∀ a ∈ l, f a = .ok (g a)) : l.mapM f = .ok (l.map g) := by
  induction l with
  | nil => rfl
  | cons a _ ih =>
    rw [List.mapM_cons, h a List.mem_cons_self, ih fun b hb => h b (List.mem_cons_of_mem a hb)]
    rfl

/-- A translation of a list succeeds only if it does so for each item. -/
theorem exists_of_mapM_eq_ok {bs : List β} (h : l.mapM f = .ok bs) : ∀ a ∈ l, ∃ b, f a = .ok b := by
  induction l generalizing bs with
  | nil => exact nofun
  | cons _ _ ih =>
    rw [List.mapM_cons] at h
    obtain ⟨b, hb, h⟩ := bind_eq_ok.mp h
    obtain ⟨_, hbs, -⟩ := bind_eq_ok.mp h
    rw [List.forall_mem_cons]
    exact ⟨⟨b, hb⟩, ih hbs⟩

/-- A translation of a list that fails does so at one of the items. -/
theorem exists_of_mapM_eq_error {e : ε} (h : l.mapM f = .error e) : ∃ a ∈ l, f a = .error e := by
  induction l with
  | nil => cases h
  | cons a _ ih =>
    rw [List.mapM_cons] at h
    rcases bind_eq_error.mp h with ha | ⟨_, -, h⟩
    · exact ⟨a, List.mem_cons_self, ha⟩
    · rcases bind_eq_error.mp h with hl | ⟨_, -, ⟨⟩⟩
      obtain ⟨a', ha', hf⟩ := ih hl
      exact ⟨a', List.mem_cons_of_mem a ha', hf⟩

end MiniJava
