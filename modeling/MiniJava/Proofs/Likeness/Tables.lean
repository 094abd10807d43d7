import MiniJava.Proofs.Likeness.Trees
import MiniJava.ClassTable

/-!
# Tables of programs that are alike

A table remembers where each member is declared, and no phase reads that. Tables are similar if they
hold the same members but for the places (`Similar`). If they also hold them in the same order, they
are equal once the places are forgotten (`ClassTable.bare`), and then objects have the same layout.
-/

namespace MiniJava

/-! ## Entries without places -/

/-- What is known of a field, but for its place. -/
def FieldEntry.bare (f : FieldEntry) : FieldEntry := { f with span := Span.builtin }

/-- What is known of a method, but for its place. -/
def MethodEntry.bare (m : MethodEntry) : MethodEntry := { m with span := Span.builtin }

/-- The members of a class, but for their places. -/
def ClassEntry.bare (c : ClassEntry) : ClassEntry where
  fields := ScopeStack.mapScope FieldEntry.bare c.fields
  methods := ScopeStack.mapScope MethodEntry.bare c.methods

/-- A table without places. -/
def ClassTable.bare (t : ClassTable) : ClassTable :=
  ⟨ScopeStack.mapScope ClassEntry.bare t.classes⟩

namespace ClassEntry

theorem instanceFields_bare (c : ClassEntry) :
    c.bare.instanceFields = ScopeStack.mapScope FieldEntry.bare c.instanceFields :=
  List.filter_map

theorem instanceSize_bare (c : ClassEntry) : c.bare.instanceSize = c.instanceSize := by
  rw [instanceSize, instanceSize, instanceFields_bare, ScopeStack.mapScope, List.length_map]

theorem fieldOffset?_bare (c : ClassEntry) (name : String) :
    c.bare.fieldOffset? name = c.fieldOffset? name := by
  rw [fieldOffset?, fieldOffset?, instanceFields_bare, ScopeStack.mapScope, List.findIdx?_map]
  rfl

end ClassEntry

namespace ClassTable

variable {t t' : ClassTable}

theorem class?_bare (t : ClassTable) (name : String) :
    t.bare.class? name = (t.class? name).map ClassEntry.bare :=
  ScopeStack.lookup_mapScope ClassEntry.bare t.classes name

theorem contains_bare (t : ClassTable) (name : String) :
    t.bare.contains name = t.contains name := by
  rw [contains, contains, class?_bare, Option.isSome_map]

theorem field?_bare (t : ClassTable) (className name : String) :
    t.bare.field? className name = (t.field? className name).map FieldEntry.bare := by
  rw [field?, field?, class?_bare]
  cases t.class? className with
  | none => rfl
  | some c => exact ScopeStack.lookup_mapScope FieldEntry.bare c.fields name

theorem method?_bare (t : ClassTable) (className name : String) :
    t.bare.method? className name = (t.method? className name).map MethodEntry.bare := by
  rw [method?, method?, class?_bare]
  cases t.class? className with
  | none => rfl
  | some c => exact ScopeStack.lookup_mapScope MethodEntry.bare c.methods name

/-! ## Similar tables -/

theorem map_eq_map_cases {α β : Type} {f : α → β} {x y : Option α} (h : x.map f = y.map f) :
    (x = none ∧ y = none) ∨ ∃ a b, x = some a ∧ y = some b ∧ f a = f b := by
  cases x with
  | none =>
    cases y with
    | none => exact .inl ⟨rfl, rfl⟩
    | some => cases h
  | some a =>
    cases y with
    | none => cases h
    | some b => exact .inr ⟨a, b, rfl, rfl, Option.some.inj h⟩

/-- Two tables with the same classes and members, but for the places of the members. -/
structure Similar (t t' : ClassTable) : Prop where
  contains : ∀ name, t.contains name = t'.contains name
  field? : ∀ className name, (t.field? className name).map FieldEntry.bare =
    (t'.field? className name).map FieldEntry.bare
  method? : ∀ className name, (t.method? className name).map MethodEntry.bare =
    (t'.method? className name).map MethodEntry.bare

theorem similar_of_bare_eq (h : t.bare = t'.bare) : t.Similar t' where
  contains name := by rw [← contains_bare, h, contains_bare]
  field? className name := by rw [← field?_bare, h, field?_bare]
  method? className name := by rw [← method?_bare, h, method?_bare]

theorem fieldOffset?_of_bare_eq (h : t.bare = t'.bare) (className name : String) :
    (t.class? className).bind (·.fieldOffset? name) =
      (t'.class? className).bind (·.fieldOffset? name) := by
  have hbare : ∀ t : ClassTable, (t.bare.class? className).bind (·.fieldOffset? name) =
      (t.class? className).bind (·.fieldOffset? name) := by
    intro t
    rw [class?_bare]
    cases t.class? className with
    | none => rfl
    | some c => exact c.fieldOffset?_bare name
  rw [← hbare, h, hbare]

theorem instanceSize_of_bare_eq (h : t.bare = t'.bare) (className : String) :
    (t.class? className).elim 0 (·.instanceSize) =
    (t'.class? className).elim 0 (·.instanceSize) := by
  have hbare : ∀ t : ClassTable, (t.bare.class? className).elim 0 (·.instanceSize) =
      (t.class? className).elim 0 (·.instanceSize) := by
    intro t
    rw [class?_bare]
    cases t.class? className with
    | none => rfl
    | some c => exact c.instanceSize_bare
  rw [← hbare, h, hbare]

namespace Similar

/-- A field is found in both tables or in neither, and only its place may differ. -/
theorem field_cases (h : t.Similar t') (className name : String) :
    (t.field? className name = none ∧ t'.field? className name = none) ∨
      ∃ f span, t.field? className name = some f ∧
        t'.field? className name = some { f with span := span } := by
  rcases map_eq_map_cases (h.field? className name) with hnone | ⟨f, f', hf, hf', hbare⟩
  · exact .inl hnone
  · refine .inr ⟨f, f'.span, hf, hf'.trans (congrArg some ?_)⟩
    exact congrArg (fun e : FieldEntry => { e with span := f'.span }) hbare.symm

/-- A method is found in both tables or in neither, and only its place may differ. -/
theorem method_cases (h : t.Similar t') (className name : String) :
    (t.method? className name = none ∧ t'.method? className name = none) ∨
      ∃ m span, t.method? className name = some m ∧
        t'.method? className name = some { m with span := span } := by
  rcases map_eq_map_cases (h.method? className name) with hnone | ⟨m, m', hm, hm', hbare⟩
  · exact .inl hnone
  · refine .inr ⟨m, m'.span, hm, hm'.trans (congrArg some ?_)⟩
    exact congrArg (fun e : MethodEntry => { e with span := m'.span }) hbare.symm

end Similar

end ClassTable

/-! ## The tables of programs -/

section

variable {L : Likeness}

/-- The first name that is repeated stands in the same place of both lists. -/
theorem firstRepeated?_alike {names names' : List Ident} (h : List.Forall₂ L.Same names names')
    (seen : List String) :
    (firstRepeated? seen names = none ∧ firstRepeated? seen names' = none) ∨
      ∃ x x', firstRepeated? seen names = some x ∧ firstRepeated? seen names' = some x' ∧
        L.Same x x' := by
  induction h generalizing seen with
  | nil => exact .inl ⟨rfl, rfl⟩
  | @cons x x' _ _ hx _ ih =>
    rw [firstRepeated?, firstRepeated?, ← hx.value]
    by_cases hseen : x.value ∈ seen
    · rw [if_pos hseen, if_pos hseen]
      exact .inr ⟨x, x', rfl, rfl, hx⟩
    · rw [if_neg hseen, if_neg hseen]
      exact ih _

theorem MethodAlike.params_eq {m m' : MethodDecl} (h : MethodAlike L m m') :
    m.params.map (·.type.value) = m'.params.map (·.type.value) := by
  obtain ⟨_, _, hparams, -⟩ := h.body
  exact hparams.types_eq

theorem FieldAlike.bare_eq {f f' : FieldDecl} (h : FieldAlike L f f') :
    (FieldEntry.ofDecl f).bare = (FieldEntry.ofDecl f').bare := by
  simp only [FieldEntry.ofDecl, FieldEntry.bare, h.type.value, h.isPrivate, h.isStatic, h.owner]

theorem MethodAlike.bare_eq {m m' : MethodDecl} (h : MethodAlike L m m') :
    (MethodEntry.ofDecl m).bare = (MethodEntry.ofDecl m').bare := by
  simp only [MethodEntry.ofDecl, MethodEntry.bare, h.params_eq, h.returns.value, h.isPrivate,
    h.isStatic, h.owner]

theorem map_eq_map_of_forall₂ {α β : Type} {R : α → α → Prop} {f : α → β} {as bs : List α}
    (h : List.Forall₂ R as bs) (hf : ∀ a b, R a b → f a = f b) : as.map f = bs.map f := by
  induction h with
  | nil => rfl
  | cons hab _ ih => rw [List.map_cons, List.map_cons, hf _ _ hab, ih]

theorem ofDecl_alike {c c' : ClassDecl} (h : ClassAlike L c c') :
    ResultLike L.Like (fun e e' => e.bare = e'.bare) (ClassEntry.ofDecl c)
      (ClassEntry.ofDecl c') := by
  -- Fields and methods share one name space, so a repeated name is searched among both.
  have hnames : List.Forall₂ L.Same (c.fields.map (·.name) ++ c.methods.map (·.name))
      (c'.fields.map (·.name) ++ c'.methods.map (·.name)) := by
    refine List.rel_append ?_ ?_
    · rw [List.forall₂_map_left_iff, List.forall₂_map_right_iff]
      exact h.fields.imp fun _ _ hf => hf.name
    · rw [List.forall₂_map_left_iff, List.forall₂_map_right_iff]
      exact h.methods.imp fun _ _ hm => hm.name
  rw [ClassEntry.ofDecl, ClassEntry.ofDecl]
  rcases firstRepeated?_alike hnames [] with ⟨hnone, hnone'⟩ | ⟨_, _, hx, hx', hsame⟩
  · rw [hnone, hnone']
    refine .ok ?_
    simp only [ClassEntry.bare, ScopeStack.mapScope, List.map_map, ClassEntry.mk.injEq]
    constructor
    · refine map_eq_map_of_forall₂ h.fields fun f f' hf => ?_
      exact Prod.ext hf.name.value hf.bare_eq
    · refine map_eq_map_of_forall₂ h.methods fun m m' hm => ?_
      exact Prod.ext hm.name.value hm.bare_eq
  · rw [hx, hx']
    exact .error ⟨fun _ => congrArg ScopeFault.redeclared hsame.value, hsame.span⟩

namespace ClassTable

theorem declare_alike {t t' : ClassTable} {c c' : ClassDecl} (ht : t.bare = t'.bare)
    (hc : ClassAlike L c c') :
    ResultLike L.Like (fun t t' => t.bare = t'.bare) (t.declare c) (t'.declare c') := by
  rw [declare, declare, ← hc.name.value, ← (similar_of_bare_eq ht).contains]
  by_cases hknown : t.contains c.name.value = true
  · rw [if_pos hknown, if_pos hknown]
    exact .error ⟨fun _ => rfl, hc.name.span⟩
  · rw [if_neg hknown, if_neg hknown]
    refine (ofDecl_alike hc).bind fun e e' he => .ok ?_
    have hclasses := ClassTable.mk.inj ht
    simp only [ScopeStack.mapScope] at hclasses
    simp only [bare, ScopeStack.mapScope, List.map_append, List.map_cons,
      List.map_nil, hclasses, he]

/-- The tables of programs that are alike are equal but for the places, or both programs declare
something twice, at corresponding places. -/
theorem ofProgram_alike {p p' : Program} (h : ProgramAlike L p p') :
    ResultLike L.Like (fun t t' => t.bare = t'.bare) (ofProgram p) (ofProgram p') :=
  ResultLike.foldlM h (fun _ _ _ _ ht hc => declare_alike ht hc) rfl

end ClassTable

end

end MiniJava
