import Mathlib.Data.List.Nodup
import MiniJava.ClassTable
import MiniJava.Proofs.Grammar.Owners
import MiniJava.Proofs.Results

/-!
# What the table of a program holds

`ClassTable.IsTableOf t p` says of a table `t` everything that building it from a
program `p` ensures: it holds the built-in classes and then those of the program,
no class name occurs twice, and no name occurs twice among the members of a class.
`isTableOf_of_ofProgram` is the only place that looks into the building; all later
facts follow from this statement:

> `field?_cases`, `method?_cases`: a member that is found is a built-in one, or the
> declaration of it stands in the program.
-/

namespace MiniJava

open List

/-! ## Looking names up where none occurs twice -/

theorem mem_of_lookup {κ α : Type} [BEq κ] [LawfulBEq κ] {l : List (κ × α)} {name : κ} {value : α}
    (h : l.lookup name = some value) : (name, value) ∈ l := by
  obtain ⟨_, _, rfl, -⟩ := lookup_eq_some_iff.mp h
  simp

variable {name : String} {c : ClassDecl}

theorem lookup_of_mem {α : Type} {l : List (String × α)} (hl : (l.map (·.1)).Nodup) {value : α}
    (h : (name, value) ∈ l) : l.lookup name = some value := by
  induction l with
  | nil => cases h
  | cons binding _ ih =>
    rw [map_cons, nodup_cons] at hl
    rcases mem_cons.mp h with rfl | hrest
    · simp
    · have hne : name ≠ binding.1 := by
        rintro rfl
        exact hl.1 (mem_map.mpr ⟨_, hrest, rfl⟩)
      rw [lookup_cons, beq_false_of_ne hne]
      exact ih hl.2 hrest

/-- No name of the list was seen before or occurs twice in it. -/
theorem firstRepeated?_eq_none {seen : List String} {names : List Ident}
    (h : firstRepeated? seen names = none) :
    (names.map (·.value)).Nodup ∧ ∀ name ∈ names, name.value ∉ seen := by
  induction names generalizing seen with
  | nil => exact ⟨nodup_nil, nofun⟩
  | cons _ _ ih =>
    rw [firstRepeated?] at h
    split at h
    next => cases h
    next hnew =>
      obtain ⟨hnodup, hseen⟩ := ih h
      refine ⟨nodup_cons.mpr ⟨?_, hnodup⟩, ?_⟩
      · -- A name that comes again is seen by then.
        intro hmem
        obtain ⟨other, hother, heq⟩ := mem_map.mp hmem
        exact hseen other hother (heq ▸ mem_cons_self)
      · intro other hother
        rcases mem_cons.mp hother with rfl | hrest
        · exact hnew
        · exact fun hs => hseen other hrest (mem_cons_of_mem _ hs)

/-! ## The table of a program -/

namespace ClassEntry

/-- The members that a class declares. -/
def members (c : ClassDecl) : ClassEntry where
  fields := c.fields.map fun f => (f.name.value, FieldEntry.ofDecl f)
  methods := c.methods.map fun m => (m.name.value, MethodEntry.ofDecl m)

theorem ofDecl_eq_ok {entry : ClassEntry} (h : ofDecl c = .ok entry) :
    entry = members c ∧
      ((c.fields.map (·.name.value)) ++ c.methods.map (·.name.value)).Nodup := by
  unfold ofDecl at h
  split at h
  next => cases h
  next hnone =>
    cases h
    have hnodup := (firstRepeated?_eq_none hnone).1
    rw [map_append, map_map, map_map] at hnodup
    exact ⟨rfl, hnodup⟩

end ClassEntry

namespace ClassTable

/-- The table of a program whose class names and member names are all distinct. -/
structure IsTableOf (t : ClassTable) (p : Program) : Prop where
  classes : t.classes =
    builtin.classes ++ p.classes.map fun c => (c.name.value, ClassEntry.members c)
  names_nodup : (t.classes.map (·.1)).Nodup
  members_nodup : ∀ c ∈ p.classes,
    ((c.fields.map (·.name.value)) ++ c.methods.map (·.name.value)).Nodup

variable {t : ClassTable}

theorem declare_eq_ok {t' : ClassTable} (h : t.declare c = .ok t') :
    t'.classes = t.classes ++ [(c.name.value, ClassEntry.members c)] ∧
    c.name.value ∉ t.classes.map (·.1) ∧
    ((c.fields.map (·.name.value)) ++ c.methods.map (·.name.value)).Nodup := by
  unfold declare at h
  split at h
  next => cases h
  next hnew =>
    obtain ⟨_, he, ⟨⟩⟩ := bind_eq_ok.mp h
    obtain ⟨rfl, hnodup⟩ := ClassEntry.ofDecl_eq_ok he
    refine ⟨rfl, ?_, hnodup⟩
    intro hmem
    obtain ⟨⟨name, _⟩, hin, rfl⟩ := mem_map.mp hmem
    apply hnew
    simp only [contains, class?]
    cases hl : t.classes.lookup c.name.value with
    | some _ => rfl
    | none =>
      have hne := lookup_eq_none_iff.mp hl _ hin
      simp at hne

/-- What declaring classes in turn adds to a table. -/
theorem foldlM_declare_eq_ok {cs : List ClassDecl} {t' : ClassTable}
    (h : cs.foldlM declare t = .ok t') (ht : (t.classes.map (·.1)).Nodup) :
    t'.classes = t.classes ++ cs.map (fun c => (c.name.value, ClassEntry.members c)) ∧
    (t'.classes.map (·.1)).Nodup ∧
    ∀ c ∈ cs, ((c.fields.map (·.name.value)) ++ c.methods.map (·.name.value)).Nodup := by
  induction cs generalizing t with
  | nil =>
    cases h
    exact ⟨by simp, ht, nofun⟩
  | cons c _ ih =>
    rw [foldlM_cons] at h
    obtain ⟨next, hd, h⟩ := bind_eq_ok.mp h
    obtain ⟨hnext, hnew, hmembers⟩ := declare_eq_ok hd
    have hnodup : (next.classes.map (·.1)).Nodup := by
      rw [hnext, map_append, nodup_append]
      refine ⟨ht, by simp, ?_⟩
      rintro a ha b hb rfl
      simp only [map_cons, map_nil, mem_singleton] at hb
      exact hnew (hb ▸ ha)
    obtain ⟨hclasses, hnodup', hall⟩ := ih h hnodup
    exact ⟨by rw [hclasses, hnext]; simp, hnodup', forall_mem_cons.mpr ⟨hmembers, hall⟩⟩

theorem isTableOf_of_ofProgram {p : Program} (h : ofProgram p = .ok t) : IsTableOf t p := by
  obtain ⟨hclasses, hnodup, hmembers⟩ := foldlM_declare_eq_ok h (by decide)
  exact ⟨hclasses, hnodup, hmembers⟩

namespace IsTableOf

variable {t : ClassTable} {p : Program} (h : IsTableOf t p)
include h

/-- A class that is found is a built-in one or is declared by the program. -/
theorem class?_cases {entry : ClassEntry} (hc : t.class? name = some entry) :
    (name, entry) ∈ builtin.classes ∨
      ∃ c ∈ p.classes, c.name.value = name ∧ entry = ClassEntry.members c := by
  have hmem := mem_of_lookup hc
  rw [h.classes, mem_append, mem_map] at hmem
  rcases hmem with hb | ⟨c, hcp, heq⟩
  · exact .inl hb
  · cases heq
    exact .inr ⟨c, hcp, rfl, rfl⟩

theorem class?_of_mem (hc : c ∈ p.classes) :
    t.class? c.name.value = some (ClassEntry.members c) := by
  apply lookup_of_mem h.names_nodup
  rw [h.classes]
  exact mem_append_right _ (mem_map_of_mem hc)

/-- The program's class names are distinct, so a name belongs to one declaration. -/
theorem class_unique {d : ClassDecl} (hc : c ∈ p.classes) (hd : d ∈ p.classes)
    (heq : c.name.value = d.name.value) : c = d := by
  have hnodup := h.names_nodup
  rw [h.classes, map_append, nodup_append, map_map] at hnodup
  exact inj_on_of_nodup_map hnodup.2.1 hc hd heq

variable {className : String}

/-- A field that is found is the standard output or is declared by the program. -/
theorem field?_cases {entry : FieldEntry} (hf : t.field? className name = some entry) :
    (className = systemClass ∧ name = outField ∧
      entry = ⟨.object printStreamClass, false, true, systemClass, Span.builtin⟩) ∨
    ∃ c ∈ p.classes, c.name.value = className ∧
      ∃ f ∈ c.fields, f.name.value = name ∧ entry = FieldEntry.ofDecl f := by
  obtain ⟨_, he, hl⟩ := Option.bind_eq_some_iff.mp hf
  have hmem := mem_of_lookup hl
  rcases h.class?_cases he with hb | ⟨c, hc, hname, rfl⟩
  · simp only [builtin, mem_cons, not_mem_nil, or_false, Prod.mk.injEq] at hb
    -- Of the predefined classes, only one has a field.
    rcases hb with ⟨rfl, rfl⟩ | ⟨rfl, rfl⟩ | ⟨rfl, rfl⟩
    · cases hmem
    · cases hmem
    · rw [mem_singleton] at hmem
      cases hmem
      exact .inl ⟨rfl, rfl, rfl⟩
  · obtain ⟨f, hfc, heq⟩ := mem_map.mp hmem
    cases heq
    exact .inr ⟨c, hc, hname, f, hfc, rfl, rfl⟩

/-- A method that is found is the one that prints or is declared by the program. -/
theorem method?_cases {entry : MethodEntry} (hm : t.method? className name = some entry) :
    (className = printStreamClass ∧ name = printMethod ∧
      entry = ⟨[.int], .void, false, false, printStreamClass, Span.builtin⟩) ∨
    ∃ c ∈ p.classes, c.name.value = className ∧
      ∃ m ∈ c.methods, m.name.value = name ∧ entry = MethodEntry.ofDecl m := by
  obtain ⟨_, he, hl⟩ := Option.bind_eq_some_iff.mp hm
  have hmem := mem_of_lookup hl
  rcases h.class?_cases he with hb | ⟨c, hc, hname, rfl⟩
  · simp only [builtin, mem_cons, not_mem_nil, or_false, Prod.mk.injEq] at hb
    rcases hb with ⟨rfl, rfl⟩ | ⟨rfl, rfl⟩ | ⟨rfl, rfl⟩
    · cases hmem
    · rw [mem_singleton] at hmem
      cases hmem
      exact .inl ⟨rfl, rfl, rfl⟩
    · cases hmem
  · obtain ⟨m, hmc, heq⟩ := mem_map.mp hmem
    cases heq
    exact .inr ⟨c, hc, hname, m, hmc, rfl, rfl⟩

theorem class?_of_builtin {binding : String × ClassEntry} (hb : binding ∈ builtin.classes) :
    t.class? binding.1 = some binding.2 := by
  refine lookup_of_mem h.names_nodup ?_
  rw [h.classes]
  exact mem_append_left _ hb

theorem field?_out : t.field? systemClass outField =
    some ⟨.object printStreamClass, false, true, systemClass, Span.builtin⟩ := by
  rw [field?, h.class?_of_builtin (.tail _ (.tail _ (.head _)))]
  rfl

theorem method?_print : t.method? printStreamClass printMethod =
    some ⟨[.int], .void, false, false, printStreamClass, Span.builtin⟩ := by
  rw [method?, h.class?_of_builtin (.tail _ (.head _))]
  rfl

theorem field?_of_mem (hc : c ∈ p.classes) {f : FieldDecl} (hf : f ∈ c.fields) :
    t.field? c.name.value f.name.value = some (FieldEntry.ofDecl f) := by
  rw [field?, h.class?_of_mem hc]
  refine lookup_of_mem ?_ (mem_map_of_mem hf)
  rw [ClassEntry.members, map_map]
  exact (nodup_append.mp (h.members_nodup c hc)).1

theorem method?_of_mem (hc : c ∈ p.classes) {m : MethodDecl} (hm : m ∈ c.methods) :
    t.method? c.name.value m.name.value = some (MethodEntry.ofDecl m) := by
  rw [method?, h.class?_of_mem hc]
  refine lookup_of_mem ?_ (mem_map_of_mem hm)
  rw [ClassEntry.members, map_map]
  exact (nodup_append.mp (h.members_nodup c hc)).2.1

/-- A class has no field and method of one name. -/
theorem field?_of_method? {e : MethodEntry} (he : t.method? className name = some e) :
    t.field? className name = none := by
  cases hf : t.field? className name with
  | none => rfl
  | some _ =>
    rcases h.method?_cases he with ⟨rfl, rfl, -⟩ | ⟨c, hc, rfl, m, hm, rfl, -⟩
    · rw [field?, h.class?_of_builtin (.tail _ (.head _))] at hf
      cases hf
    · rw [field?, h.class?_of_mem hc] at hf
      obtain ⟨_, hd, heq⟩ := mem_map.mp (mem_of_lookup hf)
      have hapart := (nodup_append.mp (h.members_nodup c hc)).2.2
      exact absurd (Prod.mk.inj heq).1 (hapart _ (mem_map_of_mem hd) _ (mem_map_of_mem hm))

/-- A field belongs to the class in which it is found. -/
theorem owner_of_field? (howned : p.MembersOwned) {f : FieldEntry}
    (hf : t.field? className name = some f) : f.owner = className := by
  rcases h.field?_cases hf with ⟨rfl, rfl, rfl⟩ | ⟨c, hc, rfl, d, hd, rfl, rfl⟩
  · rfl
  · exact howned.fields c hc d hd

/-- A method belongs to the class in which it is found. -/
theorem owner_of_method? (howned : p.MembersOwned) {m : MethodEntry}
    (hm : t.method? className name = some m) : m.owner = className := by
  rcases h.method?_cases hm with ⟨rfl, rfl, rfl⟩ | ⟨c, hc, rfl, d, hd, rfl, rfl⟩
  · rfl
  · exact howned.methods c hc d hd

end IsTableOf

end ClassTable

end MiniJava
