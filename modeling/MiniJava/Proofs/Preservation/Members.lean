import MiniJava.Proofs.Preservation.Words

/-!
# Where members lie

Every static field has one word at the beginning of the stack, and every instance field
one word in each object of its class. Both follow from identification: no class and no
member is declared twice (`nodup_members`, `nodup_fieldNames`). A change of a field is
therefore the change of one word (`staticWords_setStatic`, `blockWords_setField`).

The sizes are bounded by that of the program, so all displacements fit into 32 bits.
-/

namespace MiniJava

open List

variable {className name : String}

namespace ClassTable.IsTableOf

variable {table : ClassTable} {p : Program} (h : table.IsTableOf p)
include h

/-- Members of all classes are told apart by the class and the name, where those of each class
have different names. -/
theorem nodup_members {α : Type} {key : String → String → α}
    (hkey : ∀ {c n c' n'}, key c n = key c' n' → c = c' ∧ n = n') {names : ClassDecl → List String}
    (hnames : ∀ c ∈ p.classes, (names c).Nodup) :
    (p.classes.flatMap fun c => (names c).map (key c.name.value)).Nodup := by
  have hclasses := h.names_nodup
  rw [h.classes, map_append, map_map, nodup_append] at hclasses
  refine nodup_flatMap.mpr ⟨?_, (pairwise_map.mp hclasses.2.1).imp ?_⟩
  · intro c hc
    exact (hnames c hc).map fun x y heq => (hkey heq).2
  · intro c d hne x hx hx'
    obtain ⟨_, -, rfl⟩ := mem_map.mp hx
    obtain ⟨_, -, heq⟩ := mem_map.mp hx'
    exact hne (hkey heq).1.symm

/-- No static field has two words. -/
theorem nodup_statics : (Lowering.StaticArea.ofProgram p).fields.Nodup := by
  have hnames := h.names_nodup
  rw [h.classes, map_append, map_map, nodup_append] at hnames
  have hfields : (p.classes.flatMap fun c =>
      ((c.fields.filter (·.isStatic)).map (·.name.value)).map (Prod.mk c.name.value)).Nodup := by
    refine h.nodup_members Prod.mk.inj fun c hc => ?_
    exact (nodup_append.mp (h.members_nodup c hc)).1.sublist (filter_sublist.map _)
  simp only [map_map] at hfields
  refine nodup_cons.mpr ⟨?_, hfields⟩
  intro hmem
  obtain ⟨c, hc, hmem⟩ := mem_flatMap.mp hmem
  obtain ⟨_, -, heq⟩ := mem_map.mp hmem
  refine hnames.2.2 systemClass (by decide) c.name.value (mem_map_of_mem hc) ?_
  exact (congrArg Prod.fst heq).symm

/-- No method has code twice. -/
theorem nodup_methodKeys : ((Lowering.methodsOf p).map Lowering.keyOf).Nodup := by
  have hkeys : (p.classes.flatMap fun c =>
      (c.methods.map (·.name.value)).map (MethodKey.mk c.name.value)).Nodup := by
    refine h.nodup_members MethodKey.mk.inj fun c hc => ?_
    exact (nodup_append.mp (h.members_nodup c hc)).2.1
  simp only [map_map] at hkeys
  rw [Lowering.methodsOf, map_flatMap]
  simp only [map_map]
  exact hkeys

/-- The instance fields of a class of the program are among its fields, and the built-in classes
have none. -/
theorem instanceFields_cases {entry : ClassEntry} (hc : table.class? className = some entry) :
    entry.instanceFields = [] ∨ ∃ c ∈ p.classes,
      (entry.instanceFields.map (·.1)).Sublist (c.fields.map (·.name.value)) := by
  rcases h.class?_cases hc with hb | ⟨c, hmem, -, rfl⟩
  · simp only [builtin, mem_cons, not_mem_nil, or_false, Prod.mk.injEq] at hb
    rcases hb with ⟨-, rfl⟩ | ⟨-, rfl⟩ | ⟨-, rfl⟩ <;> exact .inl rfl
  · refine .inr ⟨c, hmem, ?_⟩
    have hsub : (ClassEntry.members c).instanceFields.Sublist
        (c.fields.map fun f => (f.name.value, FieldEntry.ofDecl f)) := filter_sublist
    have hmap := hsub.map (·.1)
    rwa [map_map] at hmap

end ClassTable.IsTableOf

namespace Lowering.StaticArea

theorem displacement?_eq_some {area : StaticArea} {disp : Int}
    (h : area.displacement? className name = some disp) :
    ∃ i, area.fields[i]? = some (className, name) ∧ disp = -(wordSize * (i + 1) : Nat) := by
  obtain ⟨i, hi, rfl⟩ := Option.map_eq_some_iff.mp h
  have hmem := mem_reverse.mp (mem_of_lookup hi)
  exact ⟨i, mem_zipIdx_iff_getElem?.mp hmem, rfl⟩

theorem eraseDups_of_nodup {α : Type} [BEq α] [LawfulBEq α] {l : List α} (h : l.Nodup) :
    l.eraseDups = l := by
  induction l with
  | nil => rfl
  | cons a l ih =>
    obtain ⟨ha, hl⟩ := nodup_cons.mp h
    have hfilter : l.filter (fun b => !b == a) = l := by
      rw [filter_eq_self]
      intro b hb
      have hne : b ≠ a := fun heq => ha (heq ▸ hb)
      simpa using hne
    rw [eraseDups_cons, hfilter, ih hl]

theorem length_fields_le (p : Program) : (ofProgram p).fields.length ≤ p.nodes + 1 := by
  have hsum : ∀ cs : List ClassDecl, (cs.flatMap fun c => (c.fields.filter (·.isStatic)).map
      fun f => (c.name.value, f.name.value)).length ≤ (cs.map (·.nodes)).sum := by
    intro cs
    induction cs with
    | nil => exact Nat.le_refl 0
    | cons c =>
      have hfilter : (c.fields.filter (·.isStatic)).length ≤ c.fields.length := length_filter_le _ _
      rw [flatMap_cons, length_append, length_map, map_cons, sum_cons, ClassDecl.nodes]
      omega
  have hclasses := hsum p.classes
  rw [ofProgram, length_cons]
  exact Nat.succ_le_succ hclasses

end Lowering.StaticArea

namespace Preservation

open Semantics Execution

/-- Where no item occurs twice, a change of what belongs to one item is a change in one place. -/
theorem map_eq_set_of_nodup {α β : Type} {l : List α} (hl : l.Nodup) {f g : α → β} {i : Nat} {a : α}
    (hi : l[i]? = some a) (hg : ∀ x, x ≠ a → g x = f x) : l.map g = (l.map f).set i (g a) := by
  apply ext_getElem?
  intro j
  rw [getElem?_map, getElem?_set]
  split
  next heq =>
    subst heq
    rw [List.length_map, if_pos (List.getElem?_eq_some_iff.mp hi).1, hi, Option.map_some]
  next hne =>
    rw [getElem?_map]
    cases hj : l[j]? with
    | none => rfl
    | some b =>
      -- No element occurs twice, so another place holds another element.
      have hb : b ≠ a := by
        rintro rfl
        exact hne ((List.getElem?_inj (List.getElem?_eq_some_iff.mp hi).1 hl).mp (hi.trans hj.symm))
      rw [Option.map_some, Option.map_some, hg b hb]

section

variable {L : Layout} {table : ClassTable} {p : Program} (h : table.IsTableOf p)
include h

theorem nodup_fieldNames (className : String) : (fieldNames table className).Nodup := by
  rw [fieldNames]
  cases hc : table.class? className with
  | none => exact nodup_nil
  | some _ =>
    rcases h.instanceFields_cases hc with hnil | ⟨c, hc, hsub⟩
    · rw [Option.elim_some, hnil]
      exact nodup_nil
    · exact (nodup_append.mp (h.members_nodup c hc)).1.sublist hsub

theorem length_fieldNames_le (className : String) :
    (fieldNames table className).length ≤ p.nodes := by
  rw [fieldNames]
  cases hc : table.class? className with
  | none => exact Nat.zero_le _
  | some _ =>
    rcases h.instanceFields_cases hc with hnil | ⟨c, hc, hsub⟩
    · rw [Option.elim_some, hnil]
      exact Nat.zero_le _
    · have hlength := hsub.length_le.trans_eq (length_map _)
      have hclass := ClassDecl.nodes_le hc
      rw [ClassDecl.nodes] at hclass
      exact hlength.trans (by omega)

/-- A static field is set by setting its word. -/
theorem staticWords_setStatic {i : Nat}
    (hi : (Lowering.StaticArea.ofProgram p).fields[i]? = some (className, name)) (st : State)
    (v : Value) :
    staticWords L (.ofProgram p) (st.setStatic className name v) =
      (staticWords L (.ofProgram p) st).set i (encode L v) := by
  have hset := map_eq_set_of_nodup h.nodup_statics
    (f := fun (x : String × String) => encode L (st.statics x.1 x.2))
    (g := fun (x : String × String) => encode L ((st.setStatic className name v).statics x.1 x.2))
    hi (by
      rintro ⟨c, n⟩ hne
      dsimp only [State.setStatic]
      split
      next hc =>
        rw [setField, if_neg]
        rintro rfl
        exact hne (by rw [hc])
      next => rfl)
  rw [staticWords, staticWords]
  refine hset.trans (congrArg _ ?_)
  simp [State.setStatic, setField]

/-- An instance field is set by setting its word. -/
theorem blockWords_setField {j : Nat} (hj : (fieldNames table className)[j]? = some name)
    (fields : String → Value) (v : Value) :
    blockWords L table (.object className (setField fields name v)) =
      (blockWords L table (.object className fields)).set j (encode L v) := by
  have hlt := (List.getElem?_eq_some_iff.mp hj).1
  have hset := map_eq_set_of_nodup (nodup_fieldNames h className)
    (f := fun x => encode L (fields x)) (g := fun x => encode L (setField fields name v x)) hj
    (fun x hne => by rw [setField, if_neg hne])
  have hname : setField fields name v name = v := if_pos rfl
  rw [hname] at hset
  simp only [blockWords, length_map]
  rw [set_append_left _ _ (by rw [length_map]; exact hlt), hset]

end

/-- The byte offset of a field is that of its word. -/
theorem fieldOffset?_eq_some {table : ClassTable} {offset : Nat}
    (h : (table.class? className).bind (·.fieldOffset? name) = some offset) :
    ∃ j, (fieldNames table className)[j]? = some name ∧ offset = 8 * j := by
  obtain ⟨_, hc, hoffset⟩ := Option.bind_eq_some_iff.mp h
  obtain ⟨j, hj, rfl⟩ := Option.map_eq_some_iff.mp hoffset
  obtain ⟨hlt, hname, -⟩ := findIdx?_eq_some_iff_getElem.mp hj
  refine ⟨j, ?_, rfl⟩
  rw [fieldNames, hc, Option.elim_some, getElem?_map, getElem?_eq_getElem hlt, Option.map_some]
  exact congrArg some (by simpa using hname)

end Preservation

end MiniJava
