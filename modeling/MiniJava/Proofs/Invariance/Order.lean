import Mathlib.Data.List.Perm.Basic
import MiniJava.Proofs.Likeness.Builds
import MiniJava.Proofs.Scoping.References
import MiniJava.Proofs.Token.Tokens

/-!
# The order of declarations does not count

Classes may stand in any order, and so may the fields and the methods of a class. Names are looked
up in tables in which no name occurs twice, so every order of the declarations gives the same
answers (`field?_of_reordered`, `method?_of_reordered`), and no method leaves anything behind for
the next one. So two orders of one program are accepted both or not at all (`reordered_accepted`).

The images themselves may differ, since code and static fields lie in the order of the source.
-/

namespace MiniJava

/-! ## Reordered programs -/

/-- The same class with its fields and its methods in another order. -/
structure ClassDecl.Reordered (c c' : ClassDecl) : Prop where
  name : c.name = c'.name
  fields : c.fields.Perm c'.fields
  methods : c.methods.Perm c'.methods

/-- The same classes in another order, each with its members in another order. -/
def Program.Reordered (p p' : Program) : Prop :=
  ∃ classes, p.classes.Perm classes ∧ List.Forall₂ ClassDecl.Reordered classes p'.classes

theorem ClassDecl.Reordered.symm {c c' : ClassDecl} (h : c.Reordered c') : c'.Reordered c :=
  ⟨h.name.symm, h.fields.symm, h.methods.symm⟩

theorem Program.Reordered.symm {p p' : Program} (h : p.Reordered p') : p'.Reordered p := by
  obtain ⟨_, hperm, hclasses⟩ := h
  obtain ⟨classes', hclasses', hperm'⟩ := List.perm_comp_forall₂ hperm hclasses
  exact ⟨classes', hperm'.symm, hclasses'.flip.imp fun _ _ h => h.symm⟩

namespace Program.Reordered

variable {p p' : Program}

section

variable (h : p.Reordered p')
include h

theorem exists_class {c : ClassDecl} (hc : c ∈ p.classes) : ∃ c' ∈ p'.classes, c.Reordered c' := by
  obtain ⟨classes, hperm, hclasses⟩ := h
  have hmem := hperm.mem_iff.mp hc
  generalize p'.classes = others at hclasses
  clear hperm
  induction hclasses with
  | nil => cases hmem
  | @cons d d' _ _ hd _ ih =>
    rcases List.mem_cons.mp hmem with rfl | hmem
    · exact ⟨d', List.mem_cons_self, hd⟩
    · obtain ⟨c', hc', hreordered⟩ := ih hmem
      exact ⟨c', List.mem_cons_of_mem _ hc', hreordered⟩

/-- What is put together from parts that are reordered is reordered. -/
theorem flatMap_perm {α : Type} {f g : ClassDecl → List α}
    (hfg : ∀ c c', c.Reordered c' → (f c).Perm (g c')) :
    (p.classes.flatMap f).Perm (p'.classes.flatMap g) := by
  obtain ⟨_, hperm, hclasses⟩ := h
  refine (hperm.flatMap_right f).trans (List.Perm.flatten_congr ?_)
  rw [List.forall₂_map_left_iff, List.forall₂_map_right_iff]
  exact hclasses.imp hfg

theorem classNames_perm : p.classNames.Perm p'.classNames := by
  obtain ⟨classes, hperm, hclasses⟩ := h
  have hnames : classes.map (·.name.value) = p'.classes.map (·.name.value) :=
    map_eq_map_of_forall₂ hclasses fun c c' hc => congrArg Located.value hc.name
  refine List.Perm.append_left _ ?_
  rw [← hnames]
  exact hperm.map _

theorem membersOwned (howned : p.MembersOwned) : p'.MembersOwned := by
  constructor
  · intro _ hc' f hf
    obtain ⟨c, hc, hreordered⟩ := h.symm.exists_class hc'
    rw [hreordered.name]
    exact howned.fields c hc f (hreordered.fields.mem_iff.mp hf)
  · intro _ hc' m hm
    obtain ⟨c, hc, hreordered⟩ := h.symm.exists_class hc'
    rw [hreordered.name]
    exact howned.methods c hc m (hreordered.methods.mem_iff.mp hm)

/-! ## Tables -/

theorem exists_ofProgram {t : ClassTable} (ht : ClassTable.ofProgram p = .ok t) :
    ∃ t', ClassTable.ofProgram p' = .ok t' := by
  obtain ⟨hclasses, hmembers⟩ := ClassTable.exists_ofProgram_iff.mp ⟨t, ht⟩
  refine ClassTable.exists_ofProgram_iff.mpr ⟨h.classNames_perm.nodup_iff.mp hclasses, ?_⟩
  intro _ hc'
  obtain ⟨c, hc, hreordered⟩ := h.symm.exists_class hc'
  have hperm := (hreordered.fields.map (·.name.value)).append
    (hreordered.methods.map (·.name.value))
  exact hperm.nodup_iff.mpr (hmembers c hc)

variable {t t' : ClassTable}

theorem field?_of_reordered (ht : t.IsTableOf p) (ht' : t'.IsTableOf p') {className name : String}
    {f : FieldEntry} (hf : t.field? className name = some f) :
    t'.field? className name = some f := by
  -- The table holds one entry of this name, so the entries in front of it do not matter.
  rcases ht.field?_cases hf with ⟨rfl, rfl, rfl⟩ | ⟨_, hc, rfl, _, hd, rfl, rfl⟩
  · exact ht'.field?_out
  · obtain ⟨_, hc', hreordered⟩ := h.exists_class hc
    rw [hreordered.name]
    exact ht'.field?_of_mem hc' (hreordered.fields.mem_iff.mp hd)

theorem method?_of_reordered (ht : t.IsTableOf p) (ht' : t'.IsTableOf p') {className name : String}
    {m : MethodEntry} (hm : t.method? className name = some m) :
    t'.method? className name = some m := by
  rcases ht.method?_cases hm with ⟨rfl, rfl, rfl⟩ | ⟨_, hc, rfl, _, hd, rfl, rfl⟩
  · exact ht'.method?_print
  · obtain ⟨_, hc', hreordered⟩ := h.exists_class hc
    rw [hreordered.name]
    exact ht'.method?_of_mem hc' (hreordered.methods.mem_iff.mp hd)

/-- Both tables answer every question alike. -/
theorem similar (ht : t.IsTableOf p) (ht' : t'.IsTableOf p') :
    t.Similar t' where
  contains name := by
    rw [Bool.eq_iff_iff, ht.contains_iff, ht'.contains_iff, h.classNames_perm.mem_iff]
  field? className name := by
    refine congrArg _ (Option.ext fun f => ?_)
    exact ⟨h.field?_of_reordered ht ht', h.symm.field?_of_reordered ht' ht⟩
  method? className name := by
    refine congrArg _ (Option.ext fun m => ?_)
    exact ⟨h.method?_of_reordered ht ht', h.symm.method?_of_reordered ht' ht⟩

end

end Program.Reordered

/-! ## The phases -/

/-- Nothing may differ. -/
def Likeness.exact : Likeness := ⟨Eq, True⟩

theorem Likeness.Like.eq {α : Type} {a b : Located α} (h : Likeness.exact.Like a b) : a = b := by
  obtain ⟨value, span⟩ := a
  obtain ⟨value', span'⟩ := b
  obtain rfl : value = value' := h.value trivial
  obtain rfl : span = span' := h.span
  rfl

theorem ResultLike.eq {α φ : Type} {x y : Except (Located φ) α}
    (h : ResultLike Likeness.exact.Like Eq x y) : x = y := by
  cases h with
  | ok h => rw [h]
  | error h => rw [h.eq]

section

variable {p p' : Program} {t t' : ClassTable}

theorem checkType_similar (ht : t.Similar t') (type : Located Ty) :
    Identification.checkType t type = Identification.checkType t' type :=
  (Identification.checkType_alike (L := .exact) ht ⟨rfl, rfl⟩).eq

theorem identifyMethod_similar (ht : t.Similar t') (className : String) (m : MethodDecl) :
    Identification.checkMethod t className m = Identification.checkMethod t' className m :=
  (Identification.checkMethod_alike ht (methodAlike_refl (L := .exact) (fun _ => rfl) m)).eq

theorem typeMethod_similar (ht : t.Similar t') (className : String) (m : MethodDecl) :
    Typing.checkMethod t className m = Typing.checkMethod t' className m := by
  have hfaults : Typing.FaultsAlike .exact (Typing.checkMethod t className m)
      (Typing.checkMethod t' className m) :=
    Typing.checkMethod_alike ht (methodAlike_refl (fun _ => rfl) m)
  exact List.forall₂_eq_eq_eq ▸ hfaults.imp fun _ _ h => h.eq

/-- A class passes in any order of its members. -/
theorem checkClass_of_reordered (ht : t.Similar t') {c c' : ClassDecl} (hc : c.Reordered c')
    (h : Identification.checkClass t c = .ok ()) : Identification.checkClass t' c' = .ok () := by
  obtain ⟨hfields, hmethods⟩ := check_bind_eq_ok.mp h
  rw [forM_eq_ok_iff] at hfields hmethods
  refine check_bind_eq_ok.mpr ⟨forM_eq_ok_iff.mpr fun f hf => ?_, forM_eq_ok_iff.mpr fun m hm => ?_⟩
  · rw [← checkType_similar ht]
    exact hfields f (hc.fields.mem_iff.mpr hf)
  · rw [← identifyMethod_similar ht, ← hc.name]
    exact hmethods m (hc.methods.mem_iff.mpr hm)

theorem exists_identify_of_reordered (h : p.Reordered p') (ht : identify p = .ok t) :
    ∃ t', identify p' = .ok t' := by
  obtain ⟨_, hof, ⟨⟩, hclasses, hpure⟩ := bind₂_eq_ok.mp ht
  cases hpure
  obtain ⟨t', hof'⟩ := h.exists_ofProgram hof
  have hsimilar := h.similar (ClassTable.isTableOf_of_ofProgram hof)
    (ClassTable.isTableOf_of_ofProgram hof')
  refine ⟨t', bind_eq_ok.mpr ⟨t', hof', check_bind_eq_ok.mpr ⟨?_, rfl⟩⟩⟩
  rw [forM_eq_ok_iff] at hclasses ⊢
  intro _ hc'
  obtain ⟨c, hc, hreordered⟩ := h.symm.exists_class hc'
  exact checkClass_of_reordered hsimilar hreordered.symm (hclasses c hc)

theorem typeCheck_perm (h : p.Reordered p') (ht : t.Similar t') :
    (typeCheck t p).Perm (typeCheck t' p') := by
  refine h.flatMap_perm fun c c' hc => ?_
  -- A method is checked by itself, so only the order of the methods shows in the faults.
  rw [hc.name, funext (typeMethod_similar ht c'.name.value)]
  exact hc.methods.flatMap_right _

theorem methodsOf_perm (h : p.Reordered p') :
    (Lowering.methodsOf p).Perm (Lowering.methodsOf p') := by
  refine h.flatMap_perm fun c c' hc => ?_
  rw [hc.name]
  exact hc.methods.map _

theorem findMain_of_reordered (h : p.Reordered p') {main : MethodKey}
    (hmain : findMain p = .ok main) : findMain p' = .ok main := by
  have hperm := (methodsOf_perm h).filter (·.2.isMain)
  unfold findMain at hmain ⊢
  split at hmain
  next => cases hmain
  next hmains =>
    rw [hmains] at hperm
    -- There is one main method, so it is the only one in every order.
    rw [List.perm_singleton.mp hperm.symm]
    exact hmain
  next => cases hmain

theorem exists_build_of_reordered (h : p.Reordered p') (howned : p.MembersOwned)
    {image : List UInt8} (hbuild : p.build = .ok image) : ∃ image', p'.build = .ok image' := by
  obtain ⟨_, ht, htypes, main, hmain⟩ := (exists_build_iff howned).mp ⟨image, hbuild⟩
  obtain ⟨t', ht'⟩ := exists_identify_of_reordered h ht
  refine (exists_build_iff (h.membersOwned howned)).mpr
    ⟨t', ht', ?_, main, findMain_of_reordered h hmain⟩
  have hsimilar := h.similar (isTableOf_of_identify ht) (isTableOf_of_identify ht')
  have hperm := typeCheck_perm h hsimilar
  rw [htypes] at hperm
  exact List.nil_perm.mp hperm

/-- A program and one with its declarations in another order pass identification both or not at all,
have the same type faults and the same main method, and are accepted both or not at all. -/
theorem reordered_accepted {source : String} (hp : parse source = .ok p) (h : p.Reordered p') :
    ((∃ t, identify p = .ok t) ↔ ∃ t', identify p' = .ok t') ∧
    (∀ t t', identify p = .ok t → identify p' = .ok t' → (typeCheck t p).Perm (typeCheck t' p')) ∧
    (∀ main, findMain p = .ok main ↔ findMain p' = .ok main) ∧
    ((∃ image, p.build = .ok image) ↔ ∃ image, p'.build = .ok image) := by
  have howned := membersOwned_of_parse hp
  refine ⟨⟨?_, ?_⟩, ?_, ?_, ⟨?_, ?_⟩⟩
  · exact fun ⟨t, ht⟩ => exists_identify_of_reordered h ht
  · exact fun ⟨t', ht'⟩ => exists_identify_of_reordered h.symm ht'
  · intro _ _ ht ht'
    exact typeCheck_perm h (h.similar (isTableOf_of_identify ht) (isTableOf_of_identify ht'))
  · exact fun main => ⟨findMain_of_reordered h, findMain_of_reordered h.symm⟩
  · exact fun ⟨image, hbuild⟩ => exists_build_of_reordered h howned hbuild
  · exact fun ⟨image, hbuild⟩ => exists_build_of_reordered h.symm (h.membersOwned howned) hbuild

end

/-- A program from back to front. -/
def Program.reversed (p : Program) : Program :=
  ⟨p.classes.reverse.map fun c =>
    { c with fields := c.fields.reverse, methods := c.methods.reverse }⟩

theorem reordered_reversed (p : Program) : p.Reordered p.reversed := by
  refine ⟨p.classes.reverse, p.classes.reverse_perm.symm, List.forall₂_map_right_iff.mpr ?_⟩
  exact List.forall₂_same.mpr fun c _ =>
    ⟨rfl, c.fields.reverse_perm.symm, c.methods.reverse_perm.symm⟩

/-- Two classes that use each other, and fields that are used in front of their declarations. -/
def mutualSource : String :=
  "class A\x7bB b;int f()\x7breturn b.g()+n;\x7dint n;\x7d" ++
    "class B\x7bint g()\x7breturn s.n;\x7dstatic A s;" ++
    "public static void main(String[]a)\x7bs=new A();\x7d\x7d"

set_option maxRecDepth 6000 in
theorem parse_mutualSource :
    ∃ p t, parse mutualSource = .ok p ∧ identify p = .ok t ∧ typeCheck t p = [] ∧
      findMain p = .ok ⟨"B", "main"⟩ := by
  rw [parse, TokenStream.ofSource, lex_eq_tokensWithin]
  exact ⟨_, _, rfl, rfl, rfl, rfl⟩

theorem reordered_accepted_mutualSource :
    ∃ p image, parse mutualSource = .ok p ∧ p.Reordered p.reversed ∧
      p.reversed.build = .ok image := by
  obtain ⟨p, t, hp, ht, htypes, hmain⟩ := parse_mutualSource
  have h := reordered_reversed p
  have hbuild := (exists_build_iff (membersOwned_of_parse hp)).mpr ⟨t, ht, htypes, _, hmain⟩
  obtain ⟨image, himage⟩ := (reordered_accepted hp h).2.2.2.mp hbuild
  exact ⟨p, image, hp, h, himage⟩

end MiniJava
