import MiniJava.Compiler
import MiniJava.Proofs.Lowering.Linking

/-!
# What can go wrong in code generation

Code generation has a dozen faults of its own, most of which say that a name means nothing. After
identification only two of them are left, those that concern the main method
(`generate_of_identify`).

The number of classes that have a main method decides between the cases (`findMain_cases`). A class
cannot have two of them, since its members have different names.
-/

namespace MiniJava

/-- Whether one of the methods can be the main method. -/
def ClassDecl.hasMain (c : ClassDecl) : Bool := c.methods.any (·.isMain)

/-! ## The main method -/

theorem name_of_isMain {m : MethodDecl} (h : m.isMain = true) : m.name.value = "main" := by
  simp only [MethodDecl.isMain, Bool.and_eq_true, decide_eq_true_eq] at h
  exact h.1.1.1.1

/-- Where no name occurs twice, at most one method is a main method. -/
theorem length_filter_isMain {methods : List MethodDecl}
    (h : (methods.map (·.name.value)).Nodup) :
    (methods.filter (·.isMain)).length = if methods.any (·.isMain) then 1 else 0 := by
  induction methods with
  | nil => rfl
  | cons m methods ih =>
    rw [List.map_cons, List.nodup_cons] at h
    cases hm : m.isMain with
    | false => simpa [hm] using ih h.2
    | true =>
      -- A second main method would have the same name.
      have hnone : methods.filter (·.isMain) = [] := by
        rw [List.filter_eq_nil_iff]
        intro other hother hmain
        refine h.1 (List.mem_map.mpr ⟨other, hother, ?_⟩)
        rw [name_of_isMain hmain, name_of_isMain hm]
      simp [hm, hnone]

/-- The main methods of a program. -/
def mainMethods (p : Program) : List (String × MethodDecl) :=
  (Lowering.methodsOf p).filter (·.2.isMain)

variable {p : Program} {table : ClassTable}

/-- There are as many main methods as there are classes that have one. -/
theorem length_mainMethods (h : ∀ c ∈ p.classes, (c.methods.map (·.name.value)).Nodup) :
    (mainMethods p).length = p.classes.countP (·.hasMain) := by
  unfold mainMethods Lowering.methodsOf
  revert h
  induction p.classes with
  | nil => exact fun _ => rfl
  | cons c _ ih =>
    intro h
    obtain ⟨hc, hcs⟩ := List.forall_mem_cons.mp h
    have hfilter : ((c.methods.map fun m => (c.name.value, m)).filter (·.2.isMain)).length =
        if c.hasMain then 1 else 0 := by
      rw [List.filter_map, List.length_map]
      exact length_filter_isMain hc
    rw [List.flatMap_cons, List.filter_append, List.length_append, hfilter, ih hcs,
      List.countP_cons, Nat.add_comm]

theorem methods_nodup (h : table.IsTableOf p) :
    ∀ c ∈ p.classes, (c.methods.map (·.name.value)).Nodup :=
  fun c hc => (List.nodup_append.mp (h.members_nodup c hc)).2.1

/-- The number of classes with a main method decides whether there is one to be called. -/
theorem findMain_cases (h : ∀ c ∈ p.classes, (c.methods.map (·.name.value)).Nodup) :
    (p.classes.countP (·.hasMain) = 0 ∧ findMain p = .error ⟨.noMain, none⟩) ∨
    (p.classes.countP (·.hasMain) = 1 ∧
      ∃ main ∈ (Lowering.methodsOf p).map Lowering.keyOf, findMain p = .ok main) ∨
    (2 ≤ p.classes.countP (·.hasMain) ∧
      ∃ span, findMain p = .error ⟨.duplicateMain, some span⟩) := by
  rw [← length_mainMethods h]
  unfold findMain
  rw [← mainMethods]
  match hmains : mainMethods p with
  | [] => exact .inl ⟨rfl, rfl⟩
  | [(className, m)] =>
    have hmem : (className, m) ∈ mainMethods p := by rw [hmains]; exact List.mem_singleton_self _
    exact .inr (.inl ⟨rfl, _, List.mem_map_of_mem (List.mem_filter.mp hmem).1, rfl⟩)
  | _ :: (_, second) :: rest =>
    exact .inr (.inr ⟨by simp, second.name.span, rfl⟩)

/-- The main method is one of the program's methods. -/
theorem findMain_eq_ok {main : MethodKey} (h : findMain p = .ok main) :
    ∃ method ∈ Lowering.methodsOf p, method.2.isMain = true ∧ Lowering.keyOf method = main := by
  unfold findMain at h
  split at h
  next => cases h
  next className m hmains =>
    cases h
    have hmem : (className, m) ∈ (Lowering.methodsOf p).filter (·.2.isMain) := by
      rw [hmains]
      exact List.mem_singleton_self _
    exact ⟨_, (List.mem_filter.mp hmem).1, (List.mem_filter.mp hmem).2, rfl⟩
  next => cases h

/-! ## Code generation -/

/-- Code generation asks for a main method, and for nothing else of a program that identification
accepts. -/
theorem generate_eq (howned : p.MembersOwned) (h : identify p = .ok table) :
    (∃ e, findMain p = .error e ∧ generate table p = .error e) ∨
    ∃ main code, findMain p = .ok main ∧ lower table main p = .ok code ∧
      generate table p = .ok (Image.ofCode code) := by
  have hnodup := methods_nodup (isTableOf_of_identify h)
  rcases findMain_cases hnodup with ⟨-, hmain⟩ | ⟨-, main, hmem, hmain⟩ | ⟨-, _, hmain⟩
  · exact .inl ⟨_, hmain, by rw [generate, hmain]; rfl⟩
  · obtain ⟨code, hcode⟩ := exists_lower h howned hmem
    refine .inr ⟨main, code, hmain, hcode, ?_⟩
    exact bind₂_eq_ok.mpr ⟨main, hmain, code, hcode, rfl⟩
  · exact .inl ⟨_, hmain, by rw [generate, hmain]; rfl⟩

theorem generate_eq_error_iff (howned : p.MembersOwned) (h : identify p = .ok table)
    (e : CodegenError) :
    generate table p = .error e ↔ findMain p = .error e := by
  rcases generate_eq howned h with ⟨_, hmain, hgenerate⟩ | ⟨_, _, hmain, -, hgenerate⟩
  · rw [hmain, hgenerate]
    simp
  · rw [hmain, hgenerate]
    simp

/-- A compilation that gets as far as code generation fails only for want of a main method. -/
theorem compile_eq_error_iff {source : String} (hp : parse source = .ok p)
    (h : identify p = .ok table) (htypes : typeCheck table p = []) (reports : List Diagnostic) :
    compile source = .error reports ↔
      ∃ e, findMain p = .error e ∧ reports = [e.diagnostic] := by
  have hcompile : compile source = (generate table p).mapError fun e => [e.diagnostic] := by
    simp only [compile, hp, h, Except.mapError, bind, Except.bind, htypes]
  rw [hcompile]
  constructor
  · intro herror
    cases hgenerate : generate table p with
    | ok _ => rw [hgenerate] at herror; cases herror
    | error e =>
      rw [hgenerate] at herror
      cases herror
      exact ⟨e, (generate_eq_error_iff (membersOwned_of_parse hp) h e).mp hgenerate, rfl⟩
  · rintro ⟨e, hmain, rfl⟩
    rw [(generate_eq_error_iff (membersOwned_of_parse hp) h e).mpr hmain]
    rfl

/-- After identification, code generation fails only for want of exactly one class with a main
method, whether it is asked for by itself or at the end of a compilation. The members of a program
are owned by their classes, as they are in every program that has been read. -/
theorem generate_of_identify {p : Program} {table : ClassTable} (h : identify p = .ok table) :
    (∀ source, parse source = .ok p → p.MembersOwned) ∧
    (p.MembersOwned →
      (∀ e, generate table p = .error e ↔ findMain p = .error e) ∧
      ∀ main, findMain p = .ok main → ∃ code, lower table main p = .ok code) ∧
    (p.classes.countP (·.hasMain) = 0 ↔ findMain p = .error ⟨.noMain, none⟩) ∧
    (p.classes.countP (·.hasMain) = 1 ↔ ∃ main, findMain p = .ok main) ∧
    (2 ≤ p.classes.countP (·.hasMain) ↔ ∃ span, findMain p = .error ⟨.duplicateMain, some span⟩) ∧
    CodegenFault.noMain.message = "no valid main method found" ∧
    CodegenFault.duplicateMain.message = "duplicate main methods found" ∧
    ∀ source q t, parse source = .ok q → identify q = .ok t → typeCheck t q = [] →
      ∀ reports, compile source = .error reports ↔
        ∃ e, findMain q = .error e ∧ reports = [e.diagnostic] := by
  have hcases := findMain_cases (methods_nodup (isTableOf_of_identify h))
  refine ⟨fun _ => membersOwned_of_parse, ?_, ?_, ?_, ?_, rfl, rfl, ?_⟩
  · intro howned
    refine ⟨generate_eq_error_iff howned h, ?_⟩
    intro main hmain
    rcases generate_eq howned h with ⟨_, hnone, -⟩ | ⟨_, code, hfound, hcode, -⟩
    · rw [hmain] at hnone
      cases hnone
    · rw [hmain] at hfound
      cases hfound
      exact ⟨code, hcode⟩
  · rcases hcases with ⟨hcount, hmain⟩ | ⟨hcount, main, -, hmain⟩ | ⟨hcount, span, hmain⟩
    · simp [hcount, hmain]
    · simp [hcount, hmain]
    · simp [hmain, show p.classes.countP (·.hasMain) ≠ 0 by omega]
  · rcases hcases with ⟨hcount, hmain⟩ | ⟨hcount, _, -, hmain⟩ | ⟨hcount, _, hmain⟩
    · simp [hcount, hmain]
    · simp [hcount, hmain]
    · simp [hmain, show p.classes.countP (·.hasMain) ≠ 1 by omega]
  · rcases hcases with ⟨hcount, hmain⟩ | ⟨hcount, _, -, hmain⟩ | ⟨hcount, _, hmain⟩
    · simp [hcount, hmain]
    · simp [hcount, hmain]
    · simp [hcount, hmain]
  · intro _ _ _ hq ht htypes
    exact compile_eq_error_iff hq ht htypes

/-- A program whose main method prints what a static field of another class holds. -/
def printingProgram : Program where
  classes :=
    [⟨Span.builtin, ⟨"Store", Span.builtin⟩,
      [⟨Span.builtin, false, true, ⟨.int, Span.builtin⟩, ⟨"held", Span.builtin⟩, "Store"⟩], []⟩,
     ⟨Span.builtin, ⟨"Start", Span.builtin⟩, [],
      [⟨Span.builtin, false, true, ⟨.void, Span.builtin⟩, ⟨"main", Span.builtin⟩, "Start",
        [⟨Span.builtin, ⟨.array (.object "String"), Span.builtin⟩, ⟨"args", Span.builtin⟩⟩],
        [.call Span.builtin
          (.member Span.builtin
            (.member Span.builtin (.name Span.builtin "System") ⟨"out", Span.builtin⟩)
            ⟨"println", Span.builtin⟩)
          [.ref (.member Span.builtin (.name Span.builtin "Store") ⟨"held", Span.builtin⟩)]]⟩]⟩]

theorem generate_printingProgram :
    printingProgram.MembersOwned ∧ ∃ table, identify printingProgram = .ok table ∧
      (∃ code, lower table ⟨"Start", "main"⟩ printingProgram = .ok code) ∧
      ∀ e, generate table printingProgram ≠ .error e := by
  have howned : printingProgram.MembersOwned := ⟨by decide, by decide⟩
  obtain ⟨herrors, hcode⟩ := (generate_of_identify (p := printingProgram) rfl).2.1 howned
  refine ⟨howned, _, rfl, hcode _ rfl, ?_⟩
  intro e herror
  cases (herrors e).mp herror

end MiniJava
