import MiniJava.Proofs.Likeness.Identification
import MiniJava.Proofs.Likeness.Lowering
import MiniJava.Proofs.Likeness.Typing
import MiniJava.Proofs.Lowering.Totality

/-!
# Compilation of programs that are alike

Behind the parser, compilation is a function of the tree (`Program.build`). Its phases go through
programs that are alike in step.
-/

namespace MiniJava

open Lowering (SameResult)

/-- What compilation makes of a program that has been parsed. -/
def Program.build (p : Program) : Except (List Diagnostic) (List UInt8) := do
  let table ← (identify p).mapError fun fault => [ScopeFault.diagnostic fault]
  match typeCheck table p with
  | [] => (generate table p).mapError fun e => [e.diagnostic]
  | faults => .error (faults.map TypeFault.diagnostic)

theorem compile_eq_build (source : String) : compile source = parse source >>= Program.build := rfl

/-- Reports of one phase that say the same if the variables have kept their names. -/
structure ReportAlike (L : Likeness) (d d' : Diagnostic) : Prop where
  kind : d.kind = d'.kind
  text : L.kept → d.text = d'.text

variable {L : Likeness} {p p' : Program}

theorem build_eq_ok_iff {image : List UInt8} :
    p.build = .ok image ↔ ∃ table, identify p = .ok table ∧ typeCheck table p = [] ∧
      generate table p = .ok image := by
  rw [Program.build]
  cases hidentify : identify p with
  | error _ => simp [Except.mapError, bind, Except.bind]
  | ok table =>
    simp only [Except.mapError, bind, Except.bind, Except.ok.injEq, exists_eq_left']
    cases htypes : typeCheck table p with
    | nil => cases generate table p <;> simp
    | cons _ _ => simp

/-- A program that passes identification has an image if it is well-typed and has a main method. -/
theorem exists_build_iff (howned : p.MembersOwned) :
    (∃ image, p.build = .ok image) ↔
      ∃ t, identify p = .ok t ∧ typeCheck t p = [] ∧ ∃ main, findMain p = .ok main := by
  constructor
  · rintro ⟨_, hbuild⟩
    obtain ⟨t, ht, htypes, hgenerate⟩ := build_eq_ok_iff.mp hbuild
    obtain ⟨main, hmain, -⟩ := bind_eq_ok.mp hgenerate
    exact ⟨t, ht, htypes, main, hmain⟩
  · rintro ⟨t, ht, htypes, _, hmain⟩
    rcases generate_eq howned ht with ⟨_, hnone, -⟩ | ⟨_, _, -, -, hgenerate⟩
    · rw [hmain] at hnone
      cases hnone
    · exact ⟨_, build_eq_ok_iff.mpr ⟨t, ht, htypes, hgenerate⟩⟩

theorem generate_alike {t t' : ClassTable} (ht : t.bare = t'.bare) (h : ProgramAlike L p p') :
    SameResult (generate t p) (generate t' p') := by
  refine ResultLike.bind ((findMain_alike h).mono (fun _ _ _ => trivial) fun _ _ h => h) ?_
  rintro main _ rfl
  exact (lower_alike ht main h).bind fun _ => .ok rfl

/-- After identification the faults of code generation are the same as well. -/
theorem generateFault_alike {t t' : ClassTable} (ht : t.bare = t'.bare) (h : ProgramAlike L p p')
    (howned : p.MembersOwned) (hp : identify p = .ok t) :
    ResultLike (fun e e' => e.fault = e'.fault) Eq (generate t p) (generate t' p') := by
  rcases generate_eq howned hp with ⟨_, hmain, hgenerate⟩ | ⟨_, _, -, -, hgenerate⟩
  · have hmains := findMain_alike h
    rw [hgenerate, generate]
    rw [hmain] at hmains
    generalize findMain p' = main' at hmains
    cases hmains with
    | error hfault => exact .error hfault
  · obtain ⟨_, himage, rfl⟩ := (generate_alike ht h).exists_ok hgenerate
    rw [hgenerate, himage]
    exact .ok rfl

/-- Programs that are alike have the same image, or as many reports from the same phase, which say
the same if the variables have kept their names. -/
theorem build_alike (h : ProgramAlike L p p') (howned : p.MembersOwned) :
    ResultLike (List.Forall₂ (ReportAlike L)) Eq p.build p'.build := by
  rw [Program.build, Program.build]
  refine ((identify_alike h).attach.mapError fun fault fault' hfault => ?_).bind ?_
  · exact .cons ⟨rfl, fun hkept => congrArg ScopeFault.message (hfault.value hkept)⟩ .nil
  · rintro t t' ⟨hp, -, ht⟩
    have htypes := typeCheck_alike (ClassTable.similar_of_bare_eq ht) h
    generalize typeCheck t p = faults at htypes
    generalize typeCheck t' p' = faults' at htypes
    cases htypes with
    | nil =>
      refine (generateFault_alike ht h howned hp).mapError fun e e' hfault => ?_
      exact .cons ⟨rfl, fun _ => congrArg CodegenFault.message hfault⟩ .nil
    | cons hfault hfaults =>
      refine .error ?_
      rw [List.forall₂_map_left_iff, List.forall₂_map_right_iff]
      refine (List.Forall₂.cons hfault hfaults).imp fun a b hab => ?_
      exact ⟨rfl, fun hkept => congrArg TypeFault.message (hab.value hkept)⟩

/-- Of two programs that are alike, one has an image if the other has, and it is the same. -/
theorem build_eq_ok_of_alike (h : ProgramAlike L p p') {image : List UInt8}
    (hbuild : p.build = .ok image) : p'.build = .ok image := by
  obtain ⟨_, hidentify, htypes, hgenerate⟩ := build_eq_ok_iff.mp hbuild
  obtain ⟨t', hidentify', ht⟩ := (identify_alike h).exists_ok hidentify
  obtain ⟨_, hgenerate', rfl⟩ := (generate_alike ht h).exists_ok hgenerate
  have htypes' := typeCheck_alike (ClassTable.similar_of_bare_eq ht) h
  rw [htypes] at htypes'
  exact build_eq_ok_iff.mpr ⟨t', hidentify', List.forall₂_nil_left_iff.mp htypes', hgenerate'⟩

end MiniJava
