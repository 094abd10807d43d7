import MiniJava.Proofs.Grammar.Owners
import MiniJava.Proofs.Typing.Rules

/-!
# Types that are read

The tree of a program could hold any type where a type is written, also the type of `null` or the
erroneous one. What was read from a source holds only types that can be written
(`typesWritten_of_parse`).
-/

namespace MiniJava

namespace Grammar

theorem isWritten_of_formsType {ts : List Terminal} {type : Ty} (h : FormsType ts type) :
    type.IsWritten := by
  cases h with
  | int => exact .int
  | intArray => exact .intArray
  | boolean => exact .boolean
  | object => exact .object _
  | objectArray => exact .objectArray _

theorem isWritten_of_formsResult {ts : List Terminal} {type : Ty} (h : FormsResult ts type) :
    type = .void ∨ type.IsWritten := by
  cases h with
  | void => exact .inl rfl
  | type h => exact .inr (isWritten_of_formsType h)

theorem isWritten_of_formsParams {ts : List Terminal} {params : List Param}
    (h : FormsParams ts params) : ∀ q ∈ params, q.type.value.IsWritten := by
  have hparam : ∀ {ts q}, FormsParam ts q → q.type.value.IsWritten := by
    intro _ _ hq
    cases hq with
    | mk htype => exact isWritten_of_formsType htype
  cases h with
  | none => exact List.forall_mem_nil _
  | some h =>
    induction h with
    | single hq => exact List.forall_mem_singleton.mpr (hparam hq)
    | cons hq _ ih => exact List.forall_mem_cons.mpr ⟨hparam hq, ih⟩

mutual

theorem isWritten_of_formsStmt (s : Stmt) {ts : List Terminal} (h : FormsStmt ts s) :
    ∀ t ∈ s.declaredTypes, t.IsWritten := by
  cases h with
  | block h => exact isWritten_of_many _ h
  | declare htype => exact List.forall_mem_singleton.mpr (isWritten_of_formsType htype)
  | ifThen _ hthen =>
    have hwritten := isWritten_of_formsStmt _ hthen
    exact hwritten
  | ifThenElse _ hthen helse =>
    exact List.forall_mem_append.mpr ⟨isWritten_of_formsStmt _ hthen,
      isWritten_of_formsStmt _ helse⟩
  | loop _ hbody =>
    have hwritten := isWritten_of_formsStmt _ hbody
    exact hwritten
  | _ => exact List.forall_mem_nil _

theorem isWritten_of_many (ss : List Stmt) {ts : List Terminal} (h : Many FormsStmt ts ss) :
    ∀ t ∈ Stmt.declaredTypesOf ss, t.IsWritten := by
  cases h with
  | nil => exact List.forall_mem_nil _
  | cons hs hss =>
    exact List.forall_mem_append.mpr ⟨isWritten_of_formsStmt _ hs, isWritten_of_many _ hss⟩

end

end Grammar

open Grammar

/-- Every declared type of a program that was read can be written. -/
theorem typesWritten_of_parse {source : String} {p : Program} (h : parse source = .ok p) :
    p.TypesWritten := by
  refine ⟨fun c hc f hf => ?_, fun c hc m hm => ?_, fun c hc m hm => ?_, fun c hc m hm => ?_⟩
  · obtain ⟨_, hforms⟩ := (exists_formsMember_of_parse h hc).1 f hf
    cases hforms with
    | field _ _ htype => exact isWritten_of_formsType htype
  all_goals
    obtain ⟨_, hforms⟩ := (exists_formsMember_of_parse h hc).2 m hm
    cases hforms with | method _ _ hreturns hparams hbody => ?_
  · exact isWritten_of_formsResult hreturns
  · exact isWritten_of_formsParams hparams
  · exact isWritten_of_many _ hbody

end MiniJava
