import MiniJava.Proofs.Grammar.Reading

/-!
# Owners of members

Every member of a class carries the name of its class. The tree of a program could hold any name
there; in a program that was read from a source it is always the right one.

The members of a program that was read are formed by tokens (`exists_formsMember_of_parse`), and the
grammar of members gives them the name of the class.
-/

namespace MiniJava

open Grammar

/-- Every member is owned by the class in which it is declared. -/
structure Program.MembersOwned (p : Program) : Prop where
  fields : ∀ c ∈ p.classes, ∀ f ∈ c.fields, f.owner = c.name.value
  methods : ∀ c ∈ p.classes, ∀ m ∈ c.methods, m.owner = c.name.value

namespace Grammar

theorem Many.exists_of_mem {α : Type} {L : Nonterminal α} {ts : List Terminal} {as : List α} {a : α}
    (h : Many L ts as) (ha : a ∈ as) : ∃ us, L us a := by
  induction h with
  | nil => cases ha
  | cons hfirst _ ih =>
    obtain rfl | ha := List.mem_cons.mp ha
    · exact ⟨_, hfirst⟩
    · exact ih ha

theorem mem_of_mem_filterMap_field {members : List Member} {f : FieldDecl}
    (hf : f ∈ members.filterMap Member.field?) : Member.field f ∈ members := by
  obtain ⟨member, hmember, heq⟩ := List.mem_filterMap.mp hf
  cases member with
  | field => cases heq; exact hmember
  | method => cases heq

theorem mem_of_mem_filterMap_method {members : List Member} {m : MethodDecl}
    (hm : m ∈ members.filterMap Member.method?) : Member.method m ∈ members := by
  obtain ⟨member, hmember, heq⟩ := List.mem_filterMap.mp hm
  cases member with
  | field => cases heq
  | method => cases heq; exact hmember

/-- The members of a program that was read are formed by tokens, as members of their classes. -/
theorem exists_formsMember_of_parse {source : String} {p : Program} (h : parse source = .ok p)
    {c : ClassDecl} (hc : c ∈ p.classes) :
    (∀ f ∈ c.fields, ∃ ts, FormsMember c.name.value ts (.field f)) ∧
      ∀ m ∈ c.methods, ∃ ts, FormsMember c.name.value ts (.method m) := by
  have hforms := formsProgram_of_parse h
  generalize terminalsOf source = ts at hforms
  obtain ⟨hclasses⟩ := hforms
  obtain ⟨_, ⟨hmembers⟩⟩ := hclasses.exists_of_mem hc
  constructor
  · intro f hf
    exact hmembers.exists_of_mem (mem_of_mem_filterMap_field hf)
  · intro m hm
    exact hmembers.exists_of_mem (mem_of_mem_filterMap_method hm)

end Grammar

/-- In a program that was read, every member is owned by the class in which it is declared. -/
theorem membersOwned_of_parse {source : String} {p : Program} (h : parse source = .ok p) :
    p.MembersOwned := by
  constructor
  · intro c hc f hf
    obtain ⟨_, hforms⟩ := (exists_formsMember_of_parse h hc).1 f hf
    cases hforms
    rfl
  · intro c hc m hm
    obtain ⟨_, hforms⟩ := (exists_formsMember_of_parse h hc).2 m hm
    cases hforms
    rfl

end MiniJava
