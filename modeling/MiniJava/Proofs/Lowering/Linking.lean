import MiniJava.Lowering.Program
import MiniJava.Proofs.Grammar.Owners
import MiniJava.Proofs.Lowering.Targets
import MiniJava.Proofs.Machine.Disassembly
import MiniJava.Proofs.Resolution.Lockstep

/-!
# Linking

The code of a program is put together from the code of its methods, and then every
label is replaced by an index. `programCode_eq_ok` says what comes out for a program
that identification has accepted: no method lacks code and no label is left over.
Where linking succeeds, for whatever reason, no branch leads out of the code
(`target_le_length_linkedCode`).
-/

namespace MiniJava

open List

namespace Lowering

variable {table : ClassTable} {p : Program} {statics : StaticArea} {main : MethodKey}
  {entries : List (MethodKey × Nat)} {code : LabelledCode}

/-- The key of a method in its class. -/
def keyOf (method : String × MethodDecl) : MethodKey := ⟨method.1, method.2.name.value⟩

theorem mem_methodsOf {className : String} {m : MethodDecl} :
    (className, m) ∈ methodsOf p ↔ ∃ c ∈ p.classes, m ∈ c.methods ∧ c.name.value = className := by
  simp only [methodsOf, mem_flatMap, mem_map, Prod.mk.injEq]
  constructor
  · rintro ⟨c, hc, m, hm, rfl, rfl⟩
    exact ⟨c, hc, hm, rfl⟩
  · rintro ⟨c, hc, hm, rfl⟩
    exact ⟨c, hc, m, hm, rfl, rfl⟩

/-! ## The code of the methods -/

theorem codeWithin_methodCode {className : String} {start : Nat} {m : MethodDecl}
    (h : methodCode table statics className start m = .ok code) :
    CodeWithin table start (start + code.length) code := by
  obtain ⟨⟨body, _⟩, hbody, ⟨⟩⟩ := bind_eq_ok.mp h
  rw [codeWithin_append, codeWithin_append]
  refine ⟨⟨codeWithin_enter, ?_⟩, codeWithin_leave⟩
  refine codeWithin_mono (Site.codeWithin_stmtsCode m.body hbody) (by omega) ?_
  rw [length_append, length_append]
  omega

/-- What the code of methods in turn looks like from outside. -/
theorem methodsCode_spec {start : Nat} {methods : List (String × MethodDecl)}
    (h : methodsCode table statics start methods = .ok (code, entries)) :
    entries.map (·.1) = methods.map keyOf ∧
    (∀ entry ∈ entries, entry.2 ≤ start + code.length) ∧
    CodeWithin table start (start + code.length) code := by
  induction methods generalizing start code entries with
  | nil =>
    cases h
    exact ⟨rfl, by simp, codeWithin_nil⟩
  | cons method _ ih =>
    obtain ⟨_, _⟩ := method
    obtain ⟨_, hfirst, ⟨_, _⟩, hothers, ⟨⟩⟩ := bind₂_eq_ok.mp h
    obtain ⟨hkeys, hindices, hwithin⟩ := ih hothers
    rw [length_append]
    refine ⟨by rw [map_cons, hkeys]; rfl, ?_, ?_⟩
    · rw [forall_mem_cons]
      refine ⟨by dsimp only; omega, fun entry hentry => ?_⟩
      have hindex := hindices entry hentry
      omega
    · rw [codeWithin_append]
      exact ⟨codeWithin_mono (codeWithin_methodCode hfirst) (by omega) (by omega),
        codeWithin_mono hwithin (by omega) (by omega)⟩

theorem exists_methodCode (h : identify p = .ok table) {c : ClassDecl} (hc : c ∈ p.classes)
    {m : MethodDecl} (hm : m ∈ c.methods) (start : Nat) :
    ∃ code, methodCode table (.ofProgram p) c.name.value start m = .ok code := by
  obtain ⟨_, _, -, haligned, hbody⟩ := checkStmts_of_identify h hc hm
  obtain ⟨_, _, hcode, -⟩ := exists_stmtsCode
    (staticsPlaced_ofMethod (isTableOf_of_identify h) c.name.value m) haligned m.body hbody
    (start + (Routine.enter : LabelledCode).length)
  exact ⟨_, bind_eq_ok.mpr ⟨_, hcode, rfl⟩⟩

theorem exists_methodsCode (methods : List (String × MethodDecl))
    (h : ∀ method ∈ methods, ∀ start, ∃ code, methodCode table statics method.1 start method.2 =
      .ok code)
    (start : Nat) : ∃ result, methodsCode table statics start methods = .ok result := by
  induction methods generalizing start with
  | nil => exact ⟨_, rfl⟩
  | cons method _ ih =>
    obtain ⟨_, _⟩ := method
    obtain ⟨code, hcode⟩ := h _ mem_cons_self start
    obtain ⟨⟨_, _⟩, hothers⟩ :=
      ih (fun method hm => h method (mem_cons_of_mem _ hm)) (start + code.length)
    exact ⟨_, bind₂_eq_ok.mpr ⟨_, hcode, _, hothers, rfl⟩⟩

/-! ## Labels -/

/-- The index of a label that is known. -/
def labelIndex (entries : List (MethodKey × Nat)) (printLine : Nat) : Label → Nat
  | .index n => n
  | .method className name => (entries.reverse.lookup ⟨className, name⟩).getD 0
  | .printLine => printLine

/-- A method with an entry can be called. -/
theorem exists_lookup_of_mem {key : MethodKey} (h : key ∈ entries.map (·.1)) :
    ∃ n, entries.reverse.lookup key = some n ∧ (key, n) ∈ entries := by
  obtain ⟨entry, hmem, hkey⟩ := mem_map.mp h
  cases hl : entries.reverse.lookup key with
  | none =>
    have hne := lookup_eq_none_iff.mp hl entry (mem_reverse.mpr hmem)
    simp [hkey] at hne
  | some n => exact ⟨n, rfl, mem_reverse.mp (mem_of_lookup hl)⟩

/-- Where no method has two entries, its label stands for its entry. -/
theorem labelIndex_method (hnodup : (entries.map (·.1)).Nodup) {className name : String} {n : Nat}
    (h : (⟨className, name⟩, n) ∈ entries) (printLine : Nat) :
    labelIndex entries printLine (.method className name) = n := by
  obtain ⟨_, hlookup, hmem⟩ := exists_lookup_of_mem (mem_map_of_mem h)
  have heq := inj_on_of_nodup_map hnodup hmem h rfl
  rw [labelIndex, hlookup]
  exact congrArg Prod.snd heq

/-- Every method that code calls has an entry. -/
def CallsEntered (entries : List (MethodKey × Nat)) (code : LabelledCode) : Prop :=
  ∀ i ∈ code, ∀ className name, i.target? = some (.method className name) →
    MethodKey.mk className name ∈ entries.map (·.1)

theorem CallsEntered.resolveLabel_eq (h : CallsEntered entries code) (printLine : Nat)
    {i : Instr Label} (hi : i ∈ code) {label : Label} (ht : i.target? = some label) :
    resolveLabel entries printLine label = .ok (labelIndex entries printLine label) := by
  cases label with
  | index => rfl
  | printLine => rfl
  | method className name =>
    obtain ⟨_, hn, -⟩ := exists_lookup_of_mem (h i hi className name ht)
    simp [resolveLabel, labelIndex, hn]

theorem link_eq_ok {printLine : Nat} (h : CallsEntered entries code) :
    link entries printLine code = .ok (code.map (·.map (labelIndex entries printLine))) := by
  apply mapM_eq_ok
  intro i hi
  have hlabel := fun label => @h.resolveLabel_eq _ _ printLine i hi label
  cases i with
  | op | ret => rfl
  | jump t | jumpIf c t | call t => simp [Instr.traverse, hlabel t rfl, Instr.map]

theorem traverse_of_target? {i : Instr Label} {label : Label} (h : i.target? = some label)
    (resolve : Label → Result Nat) :
    i.traverse resolve = (fun n => i.map fun _ => n) <$> resolve label := by
  cases i <;> cases h <;> rfl

theorem callsEntered_of_link {printLine : Nat} {out : List (Instr Nat)}
    (h : link entries printLine code = .ok out) :
    CallsEntered entries code := by
  intro i hi className name ht
  obtain ⟨_, hj⟩ := exists_of_mapM_eq_ok h i hi
  rw [traverse_of_target? ht] at hj
  obtain ⟨_, hn, -⟩ := map_eq_ok.mp hj
  cases hlookup : entries.reverse.lookup ⟨className, name⟩ with
  | none =>
    rw [resolveLabel, hlookup] at hn
    cases hn
  | some _ => exact mem_map.mpr ⟨_, mem_reverse.mp (mem_of_lookup hlookup), rfl⟩

/-- Linking fails only at a call of a method that has no entry. -/
theorem link_eq_error {printLine : Nat} {e : CodegenError}
    (h : link entries printLine code = .error e) :
    ∃ key : MethodKey, key ∉ entries.map (·.1) ∧ e = ⟨.noCode key.className key.name, none⟩ := by
  obtain ⟨i, -, hi⟩ := exists_of_mapM_eq_error h
  have hlabel : ∀ label, resolveLabel entries printLine label = .error e →
      ∃ key : MethodKey, key ∉ entries.map (·.1) ∧ e = ⟨.noCode key.className key.name, none⟩ := by
    intro label hl
    cases label with
    | index | printLine => cases hl
    | method className name =>
      cases hlookup : entries.reverse.lookup ⟨className, name⟩ with
      | some _ =>
        rw [resolveLabel, hlookup] at hl
        cases hl
      | none =>
        rw [resolveLabel, hlookup] at hl
        cases hl
        refine ⟨⟨className, name⟩, fun hmem => ?_, rfl⟩
        obtain ⟨_, hn, -⟩ := exists_lookup_of_mem hmem
        rw [hlookup] at hn
        cases hn
  cases i with
  | op | ret => cases hi
  | jump t | jumpIf c t | call t => exact hlabel t (map_eq_error_iff.mp hi)

/-- The labels of a program's own code all lead to a method of the program. -/
theorem mem_methodsOf_of_leadsWithin (h : table.IsTableOf p) (howned : p.MembersOwned)
    {start stop : Nat} {className name : String}
    (hl : LeadsWithin table start stop (.method className name)) :
    MethodKey.mk className name ∈ (methodsOf p).map keyOf := by
  obtain ⟨_, _, hm, rfl, hprint⟩ := hl
  rcases h.method?_cases hm with ⟨rfl, rfl, rfl⟩ | ⟨c, hc, rfl, m, hmem, rfl, rfl⟩
  · exact absurd ⟨rfl, rfl⟩ hprint
  · refine mem_map.mpr ⟨(c.name.value, m), mem_methodsOf.mpr ⟨c, hc, hmem, rfl⟩, ?_⟩
    rw [keyOf, MethodEntry.ofDecl, howned.methods c hc m hmem]

/-- The one call of the entry code is that of the main method. -/
theorem target?_entryCode {i : Instr Label} (hi : i ∈ entryCode statics main) {label : Label}
    (ht : i.target? = some label) :
    label = .method main.className main.name := by
  simp only [entryCode, Routine.exit, Instr.ops, mem_append, mem_map, mem_singleton] at hi
  rcases hi with (⟨_, -, rfl⟩ | rfl) | ⟨_, -, rfl⟩
  · cases ht
  · cases ht; rfl
  · cases ht

/-- The index of the first instruction of the printing routine. -/
def printStart (statics : StaticArea) (main : MethodKey) (methods : LabelledCode) : Nat :=
  (entryCode statics main).length + methods.length

/-- All code of a program before it is linked. -/
def unlinkedCode (statics : StaticArea) (main : MethodKey) (methods : LabelledCode) :
    LabelledCode :=
  entryCode statics main ++ methods ++
    (Routine.printLine (printStart statics main methods)).map (·.map .index)

theorem length_unlinkedCode (statics : StaticArea) (main : MethodKey) (methods : LabelledCode) :
    (unlinkedCode statics main methods).length = printStart statics main methods + 31 := by
  rw [unlinkedCode, length_append, length_append, length_map]
  rfl

/-- The code of a program with every label replaced by its index. -/
def linkedCode (statics : StaticArea) (main : MethodKey) (methods : LabelledCode)
    (entries : List (MethodKey × Nat)) : List (Instr Nat) :=
  (unlinkedCode statics main methods).map
    (·.map (labelIndex entries (printStart statics main methods)))

/-- A program that identification accepts calls no method but its own. -/
theorem callsEntered_of_identify (h : identify p = .ok table) (howned : p.MembersOwned)
    (hmain : main ∈ (methodsOf p).map keyOf) {methods : LabelledCode}
    (hmethods : methodsCode table (.ofProgram p) (entryCode (.ofProgram p) main).length
      (methodsOf p) = .ok (methods, entries)) :
    CallsEntered entries (unlinkedCode (.ofProgram p) main methods) := by
  obtain ⟨hkeys, -, hwithin⟩ := methodsCode_spec hmethods
  intro i hi _ _ ht
  rw [hkeys]
  rcases mem_append.mp hi with hi | hi
  · rcases mem_append.mp hi with hi | hi
    · cases target?_entryCode hi ht
      exact hmain
    · exact mem_methodsOf_of_leadsWithin (isTableOf_of_identify h) howned (hwithin i hi _ ht)
  · obtain ⟨j, -, rfl⟩ := mem_map.mp hi
    cases j <;> cases ht

/-- In a program that identification accepts, every method has code, and the labels of the whole
code can be replaced by indices. -/
theorem programCode_eq_ok (h : identify p = .ok table) (howned : p.MembersOwned)
    (hmain : main ∈ (methodsOf p).map keyOf) :
    ∃ methods entries,
      methodsCode table (.ofProgram p) (entryCode (.ofProgram p) main).length (methodsOf p) =
        .ok (methods, entries) ∧
      programCode table main p = .ok (linkedCode (.ofProgram p) main methods entries) := by
  obtain ⟨⟨methods, entries⟩, hmethods⟩ := exists_methodsCode (methodsOf p)
    (fun method hmethod start => by
      obtain ⟨_, hc, hm, hname⟩ := mem_methodsOf.mp hmethod
      obtain ⟨code, hcode⟩ := exists_methodCode h hc hm start
      exact ⟨code, hname ▸ hcode⟩) (entryCode (.ofProgram p) main).length
  exact ⟨methods, entries, hmethods, bind_eq_ok.mpr ⟨_, hmethods,
    link_eq_ok (callsEntered_of_identify h howned hmain hmethods)⟩⟩

/-! ## Branches of the linked code -/

/-- The branches of the printing routine stay inside of it. -/
theorem target_le_printLine {start : Nat} {i : Instr Nat} (hi : i ∈ Routine.printLine start)
    {n : Nat} (ht : i.target? = some n) : n ≤ start + 31 := by
  have htargets : (Routine.printLine start).filterMap Instr.target? =
      [start + 11, start + 12, start + 23] := rfl
  have hn : n ∈ [start + 11, start + 12, start + 23] := htargets ▸ mem_filterMap.mpr ⟨i, hi, ht⟩
  simp only [mem_cons, not_mem_nil, or_false] at hn
  omega

section

variable {methods : LabelledCode}

section

variable
  (hmethods : methodsCode table (.ofProgram p) (entryCode (.ofProgram p) main).length
    (methodsOf p) = .ok (methods, entries))
  (hentered : CallsEntered entries (unlinkedCode (.ofProgram p) main methods))
include hmethods hentered

/-- No branch of the linked code leads out of it. The program need not be an identified one, as
long as the methods that are called have entries. -/
theorem labelIndex_le_length {i : Instr Label} (hi : i ∈ unlinkedCode (.ofProgram p) main methods)
    {label : Label} (ht : i.target? = some label) :
    labelIndex entries (printStart (.ofProgram p) main methods) label ≤
      (unlinkedCode (.ofProgram p) main methods).length := by
  obtain ⟨-, hindices, hwithin⟩ := methodsCode_spec hmethods
  rw [← printStart] at hindices hwithin
  rw [length_unlinkedCode]
  cases label with
  | printLine => exact Nat.le_add_right _ _
  | method className name =>
    -- A method label stands for the entry of a method, and these lie in front of printing.
    obtain ⟨_, hn, hmem⟩ := exists_lookup_of_mem (hentered i hi className name ht)
    rw [labelIndex, hn]
    exact Nat.le_add_right_of_le (hindices _ hmem)
  | index =>
    rcases mem_append.mp hi with hi | hi
    · rcases mem_append.mp hi with hi | hi
      · cases target?_entryCode hi ht
      · exact Nat.le_add_right_of_le (hwithin i hi _ ht).2
    · obtain ⟨_, hj, rfl⟩ := mem_map.mp hi
      rw [Instr.target?_map] at ht
      obtain ⟨_, hn, ⟨⟩⟩ := Option.map_eq_some_iff.mp ht
      exact target_le_printLine hj hn

theorem target_le_length_linkedCode :
    ∀ i ∈ linkedCode (.ofProgram p) main methods entries, ∀ n, i.target? = some n →
      n ≤ (linkedCode (.ofProgram p) main methods entries).length := by
  intro _ hi _ ht
  obtain ⟨_, hj, rfl⟩ := mem_map.mp hi
  rw [Instr.target?_map] at ht
  obtain ⟨_, hlabel, rfl⟩ := Option.map_eq_some_iff.mp ht
  rw [linkedCode, length_map]
  exact labelIndex_le_length hmethods hentered hj hlabel

end

end

/-- Code whose targets are all inside of it or right behind it can be assembled. -/
theorem not_dangling_of_target_le {code : List (Instr Nat)}
    (h : ∀ i ∈ code, ∀ n, i.target? = some n → n ≤ code.length) (k : Nat) :
    ¬ Code.Dangling (code.map (·.map some)) k := by
  rintro ⟨_, _, hi, ht, hbeyond⟩
  obtain ⟨j, hj, rfl⟩ := mem_map.mp (mem_of_getElem? hi)
  rw [Instr.target?_map] at ht
  obtain ⟨n, hn, rfl⟩ := Option.map_eq_some_iff.mp ht
  have hlt := hbeyond _ rfl
  rw [length_map] at hlt
  have hle := h j hj n hn
  omega

end Lowering

/-- Linked code whose targets are all inside of it or right behind it becomes machine code. -/
theorem exists_lower_of_target_le {table : ClassTable} {main : MethodKey} {p : Program}
    {code : List (Instr Nat)} (hcode : Lowering.programCode table main p = .ok code)
    (h : ∀ i ∈ code, ∀ n, i.target? = some n → n ≤ code.length) :
    ∃ bytes, lower table main p = .ok bytes := by
  have hassemble := Code.assemble_ok_iff.mpr ⟨Lowering.not_dangling_of_target_le h, rfl⟩
  exact ⟨_, bind_eq_ok.mpr ⟨_, hcode, by rw [hassemble]; rfl⟩⟩

/-- A program that identification accepts has machine code, whichever of its methods is
called first. -/
theorem exists_lower {table : ClassTable} {p : Program} (h : identify p = .ok table)
    (howned : p.MembersOwned) {main : MethodKey}
    (hmain : main ∈ (Lowering.methodsOf p).map Lowering.keyOf) :
    ∃ bytes, lower table main p = .ok bytes := by
  obtain ⟨_, _, hmethods, hcode⟩ := Lowering.programCode_eq_ok h howned hmain
  exact exists_lower_of_target_le hcode (Lowering.target_le_length_linkedCode hmethods
    (Lowering.callsEntered_of_identify h howned hmain hmethods))

end MiniJava
