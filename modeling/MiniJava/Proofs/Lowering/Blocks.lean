import MiniJava.Proofs.Lowering.Totality
import MiniJava.Proofs.Preservation.Members

/-!
# The blocks of a program

The code that is assembled, taken apart again: the entry code, a block for each method, and the
printing routine. Linking changes labels only, so every piece of the code of a method is found in it
as it was lowered (`StandsAt`), with labels replaced by indices.
-/

namespace MiniJava

open List

namespace Lowering

/-- A method with its code. -/
structure Block where
  className : String
  method : MethodDecl
  /-- The index of the first instruction. -/
  start : Nat
  code : LabelledCode

namespace Block

/-- The index behind the last instruction. -/
def stop (block : Block) : Nat := block.start + block.code.length

/-- The method with its class. -/
def source (block : Block) : String × MethodDecl := (block.className, block.method)

end Block

/-- The blocks lie one behind the other from an index on. -/
def Contiguous : Nat → List Block → Prop
  | _, [] => True
  | start, block :: blocks => block.start = start ∧ Contiguous block.stop blocks

theorem Contiguous.start_eq {start : Nat} {before behind : List Block} {block : Block}
    (h : Contiguous start (before ++ block :: behind)) :
    block.start = start + (before.flatMap Block.code).length := by
  induction before generalizing start with
  | nil => exact h.1
  | cons _ _ ih =>
    obtain ⟨rfl, h⟩ := h
    rw [ih h, Block.stop, flatMap_cons, length_append, Nat.add_assoc]

section

variable {table : ClassTable} {statics : StaticArea} {start : Nat}
  {methods : List (String × MethodDecl)} {code : LabelledCode} {entries : List (MethodKey × Nat)}

/-- The code of methods in turn consists of blocks. -/
theorem exists_blocks (h : methodsCode table statics start methods = .ok (code, entries)) :
    ∃ blocks, blocks.map Block.source = methods ∧ Contiguous start blocks ∧
      code = blocks.flatMap Block.code ∧
      entries = blocks.map (fun block => (keyOf block.source, block.start)) ∧
      ∀ block ∈ blocks,
        methodCode table statics block.className block.start block.method = .ok block.code := by
  induction methods generalizing start code entries with
  | nil =>
    cases h
    exact ⟨[], rfl, trivial, rfl, rfl, nofun⟩
  | cons method _ ih =>
    obtain ⟨className, m⟩ := method
    obtain ⟨first, hfirst, ⟨_, _⟩, hothers, ⟨⟩⟩ := bind₂_eq_ok.mp h
    obtain ⟨blocks, rfl, hcontiguous, rfl, rfl, hlowered⟩ := ih hothers
    exact ⟨⟨className, m, start, first⟩ :: blocks, rfl, ⟨rfl, hcontiguous⟩, rfl, rfl,
      forall_mem_cons.mpr ⟨hfirst, hlowered⟩⟩

/-- The code of each method is found behind its entry. -/
theorem exists_methodCode_of_mem (h : methodsCode table statics start methods = .ok (code, entries))
    {method : String × MethodDecl} (hm : method ∈ methods) :
    ∃ before own behind, code = before ++ own ++ behind ∧
      (keyOf method, start + before.length) ∈ entries ∧
      methodCode table statics method.1 (start + before.length) method.2 = .ok own := by
  obtain ⟨_, rfl, hcontiguous, rfl, rfl, hlowered⟩ := exists_blocks h
  obtain ⟨block, hblock, rfl⟩ := mem_map.mp hm
  obtain ⟨before, behind, rfl⟩ := append_of_mem hblock
  refine ⟨before.flatMap Block.code, block.code, behind.flatMap Block.code, by simp, ?_⟩
  rw [← hcontiguous.start_eq]
  exact ⟨mem_map_of_mem hblock, hlowered block hblock⟩

end

/-! ## Linked code -/

/-- The code that is assembled for a program whose methods have these blocks and whose labels stand
for these indices. -/
structure LaidOut (table : ClassTable) (p : Program) (main : MethodKey) (blocks : List Block)
    (index : Label → Nat) (code : List (Instr Nat)) : Prop where
  /-- There is a block for each method, in the order of the source. -/
  methods : blocks.map Block.source = methodsOf p
  contiguous : Contiguous (entryCode (.ofProgram p) main).length blocks
  lowered : ∀ block ∈ blocks,
    methodCode table (.ofProgram p) block.className block.start block.method = .ok block.code
  code : code = (entryCode (.ofProgram p) main).map (·.map index) ++
    (blocks.flatMap Block.code).map (·.map index) ++ Routine.printLine (index .printLine)
  place : ∀ n, index (.index n) = n
  method : ∀ block ∈ blocks,
    index (.method block.className block.method.name.value) = block.start
  printLine : index .printLine =
    (entryCode (.ofProgram p) main).length + (blocks.flatMap Block.code).length

/-- The blocks lie one behind the other in the order of the source, and the label of a method stands
for the first instruction of its block. -/
theorem exists_laidOut {table : ClassTable} {p : Program} (h : identify p = .ok table)
    (howned : p.MembersOwned) {main : MethodKey} (hmain : main ∈ (methodsOf p).map keyOf) :
    ∃ code blocks index, programCode table main p = .ok code ∧
      LaidOut table p main blocks index code := by
  obtain ⟨methods, entries, hmethods, hcode⟩ := programCode_eq_ok h howned hmain
  obtain ⟨blocks, hsources, hcontiguous, rfl, hentries, hlowered⟩ := exists_blocks hmethods
  -- Two methods with one key would share a label.
  have hnodup : (entries.map (·.1)).Nodup := by
    rw [(methodsCode_spec hmethods).1]
    exact (isTableOf_of_identify h).nodup_methodKeys
  refine ⟨_, blocks, labelIndex entries
    (printStart (.ofProgram p) main (blocks.flatMap Block.code)),
    hcode, hsources, hcontiguous, hlowered, ?_, fun _ => rfl, ?_, rfl⟩
  · rw [linkedCode, unlinkedCode, map_append, map_append]
    rfl
  · intro _ hblock
    refine labelIndex_method hnodup ?_ _
    rw [hentries]
    exact mem_map_of_mem hblock

/-- The labelled code stands in linked code from an index on. -/
def StandsAt (index : Label → Nat) (code : List (Instr Nat)) (k : Nat)
    (own : LabelledCode) : Prop :=
  ∃ front back, code = front ++ own.map (·.map index) ++ back ∧ k = front.length

namespace StandsAt

variable {index : Label → Nat} {code : List (Instr Nat)} {k : Nat} {own : LabelledCode}

theorem part {front back : LabelledCode} (h : StandsAt index code k (front ++ own ++ back)) :
    StandsAt index code (k + front.length) own := by
  obtain ⟨before, behind, rfl, rfl⟩ := h
  refine ⟨before ++ front.map (·.map index), back.map (·.map index) ++ behind, ?_, ?_⟩
  · simp only [map_append, append_assoc]
  · rw [length_append, length_map]

theorem getElem? (h : StandsAt index code k own) {j : Nat} (hj : j < own.length) :
    code[k + j]? = own[j]?.map (·.map index) := by
  obtain ⟨_, _, rfl, rfl⟩ := h
  rw [append_assoc, getElem?_append_right (Nat.le_add_right _ _), Nat.add_sub_cancel_left,
    getElem?_append_left (by rwa [length_map]), getElem?_map]

end StandsAt

namespace LaidOut

variable {table : ClassTable} {p : Program} {main : MethodKey} {blocks : List Block}
  {index : Label → Nat} {code : List (Instr Nat)} (h : LaidOut table p main blocks index code)
include h

/-- Every block stands at its index. -/
theorem standsAt {block : Block} (hblock : block ∈ blocks) :
    StandsAt index code block.start block.code := by
  obtain ⟨before, behind, rfl⟩ := append_of_mem hblock
  refine ⟨(entryCode (.ofProgram p) main).map (·.map index) ++
    (before.flatMap Block.code).map (·.map index),
    (behind.flatMap Block.code).map (·.map index) ++ Routine.printLine (index .printLine), ?_, ?_⟩
  · rw [h.code]
    simp only [flatMap_append, flatMap_cons, map_append, append_assoc]
  · rw [h.contiguous.start_eq, length_append, length_map, length_map]

/-- The printing routine stands behind the blocks. -/
theorem getElem?_printLine (j : Nat) :
    code[index .printLine + j]? = (Routine.printLine (index .printLine))[j]? := by
  have hlength : ((entryCode (.ofProgram p) main).map (·.map index) ++
      (blocks.flatMap Block.code).map (·.map index)).length = index .printLine := by
    rw [length_append, length_map, length_map, h.printLine]
  rw [h.code, getElem?_append_right (by omega), hlength, Nat.add_sub_cancel_left]

/-- The methods of the program are those that have blocks. -/
theorem exists_block {className : String} {m : MethodDecl} (hm : (className, m) ∈ methodsOf p) :
    ∃ block ∈ blocks, block.className = className ∧ block.method = m := by
  rw [← h.methods] at hm
  obtain ⟨block, hblock, heq⟩ := mem_map.mp hm
  exact ⟨block, hblock, Prod.mk.inj heq⟩

theorem mem_methodsOf {block : Block} (hblock : block ∈ blocks) :
    (block.className, block.method) ∈ methodsOf p :=
  h.methods ▸ mem_map_of_mem hblock

end LaidOut

end Lowering

end MiniJava
