import MiniJava.Proofs.Lowering.Linking
import MiniJava.Proofs.Machine.Printing
import MiniJava.Proofs.Preservation.Size
import MiniJava.Proofs.Semantics.Growth

/-!
# States as words

How a state of a program lies in memory. A value is one word, an object the words of
its fields, an array its length and the words of its elements; static fields are the
first words of the stack. `Setting.Matches` says that a view shows a state, with any
words on the stack above the static fields, and `Setting.Moves` what a piece of code
does to the two: pieces that follow each other are put together by `Moves.append`.
-/

namespace MiniJava

open List

namespace Preservation

open Semantics Execution

/-! ## Values and blocks -/

/-- The word of a truth value. -/
def boolWord (b : Bool) : Word := if b then 1 else 0

/-- The word of a value. Objects and arrays are known by their addresses. -/
def encode (L : Layout) : Value → Word
  | .int v => v.toBitVec
  | .bool b => boolWord b
  | .null => 0
  | .ref place => BitVec.ofNat 64 (L.place place)

/-- The names of the fields of an object, in the order of their words. -/
def fieldNames (table : ClassTable) (className : String) : List String :=
  (table.class? className).elim [] (·.instanceFields.map (·.1))

/-- The words of a block. An object without fields still has a word. -/
def blockWords (L : Layout) (table : ClassTable) : Block → List Word
  | .object className fields =>
    let words := (fieldNames table className).map fun name => encode L (fields name)
    words ++ List.replicate (1 - words.length) 0
  | .array elements => BitVec.ofNat 64 elements.length :: elements.map (encode L)

/-- The words of the static fields. -/
def staticWords (L : Layout) (area : Lowering.StaticArea) (st : State) : List Word :=
  area.fields.map fun (className, name) => encode L (st.statics className name)

/-- The lines of the numbers that were printed. -/
def outputOf (printed : List Int64) : List UInt8 := printed.flatMap fun v => lineOf v.toInt

theorem length_fieldNames (table : ClassTable) (className : String) :
    (fieldNames table className).length =
      (table.class? className).elim 0 (·.instanceFields.length) := by
  rw [fieldNames]
  cases table.class? className with
  | none => rfl
  | some => exact length_map _

@[simp]
theorem length_blockWords (L : Layout) (table : ClassTable) (block : Block) :
    (blockWords L table block).length = block.size table := by
  cases block with
  | object =>
    simp only [blockWords, Block.size, length_append, length_map, length_replicate,
      length_fieldNames]
    omega
  | array => simp [blockWords, Block.size]

@[simp]
theorem length_staticWords (L : Layout) (area : Lowering.StaticArea) (st : State) :
    (staticWords L area st).length = area.fields.length := length_map _

theorem encode_initialValue (L : Layout) (type : Ty) : encode L (initialValue type) = 0 := by
  cases type <;> rfl

theorem encode_initialFields (L : Layout) (table : ClassTable) (className name : String) :
    encode L (initialFields table className name) = 0 := by
  rw [initialFields]
  cases table.field? className name with
  | none => rfl
  | some f => exact encode_initialValue L f.type

/-- A new object is zero. -/
theorem blockWords_object (L : Layout) (table : ClassTable) (className : String) :
    blockWords L table (.object className (initialFields table className)) =
      List.replicate ((Block.object className (initialFields table className)).size table) 0 := by
  rw [eq_replicate_iff]
  refine ⟨length_blockWords _ _ _, ?_⟩
  intro w hw
  rcases mem_append.mp hw with hw | hw
  · obtain ⟨name, -, rfl⟩ := mem_map.mp hw
    exact encode_initialFields L table className name
  · exact eq_of_mem_replicate hw

/-- A new array is zero up to its length. -/
theorem blockWords_array (L : Layout) (table : ClassTable) (element : Ty) (n : Nat) :
    blockWords L table (.array (List.replicate n (initialValue element))) =
      BitVec.ofNat 64 n :: List.replicate n 0 := by
  rw [blockWords, length_replicate, map_replicate, encode_initialValue]

/-! ## Programs in memory -/

/-- A program that identification accepts, with its code in the memory of a process. -/
structure Setting where
  loaded : Loaded
  program : Program
  table : ClassTable
  identified : identify program = .ok table
  owned : program.MembersOwned
  /-- All displacements fit into 32 bits. -/
  small : program.nodes < 2 ^ 27
  print : PrintCode loaded (loaded.index .printLine)
  method : ∀ className name m, findMethod? program className name = some m →
    ∃ code, Lowering.methodCode table (.ofProgram program) className
        (loaded.index (.method className name)) m = .ok code ∧
      loaded.CodeAt (loaded.index (.method className name)) code

namespace Setting

/-- The addresses. -/
def layout (S : Setting) : Layout := S.loaded.layout

/-- The static fields. -/
def area (S : Setting) : Lowering.StaticArea := .ofProgram S.program

/-- The number of static fields. -/
def statics (S : Setting) : Nat := S.area.fields.length

/-- A view shows a state, with words on the stack behind those of the static fields. -/
structure Matches (S : Setting) (rbp : Word) (st : State) (words : List Word) (v : View) :
    Prop where
  stack : v.stack = staticWords S.layout S.area st ++ words
  heap : v.heap = st.heap.map (blockWords S.layout S.table)
  output : v.output = outputOf st.output
  rbp : v.regs .rbp = rbp
  r15 : v.regs .r15 = BitVec.ofNat 64 S.layout.top
  fits : S.layout.Fits (st.sizes S.table)

/-- Code takes a state and the words on the stack to others. -/
def Moves (S : Setting) (rbp : Word) (k : Nat) (code : LabelledCode) (st : State)
    (words : List Word) (st' : State) (words' : List Word) : Prop :=
  S.loaded.CodeAt k code → ∀ v, S.Matches rbp st words v →
    ∃ v', S.loaded.Runs k v (k + code.length) v' ∧ S.Matches rbp st' words' v'

variable {S : Setting} {rbp : Word} {st st' st'' : State} {words words' words'' : List Word}
  {v v' : View} {k : Nat}

theorem Moves.append {code others : LabelledCode}
    (h : S.Moves rbp k code st words st' words')
    (h' : S.Moves rbp (k + code.length) others st' words' st'' words'') :
    S.Moves rbp k (code ++ others) st words st'' words'' := by
  intro hcode v hv
  obtain ⟨hfirst, hothers⟩ := Loaded.codeAt_append.mp hcode
  obtain ⟨v₁, hrun₁, hv₁⟩ := h hfirst v hv
  obtain ⟨v₂, hrun₂, hv₂⟩ := h' hothers v₁ hv₁
  refine ⟨v₂, ?_, hv₂⟩
  rw [length_append, ← Nat.add_assoc]
  exact hrun₁.trans hrun₂

/-- No code does nothing. -/
theorem moves_nil : S.Moves rbp k [] st words st words :=
  fun _ v hv => ⟨v, .refl k v, hv⟩

theorem moves_ops {os : List Op}
    (h : ∀ v, S.Matches rbp st words v →
      ∃ v', S.loaded.DoesAll os v v' ∧ S.Matches rbp st' words' v') :
    S.Moves rbp k (Instr.ops os) st words st' words' := by
  intro hcode v hv
  obtain ⟨v', hdoes, hv'⟩ := h v hv
  refine ⟨v', ?_, hv'⟩
  have hrun := Loaded.runs_ops hdoes hcode
  rwa [Instr.ops, length_map]

section

variable (h : S.Matches rbp st words v)
include h

theorem Matches.sizes : v.sizes = st.sizes S.table := by
  rw [View.sizes, h.heap, State.sizes, map_map]
  exact map_congr_left fun block _ => length_blockWords _ _ block

theorem Matches.fits_view : S.loaded.layout.Fits v.sizes := by
  rw [h.sizes]
  exact h.fits

theorem Matches.length_stack : v.stack.length = S.statics + words.length := by
  rw [h.stack, length_append, length_staticWords]
  rfl

theorem Matches.getElem?_stack (i : Nat) : v.stack[S.statics + i]? = words[i]? := by
  have hlength : (staticWords S.layout S.area st).length = S.statics := length_staticWords _ _ _
  rw [h.stack, getElem?_append_right (by omega), hlength, Nat.add_sub_cancel_left]

theorem Matches.getElem?_heap {place : Nat} {block : Block}
    (hblock : st.heap[place]? = some block) :
    v.heap[place]? = some (blockWords S.layout S.table block) := by
  rw [h.heap, getElem?_map, hblock]
  rfl

theorem Matches.slot_lt (i : Nat) : S.layout.slot i < 2 ^ 64 := by
  have htop := h.fits.top_lt
  unfold Layout.slot
  omega

theorem Matches.block_address_lt {place j : Nat} {block : List Word}
    (hblock : v.heap[place]? = some block) (hj : j < block.length) :
    S.layout.place place + 8 * j < 2 ^ 64 := by
  have hinside : S.layout.place place + 8 * block.length ≤ 2 ^ 64 :=
    (h.fits_view.inside place _ (View.getElem?_sizes hblock)).2
  omega

/-- Registers other than the two that are relied on may change, and so may the stack. -/
theorem Matches.of_eq (hstack : v'.stack = staticWords S.layout S.area st ++ words')
    (hheap : v'.heap = v.heap) (houtput : v'.output = v.output) (hrbp : v'.regs .rbp = v.regs .rbp)
    (hr15 : v'.regs .r15 = v.regs .r15) : S.Matches rbp st words' v' :=
  ⟨hstack, hheap.trans h.heap, houtput.trans h.output, hrbp.trans h.rbp, hr15.trans h.r15, h.fits⟩

/-! ## The top of the stack -/

theorem Matches.push (hroom : S.statics + words.length < S.layout.room) {r : Reg} (hr : r ≠ .rsp) :
    ∃ v', Does S.loaded.sys S.loaded.layout (.pushReg r) v v' ∧
      S.Matches rbp st (words ++ [v.regs r]) v' ∧ v'.regs = v.regs := by
  refine ⟨_, does_pushReg h.fits_view (by rw [h.length_stack]; exact hroom) hr, ?_, rfl⟩
  exact h.of_eq (by rw [h.stack, append_assoc]) rfl rfl rfl rfl

end

theorem Matches.pop {w : Word} (h : S.Matches rbp st (words ++ [w]) v) {r : Reg}
    (hr : r ∉ [Reg.rsp, .rbp, .r15]) :
    ∃ v', Does S.loaded.sys S.loaded.layout (.popReg r) v v' ∧ S.Matches rbp st words v' ∧
      v'.regs r = w ∧ ∀ x, x ≠ r → v'.regs x = v.regs x := by
  simp only [mem_cons, not_mem_nil, or_false, not_or] at hr
  have hstack : v.stack = (staticWords S.layout S.area st ++ words) ++ [w] := by
    rw [h.stack, append_assoc]
  obtain ⟨v', hdoes, hstack', hw, hregs, hheap, houtput⟩ :=
    exists_popReg S.loaded.sys h.fits_view hstack hr.1
  refine ⟨v', hdoes, ?_, hw, hregs⟩
  exact h.of_eq hstack' hheap houtput (hregs _ (Ne.symm hr.2.1)) (hregs _ (Ne.symm hr.2.2))

end Setting

end Preservation

end MiniJava
