import MiniJava.Proofs.Preservation.Operators

/-!
# Elements and allocation

The code that reads and writes elements of arrays, and the code that makes objects and
arrays. The first word of an array is its length, so the element with a number is one
word further on. New memory is zero, and zero is the word of every initial value, so a
new object needs nothing else; a new array gets its length.

That an array fits into memory is what keeps its size from wrapping around.
-/

namespace MiniJava

open List

namespace Preservation

open Semantics Execution

/-! ## Elements -/

/-- The operations that compute the address in front of an element. -/
def elementOps : List Op := [.shlImm .rcx 3, .alu .add .rax .rcx]

theorem toBitVec_of_toInt {index : Int64} {i : Nat} (h : index.toInt = i) :
    index.toBitVec = BitVec.ofNat 64 i := by
  apply BitVec.eq_of_toInt_eq
  rw [← BitVec.ofInt_natCast, ← h]
  exact congrArg BitVec.toInt (BitVec.ofInt_toInt).symm

theorem ofNat_shiftLeft_three (i : Nat) : BitVec.ofNat 64 i <<< 3 = BitVec.ofNat 64 (8 * i) := by
  apply BitVec.eq_of_toNat_eq
  rw [BitVec.toNat_shiftLeft, BitVec.toNat_ofNat, BitVec.toNat_ofNat, Nat.shiftLeft_eq]
  omega

section

variable {P : Loaded} {v : View}

theorem computes_element {address i : Nat} (hrax : v.regs .rax = BitVec.ofNat 64 address)
    (hrcx : v.regs .rcx = BitVec.ofNat 64 i) :
    ∃ v', P.DoesAll elementOps v v' ∧ v'.regs .rax = BitVec.ofNat 64 (address + 8 * i) ∧
      v'.regs .rdx = v.regs .rdx ∧ Agrees v v' := by
  refine ⟨_, .cons (does_shlImm (by decide) 3) (.cons (does_alu (by decide) (by decide)) (.nil _)),
    ?_, rfl, ?_⟩
  · show v.regs .rax + v.regs .rcx <<< 3 = _
    rw [hrax, hrcx, ofNat_shiftLeft_three, ← BitVec.ofNat_add]
  · exact ((agrees_set v (by decide) (by decide) _).trans (agrees_flags _ _)).trans
      ((agrees_set _ (by decide) (by decide) _).trans (agrees_flags _ _))

end

namespace Setting

variable {S : Setting} {rbp : Word} {st : State} {words : List Word} {k : Nat}

/-- An array and a position on the stack are replaced by the element. -/
theorem moves_readElement (hroom : S.statics + words.length < S.layout.room)
    {array position value : Value} (h : readElement st array position = .ok value) :
    S.Moves rbp k (Instr.ops [.popReg .rcx, .popReg .rax] ++ Lowering.elementAddress ++
        Instr.ops [.load .rax (Lowering.memAt .rax wordSize)] ++ Lowering.pushResult) st
      (words ++ [encode S.layout array] ++ [encode S.layout position]) st
      (words ++ [encode S.layout value]) := by
  obtain ⟨place, elements, i, hat, hget⟩ := readElement_eq_ok h
  obtain ⟨rfl, hblock, _, _, rfl, hindex⟩ := elementAt_eq_ok hat
  rw [show Lowering.elementAddress = Instr.ops elementOps from rfl, Lowering.pushResult,
    ← Instr.ops_append, ← Instr.ops_append, ← Instr.ops_append]
  refine moves_ops fun v hv => ?_
  obtain ⟨_, hpop₁, hv₁, hrcx₁, -⟩ := hv.pop (r := .rcx) (by decide)
  obtain ⟨v₂, hpop₂, hv₂, hrax₂, hregs₂⟩ := hv₁.pop (r := .rax) (by decide)
  have hrcx₂ : v₂.regs .rcx = BitVec.ofNat 64 i :=
    ((hregs₂ .rcx (by decide)).trans hrcx₁).trans (toBitVec_of_toInt hindex)
  obtain ⟨v₃, hdoes, hrax₃, -, hagrees⟩ := computes_element (P := S.loaded) hrax₂ hrcx₂
  have hv₃ := hv₂.of_agrees hagrees
  have hk := hv₃.getElem?_heap hblock
  have hword : (blockWords S.layout S.table (.array elements))[i + 1]? =
      some (encode S.layout value) := by
    rw [blockWords, getElem?_cons_succ, getElem?_map, hget]
    rfl
  have hlt := hv₃.block_address_lt hk (List.getElem?_eq_some_iff.mp hword).1
  have haddress : v₃.address (Lowering.memAt .rax wordSize) = S.layout.place place + 8 * (i + 1) :=
    View.address_of_disp hrax₃ (by unfold wordSize; omega) hlt (by decide) (by decide)
  have hload : Does S.loaded.sys S.layout (.load .rax (Lowering.memAt .rax wordSize)) v₃ _ :=
    does_load_block (show Reg.rax ≠ .rsp by decide) haddress hk hword (by decide)
  have hv₄ : S.Matches rbp st words (v₃.set .rax (encode S.layout value)) :=
    hv₃.of_eq hv₃.stack rfl rfl rfl rfl
  obtain ⟨v₅, hpush, hv₅, -⟩ := hv₄.push hroom (r := .rax) (by decide)
  exact ⟨v₅, (((Loaded.DoesAll.cons hpop₁ (.cons hpop₂ (.nil _))).append hdoes).append
    (.cons hload (.nil _))).append (.cons hpush (.nil _)), hv₅⟩

/-- An array, a position and a value are taken off the stack, and the element is set. -/
theorem moves_writeElement {array position value : Value} {st' : State}
    (h : writeElement st array position value = .ok st')
    (hfit : S.layout.Fits (st'.sizes S.table)) :
    S.Moves rbp k (Instr.ops [.popReg .rdx, .popReg .rcx, .popReg .rax] ++
      Lowering.elementAddress ++
        Instr.ops [.store (Lowering.memAt .rax wordSize) .rdx]) st
      (words ++ [encode S.layout array] ++ [encode S.layout position] ++ [encode S.layout value])
      st' words := by
  obtain ⟨⟨place, elements, i⟩, hat, ⟨⟩⟩ := bind_eq_ok.mp h
  obtain ⟨rfl, hblock, _, _, rfl, hindex⟩ := elementAt_eq_ok hat
  rw [show Lowering.elementAddress = Instr.ops elementOps from rfl, ← Instr.ops_append,
    ← Instr.ops_append]
  refine moves_ops fun v hv => ?_
  obtain ⟨_, hpop₁, hv₁, hrdx₁, -⟩ := hv.pop (r := .rdx) (by decide)
  obtain ⟨_, hpop₂, hv₂, hrcx₂, hregs₂⟩ := hv₁.pop (r := .rcx) (by decide)
  obtain ⟨v₃, hpop₃, hv₃, hrax₃, hregs₃⟩ := hv₂.pop (r := .rax) (by decide)
  have hrcx₃ : v₃.regs .rcx = BitVec.ofNat 64 i :=
    ((hregs₃ .rcx (by decide)).trans hrcx₂).trans (toBitVec_of_toInt hindex)
  have hrdx₃ : v₃.regs .rdx = encode S.layout value :=
    ((hregs₃ .rdx (by decide)).trans (hregs₂ .rdx (by decide))).trans hrdx₁
  obtain ⟨v₄, hdoes, hrax₄, hrdx₄, hagrees⟩ := computes_element (P := S.loaded) hrax₃ hrcx₃
  have hv₄ := hv₃.of_agrees hagrees
  have hk := hv₄.getElem?_heap hblock
  have hj : i + 1 < (blockWords S.layout S.table (.array elements)).length := by
    rw [length_blockWords, Block.size]
    omega
  have haddress : v₄.address (Lowering.memAt .rax wordSize) = S.layout.place place + 8 * (i + 1) :=
    View.address_of_disp hrax₄ (by unfold wordSize; omega) (hv₄.block_address_lt hk hj) (by decide)
      (by decide)
  have hstore : Does S.loaded.sys S.layout (.store (Lowering.memAt .rax wordSize) .rdx) v₄ _ :=
    does_store_block hv₄.fits_view (show Reg.rax ≠ .rsp by decide) haddress hk hj (by decide)
  refine ⟨_, ((Loaded.DoesAll.cons hpop₁ (.cons hpop₂ (.cons hpop₃ (.nil _)))).append hdoes).append
    (.cons hstore (.nil _)), ⟨hv₄.stack, ?_, hv₄.output, hv₄.rbp, hv₄.r15, hfit⟩⟩
  show v₄.heap.set place (List.set _ (i + 1) (v₄.regs .rdx)) = _
  rw [hrdx₄, hrdx₃, hv₄.heap, State.setBlock, map_set]
  simp [blockWords, map_set]

end Setting

/-! ## Allocation -/

/-- The operations that ask for new memory. -/
def allocateOps : List Op :=
  [.movImm .rax 9, .alu .xor .rdi .rdi, .movImm .rdx 3, .movImm .r10 0x22, .movImm .r8 (-1),
   .alu .xor .r9 .r9, .syscall]

/-- New memory is zero, and its address is in `rax`. -/
theorem exists_allocate {P : Loaded} {v : View} {n : Nat} (hn : 0 < n)
    (hfit : P.layout.Fits (v.sizes ++ [n])) (hrsi : v.regs .rsi = BitVec.ofNat 64 (8 * n)) :
    ∃ v', P.DoesAll allocateOps v v' ∧ v'.stack = v.stack ∧
      v'.heap = v.heap ++ [List.replicate n 0] ∧ v'.output = v.output ∧
      v'.regs .rbp = v.regs .rbp ∧ v'.regs .r15 = v.regs .r15 ∧
      v'.regs .rax = BitVec.ofNat 64 (P.layout.place v.heap.length) := by
  refine ⟨_, .cons (does_movImm (by decide) 9) (.cons (does_alu (by decide) (by decide))
    (.cons (does_movImm (by decide) 3) (.cons (does_movImm (by decide) 0x22)
    (.cons (does_movImm (by decide) (-1)) (.cons (does_alu (by decide) (by decide))
    (.cons (does_map hn hfit P.place_eq rfl ?_ hrsi rfl rfl rfl ?_) (.nil _))))))), rfl,
    rfl, rfl, rfl,
    rfl, rfl⟩
  · exact BitVec.xor_self
  · exact BitVec.xor_self

/-- The number of bytes of an array whose length is on top of the stack. -/
theorem computes_arrayBytes {P : Loaded} {v : View} (hfit : P.layout.Fits v.sizes)
    {stack : List Word} {n : Nat} (hstack : v.stack = stack ++ [BitVec.ofNat 64 n]) :
    ∃ v', P.DoesAll [.load .rax ⟨.rsp, 0⟩, .aluImm .add .rax 1, .shlImm .rax 3, .movReg .rsi .rax] v
      v' ∧ v'.regs .rsi = BitVec.ofNat 64 (8 * (n + 1)) ∧ Agrees v v' := by
  refine ⟨_, .cons (does_load_top hfit hstack (by decide)) (.cons (does_aluImm (by decide) 1)
    (.cons (does_shlImm (by decide) 3) (.cons (does_movReg (by decide) (by decide)) (.nil _)))), ?_,
      ?_⟩
  · show (BitVec.ofNat 64 n + immediate 1) <<< 3 = _
    rw [show immediate 1 = BitVec.ofNat 64 1 by decide, ← BitVec.ofNat_add, ofNat_shiftLeft_three]
  · exact (((agrees_set v (by decide) (by decide) _).trans
      ((agrees_set _ (by decide) (by decide) _).trans (agrees_flags _ _))).trans
      ((agrees_set _ (by decide) (by decide) _).trans (agrees_flags _ _))).trans
      (agrees_set _ (by decide) (by decide) _)

namespace Setting

variable {S : Setting} {rbp : Word} {st : State} {words : List Word} {k : Nat}

theorem sizes_allocate (st : State) (table : ClassTable) (block : Block) :
    (st.allocate block).2.sizes table = st.sizes table ++ [block.size table] := map_append

theorem objectSize_eq (table : ClassTable) (className : String) (fields : String → Value) :
    Lowering.objectSize table className = 8 * (Block.object className fields).size table := by
  simp only [Lowering.objectSize, Block.size]
  cases table.class? className with
  | none => rfl
  | some =>
    simp only [Option.elim_some, ClassEntry.instanceSize, wordSize]
    omega

/-- A new block that is zero is put on the stack. -/
theorem moves_allocate (hroom : S.statics + words.length < S.layout.room) {block : Block}
    (hzero : blockWords S.layout S.table block = List.replicate (block.size S.table) 0)
    (hfit : S.layout.Fits ((st.allocate block).2.sizes S.table)) :
    S.Moves rbp k (Instr.ops [.movImm .rsi (Int64.ofNat (8 * block.size S.table))] ++
        Routine.allocate ++ Lowering.pushResult) st words (st.allocate block).2
      (words ++ [encode S.layout (st.allocate block).1]) := by
  rw [show (Routine.allocate : LabelledCode) = Instr.ops allocateOps from rfl, Lowering.pushResult,
    ← Instr.ops_append, ← Instr.ops_append]
  refine moves_ops fun v hv => ?_
  have hset : Does S.loaded.sys S.layout (.movImm .rsi (Int64.ofNat (8 * block.size S.table))) v
      (v.set .rsi (BitVec.ofNat 64 (8 * block.size S.table))) := does_movImm (by decide) _
  have hmore : S.layout.Fits (v.sizes ++ [block.size S.table]) := by
    rw [hv.sizes, ← sizes_allocate]
    exact hfit
  obtain ⟨v₁, hdoes, hstack, hheap, houtput, hrbp, hr15, hrax⟩ :=
    exists_allocate (P := S.loaded) (v := v.set .rsi _) (size_pos S.table block) hmore rfl
  have hv₁ : S.Matches rbp (st.allocate block).2 words v₁ := by
    refine ⟨hstack.trans hv.stack, ?_, houtput.trans hv.output, hrbp.trans hv.rbp,
      hr15.trans hv.r15, hfit⟩
    rw [hheap, State.allocate, map_append, map_singleton, hzero]
    exact congrArg (· ++ _) hv.heap
  have hvalue : v₁.regs .rax = encode S.layout (st.allocate block).1 := by
    have hlength : v.heap.length = st.heap.length := by rw [hv.heap, length_map]
    rw [hrax]
    exact congrArg (fun n => BitVec.ofNat 64 (S.layout.place n)) hlength
  obtain ⟨v₂, hpush, hv₂, -⟩ := hv₁.push hroom (r := .rax) (by decide)
  exact ⟨v₂, ((Loaded.DoesAll.cons hset (.nil _)).append hdoes).append (.cons hpush (.nil _)),
    hvalue ▸ hv₂⟩

/-- A new object is put on the stack. -/
theorem moves_newObject (hroom : S.statics + words.length < S.layout.room) {className : String}
    {value : Value} {st' : State}
    (h : st.allocate (.object className (initialFields S.table className)) = (value, st'))
    (hfit : S.layout.Fits (st'.sizes S.table)) :
    S.Moves rbp k (Instr.ops [.movImm .rsi (Int64.ofNat (Lowering.objectSize S.table className))] ++
        Routine.allocate ++ Lowering.pushResult) st words st'
          (words ++ [encode S.layout value]) := by
  rw [objectSize_eq S.table className (initialFields S.table className)]
  cases h
  exact moves_allocate hroom (blockWords_object _ _ _) hfit

/-- The length of an array on the stack is replaced by a new array. -/
theorem moves_newArray (hroom : S.statics + words.length < S.layout.room) {element : Ty}
    {size value : Value} {st' : State} (h : newArray st element size = .ok (value, st'))
    (hfit : S.layout.Fits (st'.sizes S.table)) :
    S.Moves rbp k (Instr.ops [.load .rax ⟨.rsp, 0⟩, .aluImm .add .rax 1, .shlImm .rax 3,
        .movReg .rsi .rax] ++ Routine.allocate ++
        Instr.ops [.popReg .rcx, .store ⟨.rax, 0⟩ .rcx] ++ Lowering.pushResult) st
      (words ++ [encode S.layout size]) st' (words ++ [encode S.layout value]) := by
  obtain ⟨index, n, rfl, hindex, ⟨⟩⟩ := newArray_eq_ok h
  have hword : encode S.layout (.int index) = BitVec.ofNat 64 n := toBitVec_of_toInt hindex
  rw [hword, show (Routine.allocate : LabelledCode) = Instr.ops allocateOps from rfl,
    Lowering.pushResult, ← Instr.ops_append, ← Instr.ops_append, ← Instr.ops_append]
  refine moves_ops fun v hv => ?_
  have hstack : v.stack = (staticWords S.layout S.area st ++ words) ++ [BitVec.ofNat 64 n] := by
    rw [hv.stack, append_assoc]
  obtain ⟨v₁, hdoes₁, hrsi, hagrees⟩ := computes_arrayBytes (P := S.loaded) hv.fits_view hstack
  have hv₁ := hv.of_agrees hagrees
  have hmore : S.loaded.layout.Fits (v₁.sizes ++ [n + 1]) := by
    have hsize : (Block.array (List.replicate n (initialValue element))).size S.table = n + 1 := by
      rw [Block.size, length_replicate]
    rw [hv₁.sizes, ← hsize]
    exact (sizes_allocate st S.table _) ▸ hfit
  obtain ⟨v₂, hdoes₂, hstack₂, hheap₂, houtput₂, hrbp₂, hr15₂, hrax₂⟩ :=
    exists_allocate (Nat.succ_pos n) hmore hrsi
  have hlength : v₁.heap.length = st.heap.length := by rw [hv₁.heap, length_map]
  have hsizes₂ : v₂.sizes = v₁.sizes ++ [n + 1] := by
    rw [View.sizes, hheap₂, map_append, map_singleton, length_replicate]
    rfl
  have hfit₂ : S.loaded.layout.Fits v₂.sizes := hsizes₂ ▸ hmore
  have hnew : v₂.heap[v₁.heap.length]? = some (List.replicate (n + 1) 0) := by
    rw [hheap₂]
    exact getElem?_concat_length
  have hplace : S.layout.place v₁.heap.length < 2 ^ 64 := by
    have hinside := hfit₂.inside _ _ (View.getElem?_sizes hnew)
    rw [length_replicate] at hinside
    exact Nat.lt_of_lt_of_le (Nat.lt_add_of_pos_right (by omega)) hinside.2
  -- The length is taken off the stack and stored in the first word.
  obtain ⟨v₃, hpop, hstack₃, hrcx₃, hregs₃, hheap₃, houtput₃⟩ :=
    exists_popReg S.loaded.sys hfit₂ ((hstack₂.trans hagrees.stack).trans hstack)
      (show Reg.rcx ≠ .rsp by decide)
  have hfit₃ : S.loaded.layout.Fits v₃.sizes := by rwa [View.sizes, hheap₃]
  have hrax₃ := (hregs₃ .rax (by decide)).trans hrax₂
  have hstore : Does S.loaded.sys S.layout (.store ⟨.rax, 0⟩ .rcx) v₃ _ :=
    does_store_block hfit₃ (by decide) (j := 0) (View.address_of_zero hrax₃ hplace)
      (hheap₃ ▸ hnew) (by simp) (show Reg.rcx ≠ .rsp by decide)
  rw [hrcx₃] at hstore
  have hv₄ : S.Matches rbp (st.allocate (.array (List.replicate n (initialValue element)))).2 words
      { v₃ with
        heap := v₃.heap.set v₁.heap.length
          ((List.replicate (n + 1) 0).set 0 (BitVec.ofNat 64 n)) } := by
    refine ⟨hstack₃, ?_, (houtput₃.trans houtput₂).trans hv₁.output,
      ((hregs₃ .rbp (by decide)).trans hrbp₂).trans hv₁.rbp,
      ((hregs₃ .r15 (by decide)).trans hr15₂).trans hv₁.r15, hfit⟩
    rw [State.allocate, map_append, map_singleton, blockWords_array, ← hv₁.heap]
    show v₃.heap.set _ _ = _
    rw [hheap₃, hheap₂, set_append_right _ _ (Nat.le_refl _), Nat.sub_self]
    rfl
  obtain ⟨v₅, hpush, hv₅, -⟩ := hv₄.push hroom (r := .rax) (by decide)
  have hvalue : v₃.regs .rax = encode S.layout (.ref st.heap.length) := by
    rw [hrax₃, hlength]
    rfl
  refine ⟨v₅, ((hdoes₁.append hdoes₂).append (.cons hpop (.cons hstore (.nil _)))).append
    (.cons hpush (.nil _)), ?_⟩
  rw [← hvalue]
  exact hv₅

end Setting

end Preservation

end MiniJava
