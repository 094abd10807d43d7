import MiniJava.Proofs.Machine.Memory

/-!
# Machines seen as words

Generated code works on whole words: it pushes and pops, reads and writes words of the
stack and words of the blocks that it has mapped. A `View` is a machine reduced to
that: the stack is a list of words that grows at its end, and the heap a list of
blocks, each a list of words. A `Layout` says at which addresses the words are, and
`Shows` that a machine looks like a view.

Each operation on a machine that looks like a view gives one that looks like the view
after the same operation on lists (`Does`). What is left of addresses is arithmetic in
the hypotheses; that blocks and stack do not overlap is used here and nowhere else.
-/

namespace MiniJava

open List

namespace Execution

/-- Where the stack ends and how many words it can hold, and the addresses of blocks. -/
structure Layout where
  top : Nat
  room : Nat
  place : Nat → Nat

namespace Layout

/-- The address of a word of the stack, counted from its beginning. -/
def slot (L : Layout) (i : Nat) : Nat := L.top - 8 * (i + 1)

/-- Blocks with these numbers of words do not overlap with each other or with the stack, and none
of them begins at zero or reaches beyond the last address. -/
structure Fits (L : Layout) (sizes : List Nat) : Prop where
  top_lt : L.top < 2 ^ 64
  below : 8 * L.room ≤ L.top
  inside : ∀ (k n : Nat), sizes[k]? = some n → 0 < L.place k ∧ L.place k + 8 * n ≤ 2 ^ 64
  apart_stack : ∀ (k n : Nat), sizes[k]? = some n →
    L.place k + 8 * n ≤ L.top - 8 * L.room ∨ L.top ≤ L.place k
  apart : ∀ (j k n n' : Nat), sizes[j]? = some n → sizes[k]? = some n' → j ≠ k →
    L.place j + 8 * n ≤ L.place k ∨ L.place k + 8 * n' ≤ L.place j

/-- What fits is not disturbed by blocks that come later. -/
theorem Fits.of_prefix {L : Layout} {sizes more : List Nat} (h : L.Fits more)
    (hpre : sizes <+: more) : L.Fits sizes := by
  have hget : ∀ (k n : Nat), sizes[k]? = some n → more[k]? = some n := by
    intro k n hk
    obtain ⟨_, rfl⟩ := hpre
    rw [List.getElem?_append_left (List.getElem?_eq_some_iff.mp hk).1]
    exact hk
  exact ⟨h.top_lt, h.below, fun k n hk => h.inside k n (hget k n hk),
    fun k n hk => h.apart_stack k n (hget k n hk),
    fun j k n n' hj hk => h.apart j k n n' (hget j n hj) (hget k n' hk)⟩

end Layout

/-- A machine as words. The contents of `rsp` follow from the length of the stack. -/
structure View where
  regs : Reg → Word
  flags : Option Flags
  stack : List Word
  heap : List (List Word)
  output : List UInt8
  calls : Nat

namespace View

/-- The numbers of words of the blocks. -/
def sizes (v : View) : List Nat := v.heap.map List.length

/-- Sets a register. -/
def set (v : View) (r : Reg) (w : Word) : View :=
  { v with regs := fun x => if x = r then w else v.regs x }

end View

/-- A machine looks like a view. -/
structure Shows (L : Layout) (v : View) (m : Machine) : Prop where
  regs : ∀ r, r ≠ .rsp → m.regs r = v.regs r
  rsp : m.regs .rsp = BitVec.ofNat 64 (L.top - 8 * v.stack.length)
  flags : m.flags = v.flags
  room : v.stack.length ≤ L.room
  stack : ∀ (i : Nat) w, v.stack[i]? = some w → m.memory.readWord (L.slot i) = w
  heap : ∀ (k j : Nat) block w, v.heap[k]? = some block → block[j]? = some w →
    m.memory.readWord (L.place k + 8 * j) = w
  stackRange : (L.top - 8 * L.room, L.top) ∈ m.ranges
  heapRange : ∀ (k : Nat) block, v.heap[k]? = some block →
    (L.place k, L.place k + 8 * block.length) ∈ m.ranges
  output : m.output = v.output
  mappings : m.mappings = v.heap.length
  calls : m.calls = v.calls

section

variable {L : Layout} {v : View} {m : Machine}

/-! ## Access -/

theorem accessible_of_mem {first stop address count : Nat} (h : (first, stop) ∈ m.ranges)
    (hfirst : first ≤ address) (hstop : address + count ≤ stop) :
    m.accessible address count = true := by
  rw [Machine.accessible, any_eq_true]
  exact ⟨_, h, by simp [hfirst, hstop]⟩

variable {dst src r base : Reg} {block stack : List Word} {w : Word} {k i j n : Nat}

section

variable (h : Shows L v m)
include h

theorem Shows.accessible_slot (hfit : L.Fits v.sizes) (hi : i < L.room) :
    m.accessible (L.slot i) 8 = true := by
  have hbelow := hfit.below
  refine accessible_of_mem h.stackRange ?_ ?_
  · unfold Layout.slot
    omega
  · unfold Layout.slot
    omega

theorem Shows.load_slot (hfit : L.Fits v.sizes) (hi : v.stack[i]? = some w) :
    m.load? (L.slot i) = some w := by
  have hlt := (List.getElem?_eq_some_iff.mp hi).1
  rw [Machine.load?, if_pos (h.accessible_slot hfit (Nat.lt_of_lt_of_le hlt h.room)),
    h.stack i w hi]

theorem Shows.accessible_block (hk : v.heap[k]? = some block) (hj : j < block.length) :
    m.accessible (L.place k + 8 * j) 8 = true :=
  accessible_of_mem (h.heapRange k block hk) (by omega) (by omega)

theorem Shows.load_block (hk : v.heap[k]? = some block) (hj : block[j]? = some w) :
    m.load? (L.place k + 8 * j) = some w := by
  have hlt := (List.getElem?_eq_some_iff.mp hj).1
  rw [Machine.load?, if_pos (h.accessible_block hk hlt), h.heap k j block w hk hj]

omit h in
theorem View.getElem?_sizes (hk : v.heap[k]? = some block) : v.sizes[k]? = some block.length := by
  rw [View.sizes, List.getElem?_map, hk]
  rfl

omit h in
/-- A word of a block is apart from all words of the stack. -/
theorem apart_slot_block (hfit : L.Fits v.sizes) (hi : i < L.room) (hk : v.heap[k]? = some block)
    (hj : j < block.length) :
    L.place k + 8 * j + 8 ≤ L.slot i ∨ L.slot i + 8 ≤ L.place k + 8 * j := by
  have hbelow := hfit.below
  have hapart := hfit.apart_stack k block.length (View.getElem?_sizes hk)
  unfold Layout.slot
  omega

omit h in
/-- Two words of the stack are apart. -/
theorem apart_slot_slot (hfit : L.Fits v.sizes) (hi : i < L.room) (hj : j < L.room) (hne : i ≠ j) :
    L.slot j + 8 ≤ L.slot i ∨ L.slot i + 8 ≤ L.slot j := by
  have hbelow := hfit.below
  unfold Layout.slot
  omega

/-! ## Changing a machine -/

/-- A word of the stack is replaced. -/
theorem Shows.store_slot (hfit : L.Fits v.sizes) (hi : i < v.stack.length) (w : Word) :
    ∃ m', m.store? (L.slot i) w = some m' ∧ Shows L { v with stack := v.stack.set i w } m' := by
  have hroom := h.room
  refine ⟨_, if_pos (h.accessible_slot hfit (by omega)), ?_⟩
  refine { h with rsp := ?_, room := ?_, stack := ?_, heap := ?_ }
  · simpa using h.rsp
  · simpa using h.room
  · intro j w' hj
    have hjlen := (List.getElem?_eq_some_iff.mp hj).1
    rw [length_set] at hjlen
    by_cases hij : i = j
    · subst hij
      rw [getElem?_set_self hi] at hj
      cases hj
      exact Memory.readWord_writeWord _ _ _
    · rw [getElem?_set_ne hij] at hj
      refine (Memory.readWord_writeWord_of_apart w ?_).trans (h.stack j w' hj)
      have := apart_slot_slot hfit (i := i) (j := j) (by omega) (by omega) hij
      omega
  · intro k j block w' hk hj
    have hjlen := (List.getElem?_eq_some_iff.mp hj).1
    refine (Memory.readWord_writeWord_of_apart w ?_).trans (h.heap k j block w' hk hj)
    exact apart_slot_block hfit (by omega) hk hjlen

/-- A word of a block is replaced. -/
theorem Shows.store_block (hfit : L.Fits v.sizes) (hk : v.heap[k]? = some block)
    (hj : j < block.length) (w : Word) :
    ∃ m', m.store? (L.place k + 8 * j) w = some m' ∧
      Shows L { v with heap := v.heap.set k (block.set j w) } m' := by
  have hklen := (List.getElem?_eq_some_iff.mp hk).1
  refine ⟨_, if_pos (h.accessible_block hk hj), ?_⟩
  refine { h with stack := ?_, heap := ?_, heapRange := ?_, mappings := ?_ }
  · intro i w' hi
    have hilen := (List.getElem?_eq_some_iff.mp hi).1
    refine (Memory.readWord_writeWord_of_apart w ?_).trans (h.stack i w' hi)
    have := apart_slot_block hfit (i := i) (Nat.lt_of_lt_of_le hilen h.room) hk hj
    omega
  · -- Only a word at the same place of the same block is another one.
    intro k' j' block' w' hk' hj'
    by_cases hkk : k = k'
    · subst hkk
      rw [getElem?_set_self hklen] at hk'
      cases hk'
      by_cases hjj : j = j'
      · subst hjj
        rw [getElem?_set_self hj] at hj'
        cases hj'
        exact Memory.readWord_writeWord _ _ _
      · rw [getElem?_set_ne hjj] at hj'
        exact (Memory.readWord_writeWord_of_apart w (by omega)).trans (h.heap k j' block w' hk hj')
    · rw [getElem?_set_ne hkk] at hk'
      have hjlen := (List.getElem?_eq_some_iff.mp hj').1
      have hapart := hfit.apart k k' block.length block'.length (View.getElem?_sizes hk)
        (View.getElem?_sizes hk') hkk
      refine (Memory.readWord_writeWord_of_apart w ?_).trans (h.heap k' j' block' w' hk' hj')
      omega
  · intro k' block' hk'
    by_cases hkk : k = k'
    · subst hkk
      rw [getElem?_set_self hklen] at hk'
      cases hk'
      rw [length_set]
      exact h.heapRange k block hk
    · rw [getElem?_set_ne hkk] at hk'
      exact h.heapRange k' block' hk'
  · simpa using h.mappings

/-- A register other than `rsp` is set. -/
theorem Shows.set (hr : r ≠ .rsp) (w : Word) : Shows L (v.set r w) (m.set r w) := by
  refine { h with regs := ?_, rsp := ?_ }
  · intro x hx
    simp only [Machine.set, View.set]
    split
    next => rfl
    next => exact h.regs x hx
  · simpa [Machine.set, View.set, hr.symm] using h.rsp

theorem Shows.setFlags (flags : Option Flags) :
    Shows L { v with flags := flags } { m with flags := flags } := { h with flags := rfl }

theorem Shows.setRip (rip : Nat) : Shows L v { m with rip := rip } := { h with }

/-- The stack pointer is moved to the end of another stack whose words are there. -/
theorem Shows.setStack (stack : List Word) (hroom : stack.length ≤ L.room)
    (hstack : ∀ (i : Nat) w, stack[i]? = some w → m.memory.readWord (L.slot i) = w) :
    Shows L { v with stack := stack }
      (m.set .rsp (BitVec.ofNat 64 (L.top - 8 * stack.length))) := by
  refine { h with regs := ?_, rsp := ?_, room := hroom, stack := hstack }
  · intro r hr
    simpa [Machine.set, hr] using h.regs r hr
  · simp [Machine.set]

end

/-! ## The stack -/

theorem sub_slot (hfit : L.Fits v.sizes) (hn : n + k ≤ L.room) :
    BitVec.ofNat 64 (L.top - 8 * n) - BitVec.ofNat 64 (8 * k) =
      BitVec.ofNat 64 (L.top - 8 * (n + k)) := by
  have htop := hfit.top_lt
  have hbelow := hfit.below
  apply BitVec.eq_of_toNat_eq
  rw [BitVec.toNat_sub, BitVec.toNat_ofNat, BitVec.toNat_ofNat, BitVec.toNat_ofNat]
  omega

theorem add_slot (hfit : L.Fits v.sizes) (hn : n + k ≤ L.room) :
    BitVec.ofNat 64 (L.top - 8 * (n + k)) + BitVec.ofNat 64 (8 * k) =
      BitVec.ofNat 64 (L.top - 8 * n) := by
  have htop := hfit.top_lt
  have hbelow := hfit.below
  apply BitVec.eq_of_toNat_eq
  rw [BitVec.toNat_add, BitVec.toNat_ofNat, BitVec.toNat_ofNat, BitVec.toNat_ofNat]
  omega

theorem toNat_slot (hfit : L.Fits v.sizes) (i : Nat) :
    (BitVec.ofNat 64 (L.slot i)).toNat = L.slot i := by
  have htop := hfit.top_lt
  rw [BitVec.toNat_ofNat]
  unfold Layout.slot
  omega

/-- Pushing a word adds it to the stack and changes nothing else. -/
theorem Shows.push (h : Shows L v m) (hfit : L.Fits v.sizes) (hroom : v.stack.length < L.room)
    (w : Word) :
    ∃ m', m.push? w = some m' ∧ Shows L { v with stack := v.stack ++ [w] } m' := by
  have hrsp : m.regs .rsp - 8 = BitVec.ofNat 64 (L.slot v.stack.length) := by
    rw [h.rsp]
    exact sub_slot (k := 1) hfit hroom
  have hslot : L.slot v.stack.length = L.top - 8 * (v.stack ++ [w]).length := by simp [Layout.slot]
  -- The new word is below all others of the stack.
  have hwrite : ∀ (i : Nat) w', (v.stack ++ [w])[i]? = some w' →
      (m.memory.writeWord (L.slot v.stack.length) w).readWord (L.slot i) = w' := by
    intro i w' hi
    rcases Nat.lt_trichotomy i v.stack.length with hlt | rfl | _
    · rw [getElem?_append_left hlt] at hi
      refine (Memory.readWord_writeWord_of_apart w ?_).trans (h.stack i w' hi)
      have := apart_slot_slot hfit (i := i) (j := v.stack.length) (by omega) hroom (by omega)
      omega
    · rw [getElem?_append_right (Nat.le_refl _), Nat.sub_self] at hi
      cases hi
      exact Memory.readWord_writeWord _ _ _
    · rw [getElem?_eq_none (by simp; omega)] at hi
      cases hi
  have hmemory : Shows L v { m with memory := m.memory.writeWord (L.slot v.stack.length) w } := by
    refine { h with stack := ?_, heap := ?_ }
    · intro i w' hi
      exact hwrite i w' (by rw [List.getElem?_append_left (List.getElem?_eq_some_iff.mp hi).1, hi])
    · intro k j block w' hk hj
      refine (Memory.readWord_writeWord_of_apart w ?_).trans (h.heap k j block w' hk hj)
      exact apart_slot_block hfit hroom hk (List.getElem?_eq_some_iff.mp hj).1
  refine ⟨_, ?_, hmemory.setStack (v.stack ++ [w]) (by simp; omega) hwrite⟩
  rw [Machine.push?, hrsp, toNat_slot hfit, Machine.store?, if_pos (h.accessible_slot hfit hroom),
    hslot]
  rfl

theorem Shows.pop (h : Shows L v m) (hfit : L.Fits v.sizes) (hstack : v.stack = stack ++ [w]) :
    ∃ m', m.pop? = some (w, m') ∧ Shows L { v with stack := stack } m' := by
  have hroom : stack.length + 1 ≤ L.room := by simpa [hstack] using h.room
  have hrsp : m.regs .rsp = BitVec.ofNat 64 (L.slot stack.length) := by
    rw [h.rsp, hstack]
    simp [Layout.slot]
  have hload : m.load? (L.slot stack.length) = some w := h.load_slot hfit (by simp [hstack])
  refine ⟨_, ?_, h.setStack stack (by omega) ?_⟩
  · rw [Machine.pop?, hrsp, toNat_slot hfit, hload, ← add_slot (k := 1) hfit hroom]
    rfl
  · intro i w' hi
    refine h.stack i w' ?_
    rw [hstack, List.getElem?_append_left (List.getElem?_eq_some_iff.mp hi).1, hi]

/-! ## Operations -/

/-- Whatever looks like the first view looks like the second one after the operation. -/
def Does (sys : System) (L : Layout) (o : Op) (v v' : View) : Prop :=
  ∀ m, Shows L v m → ∃ m', exec? sys m o = some m' ∧ Shows L v' m'

/-- The address of an operand in memory whose base is not `rsp`. -/
def View.address (v : View) (operand : Mem) : Nat :=
  (v.regs operand.base + operand.disp.toBitVec.signExtend 64).toNat

theorem Shows.address (h : Shows L v m) {operand : Mem} (hbase : operand.base ≠ .rsp) :
    m.address operand = v.address operand := by
  rw [Machine.address, View.address, h.regs _ hbase]

theorem View.address_of_disp {a b : Nat} {d : Int} (hbase : v.regs base = BitVec.ofNat 64 a)
    (h : (a : Int) + d = b) (hb : b < 2 ^ 64) (hd : -2 ^ 31 ≤ d) (hd' : d < 2 ^ 31) :
    v.address ⟨base, Int32.ofInt d⟩ = b := by
  rw [View.address, hbase, signExtend_ofInt hd hd', toNat_ofNat_add_ofInt h hb]

theorem View.address_of_zero {address : Nat} (hbase : v.regs base = BitVec.ofNat 64 address)
    (hlt : address < 2 ^ 64) :
    v.address ⟨base, 0⟩ = address := by
  have hzero : (0 : Int32) = Int32.ofInt 0 := by decide
  rw [hzero]
  exact View.address_of_disp hbase (Int.add_zero _) hlt (by decide) (by decide)

/-- As a word, the address is right even beyond the last one. -/
theorem View.ofNat_address {a b : Nat} {d : Int} (hbase : v.regs base = BitVec.ofNat 64 a)
    (h : (a : Int) + d = b) (hd : -2 ^ 31 ≤ d) (hd' : d < 2 ^ 31) :
    BitVec.ofNat 64 (v.address ⟨base, Int32.ofInt d⟩) = BitVec.ofNat 64 b := by
  rw [View.address, hbase, signExtend_ofInt hd hd', ofNat_add_ofInt h, BitVec.ofNat_toNat,
    BitVec.setWidth_eq]

variable {sys : System}

section

variable (hfit : L.Fits v.sizes)
include hfit

theorem does_pushReg (hroom : v.stack.length < L.room) (hr : r ≠ .rsp) :
    Does sys L (.pushReg r) v { v with stack := v.stack ++ [v.regs r] } := by
  intro _ h
  obtain ⟨m', hm', hshows⟩ := h.push hfit hroom (v.regs r)
  exact ⟨m', by rw [exec?, h.regs r hr, hm'], hshows⟩

theorem does_pushImm (hroom : v.stack.length < L.room) (imm : Int32) :
    Does sys L (.pushImm imm) v { v with stack := v.stack ++ [immediate imm] } :=
  fun _ h => h.push hfit hroom (immediate imm)

theorem does_pushMem (hroom : v.stack.length < L.room) {operand : Mem} (hbase : operand.base ≠ .rsp)
    (ha : v.address operand = L.slot i) (hi : v.stack[i]? = some w) :
    Does sys L (.pushMem operand) v { v with stack := v.stack ++ [w] } := by
  intro _ h
  obtain ⟨m', hm', hshows⟩ := h.push hfit hroom w
  refine ⟨m', ?_, hshows⟩
  rw [exec?, h.address hbase, ha, h.load_slot hfit hi]
  exact hm'

theorem does_popReg (hstack : v.stack = stack ++ [w]) (hr : r ≠ .rsp) :
    Does sys L (.popReg r) v (View.set { v with stack := stack } r w) := by
  intro _ h
  obtain ⟨m', hm', hshows⟩ := h.pop hfit hstack
  exact ⟨m'.set r w, by rw [exec?, hm']; rfl, hshows.set hr w⟩

omit hfit in
/-- A word is taken off the stack into a register, and nothing else changes. -/
theorem exists_popReg (sys : System) (hfit : L.Fits v.sizes) (hstack : v.stack = stack ++ [w])
    (hr : r ≠ .rsp) :
    ∃ v', Does sys L (.popReg r) v v' ∧ v'.stack = stack ∧ v'.regs r = w ∧
      (∀ x, x ≠ r → v'.regs x = v.regs x) ∧ v'.heap = v.heap ∧ v'.output = v.output :=
  ⟨_, does_popReg hfit hstack hr, rfl, if_pos rfl, fun _ hx => if_neg hx, rfl, rfl⟩

theorem does_load_slot {src : Mem} (hbase : src.base ≠ .rsp) (ha : v.address src = L.slot i)
    (hi : v.stack[i]? = some w) (hdst : dst ≠ .rsp) :
    Does sys L (.load dst src) v (v.set dst w) := by
  intro m h
  refine ⟨m.set dst w, ?_, h.set hdst w⟩
  rw [exec?, h.address hbase, ha, h.load_slot hfit hi]
  rfl

omit hfit in
theorem does_load_block {src : Mem} (hbase : src.base ≠ .rsp)
    (ha : v.address src = L.place k + 8 * j) (hk : v.heap[k]? = some block)
    (hj : block[j]? = some w) (hdst : dst ≠ .rsp) : Does sys L (.load dst src) v (v.set dst w) := by
  intro m h
  refine ⟨m.set dst w, ?_, h.set hdst w⟩
  rw [exec?, h.address hbase, ha, h.load_block hk hj]
  rfl

/-- The word on top of the stack is read where it is. -/
theorem does_load_top (hstack : v.stack = stack ++ [w]) (hdst : dst ≠ .rsp) :
    Does sys L (.load dst ⟨.rsp, 0⟩) v (v.set dst w) := by
  intro m h
  have haddress : m.address ⟨.rsp, 0⟩ = L.slot stack.length := by
    refine address_of_disp (d := 0) (a := L.slot stack.length) ?_ (by omega) ?_
      (by omega) (by omega)
    · rw [h.rsp, hstack]
      simp [Layout.slot]
    · have := hfit.top_lt
      unfold Layout.slot
      omega
  refine ⟨m.set dst w, ?_, h.set hdst w⟩
  rw [exec?, haddress, h.load_slot hfit (w := w) (by simp [hstack])]
  rfl

theorem does_store_slot {dst : Mem} (hbase : dst.base ≠ .rsp) (ha : v.address dst = L.slot i)
    (hi : i < v.stack.length) (hsrc : src ≠ .rsp) :
    Does sys L (.store dst src) v { v with stack := v.stack.set i (v.regs src) } := by
  intro _ h
  obtain ⟨m', hm', hshows⟩ := h.store_slot hfit hi (v.regs src)
  exact ⟨m', by rw [exec?, h.address hbase, ha, h.regs src hsrc, hm'], hshows⟩

theorem does_store_block {dst : Mem} (hbase : dst.base ≠ .rsp)
    (ha : v.address dst = L.place k + 8 * j) (hk : v.heap[k]? = some block) (hj : j < block.length)
    (hsrc : src ≠ .rsp) :
    Does sys L (.store dst src) v
      { v with heap := v.heap.set k (block.set j (v.regs src)) } := by
  intro _ h
  obtain ⟨m', hm', hshows⟩ := h.store_block hfit hk hj (v.regs src)
  exact ⟨m', by rw [exec?, h.address hbase, ha, h.regs src hsrc, hm'], hshows⟩

end

/-! ### Registers -/

theorem does_movReg (hdst : dst ≠ .rsp) (hsrc : src ≠ .rsp) :
    Does sys L (.movReg dst src) v (v.set dst (v.regs src)) :=
  fun m h => ⟨m.set dst (v.regs src), by rw [exec?, h.regs src hsrc], h.set hdst _⟩

theorem does_movReg_rsp (hdst : dst ≠ .rsp) :
    Does sys L (.movReg dst .rsp) v
      (v.set dst (BitVec.ofNat 64 (L.top - 8 * v.stack.length))) :=
  fun m h => ⟨_, by rw [exec?, h.rsp], h.set hdst _⟩

/-- The stack is cut back to where a register points. -/
theorem does_rsp_movReg (hsrc : src ≠ .rsp) {rest : List Word} (hstack : v.stack = stack ++ rest)
    (hreg : v.regs src = BitVec.ofNat 64 (L.top - 8 * stack.length)) :
    Does sys L (.movReg .rsp src) v { v with stack := stack } := by
  intro _ h
  refine ⟨_, by rw [exec?, h.regs src hsrc, hreg], h.setStack stack ?_ ?_⟩
  · have hroom := h.room
    rw [hstack, length_append] at hroom
    omega
  · intro i w hi
    refine h.stack i w ?_
    rw [hstack, List.getElem?_append_left (List.getElem?_eq_some_iff.mp hi).1, hi]

theorem does_movImm (hdst : dst ≠ .rsp) (imm : Int64) :
    Does sys L (.movImm dst imm) v (v.set dst imm.toBitVec) :=
  fun _ h => ⟨_, rfl, h.set hdst _⟩

theorem does_lea (hdst : dst ≠ .rsp) {src : Mem} (hbase : src.base ≠ .rsp) :
    Does sys L (.lea dst src) v (v.set dst (BitVec.ofNat 64 (v.address src))) :=
  fun m h => ⟨_, by rw [exec?, h.address hbase], h.set hdst _⟩

/-- Stores the result of arithmetic in a register, with the flags that belong to it. -/
def View.setResult (v : View) (r : Reg) (result : Word × Flags) : View :=
  { v.set r result.1 with flags := some result.2 }

theorem Shows.setResult (h : Shows L v m) (hr : r ≠ .rsp) (result : Word × Flags) :
    Shows L (v.setResult r result) (m.setResult r result) := (h.set hr _).setFlags _

theorem does_alu {op : ArithOp} (hdst : dst ≠ .rsp) (hsrc : src ≠ .rsp) :
    Does sys L (.alu op dst src) v (v.setResult dst (arith op (v.regs dst) (v.regs src))) :=
  fun m h => ⟨_, by rw [exec?, h.regs dst hdst, h.regs src hsrc], h.setResult hdst _⟩

theorem does_aluImm {op : ArithOp} (hdst : dst ≠ .rsp) (imm : Int32) :
    Does sys L (.aluImm op dst imm) v (v.setResult dst (arith op (v.regs dst) (immediate imm))) :=
  fun m h => ⟨_, by rw [exec?, h.regs dst hdst], h.setResult hdst _⟩

theorem does_neg (hr : r ≠ .rsp) :
    Does sys L (.neg r) v (v.setResult r (arith .sub 0 (v.regs r))) :=
  fun m h => ⟨_, by rw [exec?, h.regs r hr], h.setResult hr _⟩

theorem does_imul (hdst : dst ≠ .rsp) (hsrc : src ≠ .rsp) :
    Does sys L (.imul dst src) v { v.set dst (v.regs dst * v.regs src) with flags := none } :=
  fun m h => ⟨_, by rw [exec?, h.regs dst hdst, h.regs src hsrc], (h.set hdst _).setFlags none⟩

theorem does_shlImm (hdst : dst ≠ .rsp) (imm : UInt8) :
    Does sys L (.shlImm dst imm) v
      { v.set dst (v.regs dst <<< (imm.toNat % 64)) with flags := none } :=
  fun m h => ⟨_, by rw [exec?, h.regs dst hdst], (h.set hdst _).setFlags none⟩

theorem does_cqo : Does sys L .cqo v (v.set .rdx (if (v.regs .rax).msb then -1 else 0)) :=
  fun m h => ⟨_, by rw [exec?, h.regs .rax (by decide)], h.set (by decide) _⟩

theorem does_idiv {divisor : Reg} (hr : divisor ≠ .rsp) {result : Word × Word}
    (hdiv : signedDivide? (v.regs .rdx) (v.regs .rax) (v.regs divisor) = some result) :
    Does sys L (.idiv divisor) v
      { (v.set .rax result.1).set .rdx result.2 with flags := none } := by
  intro m h
  refine ⟨m.setQuotient result, ?_, ((h.set (by decide) _).set (by decide) _).setFlags none⟩
  rw [exec?, h.regs .rdx (by decide), h.regs .rax (by decide), h.regs divisor hr, hdiv]
  rfl

theorem does_setcc {cond : Cond} (hdst : dst ≠ .rsp) {flags : Flags}
    (hflags : v.flags = some flags) :
    Does sys L (.setcc cond dst) v
      (v.set dst (setLowByte (v.regs dst) (holds flags cond))) := by
  intro _ h
  refine ⟨_, ?_, h.set hdst _⟩
  rw [exec?, h.flags, hflags, h.regs dst hdst]
  rfl

theorem does_movzxByte (hdst : dst ≠ .rsp) (hsrc : src ≠ .rsp) :
    Does sys L (.movzxByte dst src) v (v.set dst (v.regs src &&& 0xFF)) :=
  fun m h => ⟨_, by rw [exec?, h.regs src hsrc], h.set hdst _⟩

/-- Words are taken off the stack. -/
theorem does_drop (sys : System) (hfit : L.Fits v.sizes) {rest : List Word}
    (hstack : v.stack = stack ++ rest) {imm : Int32}
    (himm : immediate imm = BitVec.ofNat 64 (8 * rest.length)) :
    ∃ flags, Does sys L (.aluImm .add .rsp imm) v { v with stack := stack, flags := flags } := by
  refine ⟨some (addFlags (BitVec.ofNat 64 (L.top - 8 * v.stack.length)) (immediate imm)), ?_⟩
  intro _ h
  have hroom := h.room
  rw [hstack, length_append] at hroom
  have hshows := h.setStack stack (by omega) fun i w hi => by
    refine h.stack i w ?_
    rw [hstack, List.getElem?_append_left (List.getElem?_eq_some_iff.mp hi).1, hi]
  refine ⟨_, ?_, hshows.setFlags _⟩
  rw [exec?, h.rsp, arith, Machine.setResult, himm, hstack, length_append, add_slot hfit hroom]

/-! ### Conditions -/

theorem zero_subFlags (a b : Word) : (subFlags a b).zero = decide (a = b) := by
  rw [subFlags, Bool.eq_iff_iff, beq_iff_eq, decide_eq_true_iff]
  exact BitVec.sub_eq_iff_eq_add.trans (by simp)

/-- The sign of a difference is wrong exactly if it overflows. -/
theorem sign_bne_overflow (a b : Word) :
    ((subFlags a b).sign != (subFlags a b).overflow) = decide (a.toInt < b.toInt) := by
  have ha : a.toInt < 2 ^ 63 := a.toInt_lt
  have ha' : -2 ^ 63 ≤ a.toInt := a.le_toInt
  have hb : b.toInt < 2 ^ 63 := b.toInt_lt
  have hb' : -2 ^ 63 ≤ b.toInt := b.le_toInt
  have hsub : (a - b).toInt = (a.toInt - b.toInt).bmod (2 ^ 64) := BitVec.toInt_sub
  rw [subFlags, BitVec.msb_eq_toInt, hsub, BitVec.ssubOverflow, Int.bmod_def]
  rw [Bool.eq_iff_iff, bne_iff_ne, decide_eq_true_iff, ne_eq, Bool.eq_iff_iff, Bool.or_eq_true,
    decide_eq_true_iff, decide_eq_true_iff, decide_eq_true_iff]
  omega

/-- What a condition says of two words that have been compared. -/
def compares (a b : Word) : Cond → Bool
  | .equal => a = b
  | .notEqual => a ≠ b
  | .less => a.toInt < b.toInt
  | .greaterEq => b.toInt ≤ a.toInt
  | .lessEq => a.toInt ≤ b.toInt
  | .greater => b.toInt < a.toInt

theorem holds_subFlags (a b : Word) (cond : Cond) :
    holds (subFlags a b) cond = compares a b cond := by
  have hzero := zero_subFlags a b
  have hless := sign_bne_overflow a b
  have hge : ((subFlags a b).sign == (subFlags a b).overflow) = !decide (a.toInt < b.toInt) := by
    rw [← hless, bne, Bool.not_not]
  have heq : a = b ↔ a.toInt = b.toInt := BitVec.toInt_inj.symm
  cases cond with
  | equal => exact hzero
  | notEqual =>
    rw [holds, hzero, compares, Bool.eq_iff_iff]
    simp
  | less => exact hless
  | greaterEq =>
    rw [holds, hge, compares, Bool.eq_iff_iff]
    simp
  | lessEq =>
    rw [holds, hzero, hless, compares, Bool.eq_iff_iff, Bool.or_eq_true, decide_eq_true_iff,
      decide_eq_true_iff, decide_eq_true_iff, heq]
    omega
  | greater =>
    rw [holds, hzero, hge, compares, Bool.eq_iff_iff, Bool.and_eq_true, Bool.not_eq_true',
      Bool.not_eq_true', decide_eq_false_iff_not, decide_eq_false_iff_not, decide_eq_true_iff, heq]
    omega

/-! ### System calls -/

/-- What every system call that comes back does to the registers, besides its result. -/
def View.called (v : View) (sys : System) : View :=
  { (v.set .rcx (sys.scratch v.calls).1).set .r11 (sys.scratch v.calls).2 with
    flags := none, calls := v.calls + 1 }

theorem Shows.called (h : Shows L v m) :
    Shows L (v.called sys)
      { (m.set .rcx (sys.scratch m.calls).1).set .r11 (sys.scratch m.calls).2 with
        flags := none, calls := m.calls + 1 } := by
  rw [h.calls]
  refine { (h.set (by decide) _).set (by decide) _ with flags := rfl, calls := rfl }

/-- New memory is one more block, and all its words are zero. -/
theorem Shows.mapped (h : Shows L v m) (hfit : L.Fits (v.sizes ++ [n]))
    (hplace : sys.place = L.place) :
    Shows L { v with heap := v.heap ++ [List.replicate n 0] }
      { m with
        memory := m.memory.writeBytes (sys.place m.mappings) (List.replicate (8 * n) 0)
        ranges := (sys.place m.mappings, sys.place m.mappings + 8 * n) :: m.ranges
        mappings := m.mappings + 1 } := by
  have hlength : v.sizes.length = v.heap.length := length_map _
  have hnew : (v.sizes ++ [n])[v.heap.length]? = some n := by simp [← hlength]
  have hold : ∀ (k : Nat) block, v.heap[k]? = some block →
      (v.sizes ++ [n])[k]? = some block.length := by
    intro k block hk
    have hsize := View.getElem?_sizes hk
    rw [List.getElem?_append_left (List.getElem?_eq_some_iff.mp hsize).1, hsize]
  -- A block of the new heap is an old one, or the one that is all zero.
  have hcases : ∀ (k : Nat) block, (v.heap ++ [List.replicate n 0])[k]? = some block →
      v.heap[k]? = some block ∨ k = v.heap.length ∧ block = List.replicate n 0 := by
    intro k block hk
    rcases Nat.lt_trichotomy k v.heap.length with hlt | rfl | _
    · rw [getElem?_append_left hlt] at hk
      exact .inl hk
    · rw [getElem?_append_right (Nat.le_refl _), Nat.sub_self] at hk
      cases hk
      exact .inr ⟨rfl, rfl⟩
    · rw [getElem?_eq_none (by simp; omega)] at hk
      cases hk
  rw [hplace, h.mappings]
  refine { h with stack := ?_, heap := ?_, stackRange := ?_, heapRange := ?_, mappings := ?_ }
  · intro i w hi
    have hilen : i < v.stack.length := (List.getElem?_eq_some_iff.mp hi).1
    have hroom := h.room
    have hbelow := hfit.below
    have hapart := hfit.apart_stack _ n hnew
    refine (Memory.readWord_writeBytes_of_apart ?_).trans (h.stack i w hi)
    rw [length_replicate]
    unfold Layout.slot
    omega
  · intro k j block w hk hj
    rcases hcases k block hk with hk | ⟨rfl, rfl⟩
    · have hjlen := (List.getElem?_eq_some_iff.mp hj).1
      have hklen := (List.getElem?_eq_some_iff.mp hk).1
      have hapart := hfit.apart k _ block.length n (hold k block hk) hnew (by omega)
      refine (Memory.readWord_writeBytes_of_apart ?_).trans (h.heap k j block w hk hj)
      rw [length_replicate]
      omega
    · obtain ⟨hjlen, hw⟩ := List.getElem?_eq_some_iff.mp hj
      rw [List.length_replicate] at hjlen
      rw [getElem_replicate] at hw
      rw [← hw]
      exact Memory.readWord_writeBytes_zero (by omega) (by omega)
  · exact mem_cons_of_mem _ h.stackRange
  · intro k block hk
    rcases hcases k block hk with hk | ⟨rfl, rfl⟩
    · exact mem_cons_of_mem _ (h.heapRange k block hk)
    · rw [length_replicate]
      exact mem_cons_self
  · simp

theorem does_map (hn : 0 < n) (hfit : L.Fits (v.sizes ++ [n])) (hplace : sys.place = L.place)
    (hrax : v.regs .rax = 9) (hrdi : v.regs .rdi = 0) (hrsi : v.regs .rsi = BitVec.ofNat 64 (8 * n))
    (hrdx : v.regs .rdx = 3) (hr10 : v.regs .r10 = 0x22) (hr8 : v.regs .r8 = -1)
    (hr9 : v.regs .r9 = 0) :
    Does sys L .syscall v (View.called
      { v.set .rax (BitVec.ofNat 64 (L.place v.heap.length)) with
        heap := v.heap ++ [List.replicate n 0] } sys) := by
  intro m h
  have hnew : (v.sizes ++ [n])[v.heap.length]? = some n := by simp [View.sizes]
  have hinside := hfit.inside _ n hnew
  have hsize : (m.regs .rsi).toNat = 8 * n := by
    rw [h.regs .rsi (by decide), hrsi, BitVec.toNat_ofNat, Nat.mod_eq_of_lt (by omega)]
  have hmap : m.mapMemory? sys = some
      { m.set .rax (BitVec.ofNat 64 (L.place v.heap.length)) with
        memory := m.memory.writeBytes (sys.place m.mappings) (List.replicate (8 * n) 0)
        ranges := (sys.place m.mappings, sys.place m.mappings + 8 * n) :: m.ranges
        mappings := m.mappings + 1 } := by
    rw [Machine.mapMemory?, hsize, if_pos]
    · rw [hplace, h.mappings]
    · rw [h.regs .rdi (by decide), h.regs .rdx (by decide), h.regs .r10 (by decide),
        h.regs .r8 (by decide), h.regs .r9 (by decide)]
      exact ⟨hrdi, by omega, hrdx, hr10, hr8, hr9⟩
  refine ⟨_, ?_, ((h.set (r := .rax) (by decide) _).mapped hfit hplace).called⟩
  rw [exec?, Machine.systemCall?, h.regs .rax (by decide), hrax, if_pos rfl, hmap]
  rfl

end

end Execution

end MiniJava
