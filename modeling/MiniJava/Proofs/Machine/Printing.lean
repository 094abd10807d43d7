import MiniJava.Proofs.Machine.Effects

/-!
# Printing a number

The printing routine writes the digits of a number from the last to the first into 32
bytes of the stack, below the base of its frame, and then asks the system to write
them. `Holding` is what carries the file: the bytes in front of the base are the text
so far, its first byte is where `rsi` points, and nothing else has changed.

> `reachesWithin_printLine`: the routine appends the line of the number to the output and
> returns, with the stack, the base and all registers that the caller relies on as
> they were. It stores nothing outside of its buffer and the word with the saved base.
-/

namespace MiniJava

open List

namespace Execution

/-- The line that shows a number: its decimal text and a line break. -/
def lineOf (v : Int) : List UInt8 := (toString v ++ "\n").toUTF8.data.toList

/-! ## Decimal text -/

/-- The bytes of the digits of a number. -/
def digitBytes (n : Nat) : List UInt8 := (Nat.toDigits 10 n).map fun c => UInt8.ofNat c.toNat

theorem toNat_digitChar {d : Nat} (h : d < 10) : (Nat.digitChar d).toNat = d + 48 := by
  have hall : ∀ e ∈ List.range 10, (Nat.digitChar e).toNat = e + 48 := by decide
  exact hall d (mem_range.mpr h)

theorem digitBytes_of_lt {n : Nat} (h : n < 10) : digitBytes n = [UInt8.ofNat (n + 48)] := by
  rw [digitBytes, Nat.toDigits_of_lt_base h, map_singleton, toNat_digitChar h]

theorem digitBytes_of_le {n : Nat} (h : 10 ≤ n) :
    digitBytes n = digitBytes (n / 10) ++ [UInt8.ofNat (n % 10 + 48)] := by
  rw [digitBytes, Nat.toDigits_of_base_le (by omega) h, map_append, map_singleton,
    toNat_digitChar (by omega), digitBytes]

theorem length_digitBytes_le {n k : Nat} (hk : 0 < k) (h : n < 10 ^ k) :
    (digitBytes n).length ≤ k := by
  rw [digitBytes, length_map]
  exact (Nat.length_toDigits_le_iff (by omega) hk).mpr h

theorem utf8_ofList {cs : List Char} (h : ∀ c ∈ cs, c.toNat < 128) :
    (String.ofList cs).toUTF8.data.toList = cs.map fun c => UInt8.ofNat c.toNat := by
  rw [String.toUTF8, String.toByteArray_ofList, List.utf8Encode, data_toByteArray]
  induction cs with
  | nil => rfl
  | cons c _ ih =>
    have hc : c.val.toNat ≤ 127 := Nat.le_of_lt_succ (h c mem_cons_self)
    have hone : String.utf8EncodeChar c = [UInt8.ofNat c.toNat] := if_pos hc
    rw [flatMap_cons, hone, map_cons, ← ih fun c hc => h c (mem_cons_of_mem _ hc)]
    rfl

/-- The bytes of a line: a sign if the number is negative, the digits of its absolute value and the
line break. -/
theorem lineOf_eq (v : Int) :
    lineOf v = (if v < 0 then [45] else []) ++ digitBytes v.natAbs ++ [10] := by
  have htext : toString v ++ "\n" =
      String.ofList ((if v < 0 then ['-'] else []) ++ Nat.toDigits 10 v.natAbs ++ ['\n']) := by
    rw [Int.toString_eq_repr, Int.repr_eq_if, String.ofList_append, String.ofList_append]
    congr 1
    split
    next =>
      rw [if_neg (by omega), Nat.repr_eq_ofList_toDigits, String.ofList_nil, String.empty_append]
      congr 2
      omega
    next =>
      rw [if_pos (by omega), Nat.repr_eq_ofList_toDigits]
      congr 3
      omega
  rw [lineOf, htext, utf8_ofList, map_append, map_append, digitBytes]
  · split <;> rfl
  · intro _ hc
    rcases mem_append.mp hc with hc | hc
    · rcases mem_append.mp hc with hc | hc
      · split at hc
        next => cases mem_singleton.mp hc; decide
        next => cases hc
      · have hdigit := Char.isDigit_iff_toNat.mp
          (Nat.isDigit_of_mem_toDigits (by omega) (by omega) hc)
        exact Nat.lt_of_le_of_lt hdigit.2 (by decide)
    · cases mem_singleton.mp hc
      decide

/-! ## The buffer -/

/-- The stack on which the routine is called: the return address is at the word above the base of
the routine's frame, and the number above that. -/
structure PrintStack (m : Machine) (base : Nat) : Prop where
  rsp : m.regs .rsp = BitVec.ofNat 64 (base + 8)
  room : 32 ≤ base
  base_lt : base + 24 < 2 ^ 64
  accessible : ∀ address count, base - 32 ≤ address → address + count ≤ base + 24 →
    m.accessible address count = true

/-- A machine inside of the routine that was called on another one: the text is in front of the
base, its first byte is where `rsi` points, and nothing else has changed but the base and some
registers. -/
structure Holding (m : Machine) (base : Nat) (text : List UInt8) (m' : Machine) : Prop where
  rbp : m'.regs .rbp = BitVec.ofNat 64 base
  rsi : m'.regs .rsi = BitVec.ofNat 64 (base - text.length)
  length : text.length ≤ 32
  memory : m'.memory =
    (m.memory.writeWord base (m.regs .rbp)).writeBytes (base - text.length) text
  regs : ∀ r, r ∉ [Reg.rsp, .rbp, .rax, .rcx, .rdx, .rsi, .r8] → m'.regs r = m.regs r
  ranges : m'.ranges = m.ranges
  output : m'.output = m.output
  mappings : m'.mappings = m.mappings
  calls : m'.calls = m.calls

theorem Memory.writeBytes_nil (mem : Memory) (address : Nat) : mem.writeBytes address [] = mem := by
  funext a
  exact writeBytes_of_apart (Nat.lt_or_ge a address)

theorem Memory.writeBytes_cons (mem : Memory) (address : Nat) (b : UInt8) (text : List UInt8) :
    (mem.writeBytes (address + 1) text).writeBytes address [b] =
      mem.writeBytes address (b :: text) := by
  funext a
  rcases Nat.lt_trichotomy a address with hlt | rfl | hgt
  · rw [writeBytes_of_apart (.inl hlt), writeBytes_of_apart (.inl (by omega)),
      writeBytes_of_apart (.inl hlt)]
  · simp [writeBytes_apply]
  · rw [writeBytes_of_apart (.inr hgt), writeBytes_apply, writeBytes_apply,
      if_neg (by omega), if_neg (by omega)]
    obtain ⟨d, rfl⟩ : ∃ d, a = address + 1 + d := ⟨a - (address + 1), by omega⟩
    rw [Nat.add_sub_cancel_left, Nat.add_assoc, Nat.add_sub_cancel_left, Nat.add_comm 1 d]
    rfl

theorem Machine.set_set (m : Machine) (r : Reg) (w w' : Word) :
    (m.set r w).set r w' = m.set r w' := by
  rw [Machine.set, Machine.set, Machine.set]
  congr 1
  funext x
  dsimp only
  split <;> rfl

theorem ofNat_sub_ofNat {a b : Nat} (h : b ≤ a) :
    BitVec.ofNat 64 a - BitVec.ofNat 64 b = BitVec.ofNat 64 (a - b) := by
  apply BitVec.eq_of_toNat_eq
  rw [BitVec.toNat_sub, BitVec.toNat_ofNat, BitVec.toNat_ofNat, BitVec.toNat_ofNat]
  omega

section

variable {sys : System} {m m' : Machine} {base : Nat} {text : List UInt8}

theorem Holding.set (h : Holding m base text m') {r : Reg} (hr : r ∈ [Reg.rax, .rcx, .rdx, .r8])
    (w : Word) : Holding m base text (m'.set r w) := by
  have hne : ∀ x, x ∉ [Reg.rax, .rcx, .rdx, .r8] → (m'.set r w).regs x = m'.regs x := by
    intro x hx
    exact if_neg (by rintro rfl; exact hx hr)
  refine { h with rbp := ?_, rsi := ?_, regs := ?_ }
  · rw [hne _ (by decide), h.rbp]
  · rw [hne _ (by decide), h.rsi]
  · intro x hx
    rw [hne x (by simp_all), h.regs x hx]

theorem Holding.setFlags (h : Holding m base text m') (flags : Option Flags) :
    Holding m base text { m' with flags := flags } := { h with }

theorem Holding.goto (h : Holding m base text m') (rip : Nat) :
    Holding m base text (m'.goto rip) := { h with }

/-- One more byte is put in front of the text. -/
theorem Holding.put (hs : PrintStack m base) (h : Holding m base text m')
    (hlt : text.length < 32) (b : UInt8) :
    ∃ next, Machine.storeByte? (m'.set .rsi (BitVec.ofNat 64 (base - (text.length + 1))))
        (Machine.address (m'.set .rsi (BitVec.ofNat 64 (base - (text.length + 1)))) ⟨.rsi, 0⟩) b =
        some next ∧
      Holding m base (b :: text) next ∧ ∀ r, r ≠ .rsi → next.regs r = m'.regs r := by
  have hroom := hs.room
  have hbase := hs.base_lt
  have haddress : Machine.address (m'.set .rsi (BitVec.ofNat 64 (base - (text.length + 1))))
      ⟨.rsi, 0⟩ = base - (text.length + 1) :=
    address_of_disp (d := 0) rfl (by omega) (by omega) (by omega) (by omega)
  have haccess : Machine.accessible (m'.set .rsi (BitVec.ofNat 64 (base - (text.length + 1))))
      (base - (text.length + 1)) 1 = true := by
    have := hs.accessible (base - (text.length + 1)) 1 (by omega) (by omega)
    rwa [Machine.accessible, ← h.ranges] at this
  have hregs : ∀ r, r ≠ .rsi →
      (m'.set .rsi (BitVec.ofNat 64 (base - (text.length + 1)))).regs r = m'.regs r :=
    fun r hr => if_neg hr
  refine ⟨_, (congrArg (Machine.storeByte? _ · b) haddress).trans (if_pos haccess), ?_, hregs⟩
  refine { h with rbp := ?_, rsi := rfl, length := hlt, memory := ?_, regs := ?_ }
  · exact (hregs _ (by decide)).trans h.rbp
  · have hone : base - text.length = base - (text.length + 1) + 1 := by omega
    refine Eq.trans ?_ (Memory.writeBytes_cons _ _ b text)
    rw [length_cons, ← hone, ← h.memory]
    rfl
  · intro r hr
    exact (hregs r (by rintro rfl; simp at hr)).trans (h.regs r hr)

/-- Moving `rsi` down makes place for one more byte. -/
theorem Holding.setResult_rsi (hs : PrintStack m base) (h : Holding m base text m')
    (hlt : text.length < 32) :
    m'.setResult .rsi (arith .sub (m'.regs .rsi) 1) =
      Machine.set { m' with flags := some (subFlags (m'.regs .rsi) 1) } .rsi
        (BitVec.ofNat 64 (base - (text.length + 1))) := by
  have hroom := hs.room
  have hsub := ofNat_sub_ofNat (a := base - text.length) (b := 1) (by omega)
  rw [← h.rsi, Nat.sub_sub] at hsub
  rw [← hsub]
  rfl

/-- A byte that is put in front of a text that still fits is stored in the buffer. -/
theorem PrintStack.storesWithin (hs : PrintStack m base) {count : Nat} (hlt : count < 32)
    (hrsi : m'.regs .rsi = BitVec.ofNat 64 (base - (count + 1))) {o : Op}
    (ho : m'.stores? sys (.op o) = some (m'.address ⟨.rsi, 0⟩, 1)) :
    m'.storesWithin sys (base - 32) (base + 8) (.op o) = true := by
  have hroom := hs.room
  have hbase := hs.base_lt
  have haddress : m'.address ⟨.rsi, 0⟩ = base - (count + 1) :=
    address_of_disp (d := 0) hrsi (by omega) (by omega) (by omega) (by omega)
  rw [haddress] at ho
  exact storesWithin_of_stores? ho (by omega) (by omega)

theorem Holding.storesWithin (sys : System) (hs : PrintStack m base) (h : Holding m base text m')
    (hlt : text.length < 32) {o : Op}
    (ho : (m'.setResult .rsi (arith .sub (m'.regs .rsi) 1)).stores? sys (.op o) =
      some ((m'.setResult .rsi (arith .sub (m'.regs .rsi) 1)).address ⟨.rsi, 0⟩, 1)) :
    (m'.setResult .rsi (arith .sub (m'.regs .rsi) 1)).storesWithin sys (base - 32)
    (base + 8) (.op o) =
      true := by
  rw [h.setResult_rsi hs hlt] at ho ⊢
  exact hs.storesWithin hlt rfl ho

/-! ## The parts of the routine -/

theorem unsignedDivide?_ten {q : Nat} (hq : q < 2 ^ 64) :
    unsignedDivide? 0 (BitVec.ofNat 64 q) 10 =
      some (BitVec.ofNat 64 (q / 10), BitVec.ofNat 64 (q % 10)) := by
  have happend : ((0 : Word) ++ BitVec.ofNat 64 q).toNat = q := by
    rw [BitVec.toNat_append, BitVec.toNat_ofNat, Nat.mod_eq_of_lt hq]
    simp
  have hten : (10 : Word).toNat = 10 := rfl
  simp only [unsignedDivide?, happend, hten]
  rw [if_neg]
  rintro (h | h)
  · cases h
  · omega

/-- Divides by ten and puts down the remainder as a digit. -/
def digitOps : List Op :=
  [.alu .xor .rdx .rdx, .div .rcx, .aluImm .add .rdx 48, .aluImm .sub .rsi 1,
   .storeByte ⟨.rsi, 0⟩ .rdx, .aluImm .cmp .rax 0]

/-- A round puts the last digit in front of those behind it. -/
theorem Holding.digit (sys : System) (hs : PrintStack m base) (h : Holding m base text m')
    (hlt : text.length < 32) {q : Nat} (hq : q < 2 ^ 64)
    (hrax : m'.regs .rax = BitVec.ofNat 64 q) (hrcx : m'.regs .rcx = 10) :
    ∃ next, execWithin? sys (base - 32) (base + 8) digitOps m' = some next ∧
      Holding m base (UInt8.ofNat (q % 10 + 48) :: text) next ∧
      next.regs .rax = BitVec.ofNat 64 (q / 10) ∧ next.regs .rcx = 10 ∧
      next.regs .r8 = m'.regs .r8 ∧
      next.flags = some (subFlags (BitVec.ofNat 64 (q / 10)) 0) := by
  let cleared := m'.setResult .rdx (arith .xor (m'.regs .rdx) (m'.regs .rdx))
  let divided := cleared.setQuotient (BitVec.ofNat 64 (q / 10), BitVec.ofNat 64 (q % 10))
  let digit := divided.setResult .rdx (arith .add (BitVec.ofNat 64 (q % 10)) 48)
  have hdiv : exec? sys cleared (.div .rcx) = some divided := by
    have hrdx : cleared.regs .rdx = 0 := BitVec.xor_self
    rw [exec?, hrdx, show cleared.regs .rax = _ from hrax, show cleared.regs .rcx = _ from hrcx,
      unsignedDivide?_ten hq]
    rfl
  -- The remainder is below ten, so adding 48 gives the character.
  have hdigit : digit.regs .rdx = BitVec.ofNat 64 (q % 10 + 48) := by
    rw [BitVec.ofNat_add]
    rfl
  have hholding : Holding m base text digit := by
    refine Holding.setFlags (Holding.set (Holding.setFlags (Holding.set (Holding.set
      (Holding.setFlags (Holding.set h ?_ _) _) ?_ _) ?_ _) _) ?_ _) _ <;> decide
  obtain ⟨stored, hstored, hput, hregs⟩ :=
    (hholding.setFlags _).put hs hlt (UInt8.ofNat (q % 10 + 48))
  rw [← hholding.setResult_rsi hs hlt] at hstored
  have hbyte : UInt8.ofNat
    ((digit.setResult .rsi (arith .sub (digit.regs .rsi) 1)).regs .rdx).toNat =
      UInt8.ofNat (q % 10 + 48) := by
    show UInt8.ofNat (digit.regs .rdx).toNat = _
    rw [hdigit, BitVec.toNat_ofNat, Nat.mod_eq_of_lt (by omega)]
  have hquotient : stored.regs .rax = BitVec.ofNat 64 (q / 10) := hregs _ (by decide)
  refine ⟨stored.setResult .rax (arith .cmp (stored.regs .rax) 0), ?_, ?_, ?_, ?_, ?_, ?_⟩
  · have hstore : exec? sys (digit.setResult .rsi (arith .sub (digit.regs .rsi) 1))
        (.storeByte ⟨.rsi, 0⟩ .rdx) = some stored := by rw [exec?, hbyte, hstored]
    have hwithin := hholding.storesWithin sys hs hlt (o := .storeByte ⟨.rsi, 0⟩ .rdx) rfl
    exact (execWithin?_cons (o := .div .rcx) hdiv rfl _).trans (execWithin?_cons hstore hwithin _)
  · exact (hput.set (by decide) _).setFlags _
  · exact hquotient
  · exact (hregs .rcx (by decide)).trans hrcx
  · exact hregs .r8 (by decide)
  · rw [← hquotient]
    rfl

/-- Opens the frame with its buffer and puts down the line break. -/
def openOps : List Op :=
  [.pushReg .rbp, .movReg .rbp .rsp, .aluImm .sub .rsp 32, .load .rax ⟨.rbp, 16⟩,
   .lea .rsi ⟨.rbp, -1⟩, .storeByteImm ⟨.rsi, 0⟩ 10, .alu .xor .r8 .r8, .aluImm .cmp .rax 0]

/-- Puts down the sign. -/
def signOps : List Op := [.aluImm .sub .rsi 1, .storeByteImm ⟨.rsi, 0⟩ 45]

/-- Writes what is in the buffer and closes the frame. -/
def closeOps : List Op :=
  [.movReg .rdx .rbp, .alu .sub .rdx .rsi, .movImm .rax 1, .movImm .rdi 1, .syscall,
   .movReg .rsp .rbp, .popReg .rbp]

theorem PrintStack.accessible_of_ranges (hs : PrintStack m base) (h : m'.ranges = m.ranges)
    {address count : Nat} (hfirst : base - 32 ≤ address) (hstop : address + count ≤ base + 24) :
    m'.accessible address count = true := by
  have haccess := hs.accessible address count hfirst hstop
  rwa [Machine.accessible, ← h] at haccess

/-- The frame is open: the base is saved and set, and the buffer lies below it. -/
def opened (m : Machine) (base : Nat) : Machine :=
  Machine.setResult (Machine.set (Machine.set
    { m with memory := m.memory.writeWord base (m.regs .rbp) } .rsp (BitVec.ofNat 64 base))
    .rbp (BitVec.ofNat 64 base)) .rsp (arith .sub (BitVec.ofNat 64 base) 32)

variable {w : Word} {start : Nat} {P : Loaded}

/-- The opening leaves a buffer that holds a line break, and the number. -/
theorem exists_open (sys : System) (hs : PrintStack m base)
    (hw : m.memory.readWord (base + 16) = w) :
    ∃ next, execWithin? sys (base - 32) (base + 8) openOps m = some next ∧
      Holding m base [10] next ∧
      next.regs .rax = w ∧ next.regs .r8 = 0 ∧ next.flags = some (subFlags w 0) := by
  have hroom := hs.room
  have hbase := hs.base_lt
  -- First the base is saved, and the frame is opened below it.
  have hrsp : m.regs .rsp - 8 = BitVec.ofNat 64 base := by
    rw [hs.rsp]
    exact ofNat_sub_ofNat (a := base + 8) (b := 8) (by omega)
  have hslot : (m.regs .rsp - 8).toNat = base := by
    rw [hrsp, BitVec.toNat_ofNat, Nat.mod_eq_of_lt (by omega)]
  have hpush : exec? sys m (.pushReg .rbp) = some (Machine.set
      { m with memory := m.memory.writeWord base (m.regs .rbp) } .rsp (BitVec.ofNat 64 base)) := by
    rw [exec?, Machine.push?, hslot, hrsp, Machine.store?,
      if_pos (hs.accessible _ _ (by omega) (by omega))]
    rfl
  have hpushed : m.storesWithin sys (base - 32) (base + 8) (.op (.pushReg .rbp)) = true :=
    storesWithin_of_stores? rfl (by omega) (by omega)
  have hload : exec? sys (opened m base) (.load .rax ⟨.rbp, 16⟩) =
      some ((opened m base).set .rax w) := by
    have haddress : (opened m base).address ⟨.rbp, 16⟩ = base + 16 :=
      address_of_disp (d := 16) (a := base) rfl (by omega) (by omega) (by omega) (by omega)
    have haccess : (opened m base).accessible (base + 16) 8 = true :=
      hs.accessible_of_ranges rfl (by omega) (by omega)
    have hread : (opened m base).load? (base + 16) = some w := by
      rw [Machine.load?, if_pos haccess]
      exact congrArg some ((Memory.readWord_writeWord_of_apart _ (by omega)).trans hw)
    rw [exec?, haddress, hread]
    rfl
  have hlea : exec? sys ((opened m base).set .rax w) (.lea .rsi ⟨.rbp, -1⟩) =
      some (((opened m base).set .rax w).set .rsi (BitVec.ofNat 64 (base - 1))) := by
    have hone : (-1 : Int32) = Int32.ofInt (-1) := by decide
    have haddress : ((opened m base).set .rax w).address ⟨.rbp, Int32.ofInt (-1)⟩ = base - 1 :=
      address_of_disp (d := -1) (a := base) rfl (by omega) (by omega) (by omega) (by omega)
    rw [exec?, hone, haddress]
  -- The buffer ends at the base, and nothing is in it yet.
  have hempty : Holding m base []
      (((opened m base).set .rax w).set .rsi (BitVec.ofNat 64 base)) := by
    refine ⟨rfl, rfl, Nat.zero_le _, (Memory.writeBytes_nil _ _).symm, ?_, rfl, rfl, rfl, rfl⟩
    intro _ hr
    simp only [mem_cons, not_mem_nil, or_false, not_or] at hr
    simp [opened, Machine.set, Machine.setResult, hr]
  obtain ⟨stored, hstored, hput, hregs⟩ := hempty.put hs (by decide) 10
  rw [Machine.set_set] at hstored
  refine ⟨(stored.setResult .r8 (arith .xor (stored.regs .r8) (stored.regs .r8))).setResult .rax
    (arith .cmp (stored.regs .rax) 0), ?_, ?_, ?_, BitVec.xor_self, ?_⟩
  · have hstore : exec? sys (((opened m base).set .rax w).set .rsi (BitVec.ofNat 64 (base - 1)))
        (.storeByteImm ⟨.rsi, 0⟩ 10) = some stored := hstored
    have hframe : execWithin? sys (base - 32) (base + 8) openOps m =
        execWithin? sys (base - 32) (base + 8) (openOps.drop 3) (opened m base) :=
      execWithin?_cons hpush hpushed _
    have hwithin : (((opened m base).set .rax w).set .rsi (BitVec.ofNat 64 (base - 1))).storesWithin
        sys (base - 32) (base + 8) (.op (.storeByteImm ⟨.rsi, 0⟩ 10)) = true :=
      hs.storesWithin (by decide : 0 < 32) rfl rfl
    rw [hframe]
    exact (execWithin?_cons hload rfl _).trans ((execWithin?_cons hlea rfl _).trans
      (execWithin?_cons hstore hwithin _))
  · exact ((((hput.set (by decide) _).setFlags _).set (by decide) _).setFlags _)
  · exact hregs .rax (by decide)
  · rw [hregs .rax (by decide)]
    rfl

/-- The registers behind the routine: some have been used, the others are as before. -/
def printedRegs (regs : Reg → Word) (base : Nat) (text : List UInt8) (sign : Word)
    (scratch : Word × Word) : Reg → Word
  | .rax | .rdx => BitVec.ofNat 64 text.length
  | .rdi => 1
  | .rsi => BitVec.ofNat 64 (base - text.length)
  | .r8 => sign
  | .rcx => scratch.1
  | .r11 => scratch.2
  | r => regs r

/-- What the routine has done to a machine when it returns: it has written a text. -/
structure Printed (sys : System) (m : Machine) (base : Nat) (text : List UInt8) (sign : Word)
    (m' : Machine) : Prop where
  regs : ∀ r, r ≠ .rsp →
    m'.regs r = printedRegs m.regs base text sign (sys.scratch m.calls) r
  flags : m'.flags = none
  memory : ∀ a, a < base - 32 ∨ base + 8 ≤ a → m'.memory a = m.memory a
  ranges : m'.ranges = m.ranges
  output : m'.output = m.output ++ text
  mappings : m'.mappings = m.mappings
  calls : m'.calls = m.calls + 1

theorem Printed.setRsp {sign : Word} (h : Printed sys m base text sign m') (w : Word) :
    Printed sys m base text sign (m'.set .rsp w) :=
  { h with regs := fun r hr => (if_neg hr).trans (h.regs r hr) }

theorem Printed.goto {sign : Word} (h : Printed sys m base text sign m') (rip : Nat) :
    Printed sys m base text sign (m'.goto rip) := { h with }

theorem Holding.memory_eq (hs : PrintStack m base) (h : Holding m base text m') {a : Nat}
    (ha : a < base - 32 ∨ base + 8 ≤ a) : m'.memory a = m.memory a := by
  have hroom := hs.room
  have hlength := h.length
  rw [h.memory, Memory.writeBytes_of_apart (by omega)]
  exact Memory.writeBytes_of_apart (by rw [length_littleEndian]; omega)

theorem Holding.readWord_base (hs : PrintStack m base) (h : Holding m base text m') :
    m'.memory.readWord base = m.regs .rbp := by
  have hroom := hs.room
  have hlength := h.length
  rw [h.memory, Memory.readWord_writeBytes_of_apart (by omega), Memory.readWord_writeWord]

/-- The system is asked to write the text. -/
theorem Holding.write (hs : PrintStack m base) (h : Holding m base text m')
    (hrdx : m'.regs .rdx = BitVec.ofNat 64 text.length) :
    (m'.set .rdi 1).write? = some { (m'.set .rdi 1).set .rax (BitVec.ofNat 64 text.length) with
      output := m.output ++ text } := by
  have hroom := hs.room
  have hbase := hs.base_lt
  have hlength := h.length
  have hsize : ((m'.set .rdi 1).regs .rdx).toNat = text.length := by
    rw [show (m'.set .rdi 1).regs .rdx = _ from hrdx, BitVec.toNat_ofNat,
      Nat.mod_eq_of_lt (by omega)]
  have hstart : ((m'.set .rdi 1).regs .rsi).toNat = base - text.length := by
    rw [show (m'.set .rdi 1).regs .rsi = _ from h.rsi, BitVec.toNat_ofNat,
      Nat.mod_eq_of_lt (by omega)]
  have haccess : (m'.set .rdi 1).accessible (base - text.length) text.length = true :=
    hs.accessible_of_ranges h.ranges (by omega) (by omega)
  have htext : (m'.set .rdi 1).memory.bytesAt (base - text.length) text.length = text := by
    rw [show (m'.set .rdi 1).memory = _ from h.memory, Memory.bytesAt_writeBytes]
  simp only [Machine.write?]
  rw [hsize, hstart, if_pos ⟨rfl, haccess⟩, htext, ← h.output, ← hrdx]
  rfl

/-- The closing writes the buffer and takes the frame down. -/
theorem exists_close (sys : System) (hs : PrintStack m base) (h : Holding m base text m') :
    ∃ next, execWithin? sys (base - 32) (base + 8) closeOps m' = some next ∧
      Printed sys m base text (m'.regs .r8) next ∧
      next.regs .rsp = BitVec.ofNat 64 (base + 8) := by
  have hroom := hs.room
  have hbase := hs.base_lt
  have hlength := h.length
  let counted := (m'.set .rdx (m'.regs .rbp)).setResult .rdx
    (arith .sub (m'.regs .rbp) (m'.regs .rsi))
  let asked := counted.set .rax 1
  have hcount : asked.regs .rdx = BitVec.ofNat 64 text.length := by
    show m'.regs .rbp - m'.regs .rsi = _
    rw [h.rbp, h.rsi, ofNat_sub_ofNat (by omega)]
    congr 1
    omega
  have hasked : Holding m base text asked :=
    (((h.set (by decide) _).set (by decide) _).setFlags _).set (by decide) _
  let written : Machine := { (asked.set .rdi 1).set .rax (BitVec.ofNat 64 text.length) with
    output := m.output ++ text }
  let called : Machine :=
    { (written.set .rcx (sys.scratch m.calls).1).set .r11 (sys.scratch m.calls).2 with
      flags := none, calls := m.calls + 1 }
  have hcall : exec? sys (asked.set .rdi 1) .syscall = some called := by
    have hrax : (asked.set .rdi 1).regs .rax = 1 := rfl
    rw [exec?, Machine.systemCall?, hrax, if_neg (by decide), if_pos rfl, hasked.write hs hcount]
    show some _ = some called
    rw [show (asked.set .rdi 1).calls = m.calls from h.calls]
  let popped := (called.set .rsp (m'.regs .rbp)).set .rsp (m'.regs .rbp + 8)
  -- The saved base is where it was pushed, for the text is below it.
  have hpop : exec? sys (called.set .rsp (m'.regs .rbp)) (.popReg .rbp) =
      some (popped.set .rbp (m.regs .rbp)) := by
    have haccess : (called.set .rsp (m'.regs .rbp)).accessible base 8 = true :=
      hs.accessible_of_ranges h.ranges (by omega) (by omega)
    have hread : (called.set .rsp (m'.regs .rbp)).memory.readWord base = m.regs .rbp := by
      have hsaved := Holding.readWord_base hs h
      exact hsaved
    rw [exec?, Machine.pop?, show (called.set .rsp (m'.regs .rbp)).regs .rsp = _ from h.rbp,
      BitVec.toNat_ofNat, Nat.mod_eq_of_lt (by omega), Machine.load?, if_pos
      haccess, hread, ← h.rbp]
    rfl
  refine ⟨popped.set .rbp (m.regs .rbp), ?_, ?_, ?_⟩
  · have hset : execWithin? sys (base - 32) (base + 8) closeOps m' =
        execWithin? sys (base - 32) (base + 8) [.syscall, .movReg .rsp .rbp, .popReg .rbp]
          (asked.set .rdi 1) := rfl
    have hwithin : (asked.set .rdi 1).storesWithin sys (base - 32) (base + 8)
        (.op .syscall) = true :=
      storesWithin_syscall (by show (1 : Word) ≠ 9; decide)
    rw [hset, execWithin?_cons hcall hwithin]
    exact execWithin?_cons (o := .popReg .rbp) hpop rfl []
  · refine ⟨?_, rfl, fun a ha => h.memory_eq hs ha, h.ranges, rfl, h.mappings, rfl⟩
    intro r hr
    cases r with
    | rsp => exact absurd rfl hr
    | rax | rcx | rdi | r8 | r11 | rbp => rfl
    | rdx => exact hcount
    | rsi => exact h.rsi
    | _ => exact h.regs _ (by decide)
  · show m'.regs .rbp + 8 = _
    rw [h.rbp, BitVec.ofNat_add]
    rfl

theorem printLine_eq (start : Nat) :
    ((Routine.printLine start).map (·.map .index) : LabelledCode) =
      Instr.ops openOps ++ ([.jumpIf .greaterEq (.index (start + 11))] ++
        (Instr.ops [.neg .rax, .movImm .r8 1] ++ (Instr.ops [.movImm .rcx 10] ++
          (Instr.ops digitOps ++ ([.jumpIf .notEqual (.index (start + 12))] ++
            (Instr.ops [.aluImm .cmp .r8 0] ++ ([.jumpIf .equal (.index (start + 23))] ++
              (Instr.ops signOps ++ (Instr.ops closeOps ++ [.ret]))))))))) := rfl

/-- The routine is at an index of the code. -/
structure PrintCode (P : Loaded) (start : Nat) : Prop where
  opening : P.CodeAt start (Instr.ops openOps)
  ifPositive : P.code[start + 8]? = some (.jumpIf .greaterEq (.index (start + 11)))
  negate : P.CodeAt (start + 9) (Instr.ops [.neg .rax, .movImm .r8 1])
  ten : P.CodeAt (start + 11) (Instr.ops [.movImm .rcx 10])
  digit : P.CodeAt (start + 12) (Instr.ops digitOps)
  ifMore : P.code[start + 18]? = some (.jumpIf .notEqual (.index (start + 12)))
  testSign : P.CodeAt (start + 19) (Instr.ops [.aluImm .cmp .r8 0])
  ifNoSign : P.code[start + 20]? = some (.jumpIf .equal (.index (start + 23)))
  sign : P.CodeAt (start + 21) (Instr.ops signOps)
  closing : P.CodeAt (start + 23) (Instr.ops closeOps)
  ret : P.code[start + 30]? = some .ret

theorem printCode_of_codeAt (h : P.CodeAt start ((Routine.printLine start).map (·.map .index))) :
    PrintCode P start := by
  rw [printLine_eq] at h
  obtain ⟨h₁, h⟩ := Loaded.codeAt_append.mp h
  obtain ⟨h₂, h⟩ := Loaded.codeAt_append.mp h
  obtain ⟨h₃, h⟩ := Loaded.codeAt_append.mp h
  obtain ⟨h₄, h⟩ := Loaded.codeAt_append.mp h
  obtain ⟨h₅, h⟩ := Loaded.codeAt_append.mp h
  obtain ⟨h₆, h⟩ := Loaded.codeAt_append.mp h
  obtain ⟨h₇, h⟩ := Loaded.codeAt_append.mp h
  obtain ⟨h₈, h⟩ := Loaded.codeAt_append.mp h
  obtain ⟨h₉, h⟩ := Loaded.codeAt_append.mp h
  obtain ⟨h₁₀, h₁₁⟩ := Loaded.codeAt_append.mp h
  exact ⟨h₁, h₂ 0 _ rfl, h₃, h₄, h₅, h₆ 0 _ rfl, h₇, h₈ 0 _ rfl, h₉, h₁₀, h₁₁ 0 _ rfl⟩

/-- The loop puts down all digits of the number in `rax`. -/
theorem reachesWithin_digits {P : Loaded} {start : Nat} (hcode : PrintCode P start)
    (hs : PrintStack m base) {text : List UInt8} {m' : Machine} {d : Nat} (hd : d < 19) {q : Nat}
    (hq : q < 10 ^ (d + 1))
    (h : Holding m base text m') (hlength : text.length + (d + 1) ≤ 31)
    (hrax : m'.regs .rax = BitVec.ofNat 64 q) (hrcx : m'.regs .rcx = 10)
    (hrip : m'.rip = P.addr (start + 12)) :
    ∃ next, ReachesWithin P.sys P.image (base - 32) (base + 8) m' next ∧
      Holding m base (digitBytes q ++ text) next ∧
      next.regs .r8 = m'.regs .r8 ∧ next.rip = P.addr (start + 19) := by
  have hpow : 10 ^ (d + 1) ≤ 10 ^ 19 := Nat.pow_le_pow_right (by omega) (by omega)
  have hword : q < 2 ^ 64 := by omega
  obtain ⟨after, hexec, hholding, hrax', hrcx', hr8, hflags⟩ :=
    h.digit P.sys hs (by omega) hword hrax hrcx
  have hreach := Loaded.reachesWithin_ops hcode.digit hrip hexec
  have hjump : ReachesWithin P.sys P.image (base - 32) (base + 8) _ _ :=
    Loaded.reachesWithin_jumpIf hcode.ifMore (m := after.goto (P.addr (start + 18))) rfl hflags
  rw [holds_subFlags] at hjump
  by_cases hlast : q < 10
  · -- The quotient is zero, and the digit the last one.
    rw [Nat.div_eq_of_lt hlast] at hjump
    refine ⟨_, hreach.trans hjump, ?_, hr8, rfl⟩
    rw [digitBytes_of_lt hlast, ← Nat.mod_eq_of_lt hlast]
    exact (hholding.goto _).goto _
  · obtain ⟨d, rfl⟩ : ∃ k, d = k + 1 := ⟨d - 1, by
      rcases Nat.eq_zero_or_pos d with rfl | hpos <;> omega⟩
    -- Another round, with a number that is one digit shorter.
    have hmore : compares (BitVec.ofNat 64 (q / 10)) 0 .notEqual = true := by
      refine decide_eq_true fun hzero => ?_
      have hnat := congrArg BitVec.toNat hzero
      rw [BitVec.toNat_ofNat, Nat.mod_eq_of_lt (by omega)] at hnat
      exact absurd hnat (by show q / 10 ≠ 0; omega)
    rw [hmore, if_pos rfl, P.index_index] at hjump
    obtain ⟨next, hrest, hdone, hr8', hrip'⟩ := reachesWithin_digits hcode hs (d := d) (q := q / 10)
      (by omega) (by rw [Nat.pow_succ] at hq; omega) (hholding.goto (P.addr (start + 12)))
      (by rw [length_cons]; omega) hrax' hrcx' rfl
    refine ⟨next, (hreach.trans hjump).trans hrest, ?_, hr8'.trans hr8, hrip'⟩
    rw [digitBytes_of_le (by omega), append_assoc]
    exact hdone
termination_by d


/-- What `r8` holds: whether a number has a sign. -/
def signWord (w : Word) : Word := if w.toInt < 0 then 1 else 0

theorem ofNat_natAbs_of_neg (h : w.toInt < 0) : 0 - w = BitVec.ofNat 64 w.toInt.natAbs := by
  apply BitVec.eq_of_toInt_eq
  have habs : ((w.toInt.natAbs : Nat) : Int) = 0 - w.toInt := by omega
  rw [BitVec.toInt_sub, BitVec.toInt_ofNat', habs]
  rfl

theorem ofNat_natAbs_of_nonneg (h : ¬ w.toInt < 0) : w = BitVec.ofNat 64 w.toInt.natAbs := by
  apply BitVec.eq_of_toInt_eq
  have habs : ((w.toInt.natAbs : Nat) : Int) = w.toInt := by omega
  rw [BitVec.toInt_ofNat', habs, BitVec.toInt_bmod_cancel]

/-- The routine begins with the line break, the absolute value in `rax` and the sign in `r8`. -/
theorem reachesWithin_abs (hcode : PrintCode P start) (hs : PrintStack m base)
    (hrip : m.rip = P.addr start) (hw : m.memory.readWord (base + 16) = w) :
    ∃ m', ReachesWithin P.sys P.image (base - 32) (base + 8) m m' ∧ Holding m base [10] m' ∧
      m'.regs .rax = BitVec.ofNat 64 w.toInt.natAbs ∧ m'.regs .rcx = 10 ∧
      m'.regs .r8 = signWord w ∧ m'.rip = P.addr (start + 12) := by
  obtain ⟨first, hopen, hfirst, hrax, hr8, hflags⟩ := exists_open P.sys hs hw
  have hreach := Loaded.reachesWithin_ops hcode.opening hrip hopen
  have hjump : ReachesWithin P.sys P.image (base - 32) (base + 8) _ _ :=
    Loaded.reachesWithin_jumpIf hcode.ifPositive (m := first.goto (P.addr (start + 8))) rfl hflags
  rw [holds_subFlags] at hjump
  -- Both ways meet in front of the loop.
  suffices hmeet : ∃ m', ReachesWithin P.sys P.image (base - 32) (base + 8) m m' ∧
      Holding m base [10] m' ∧
      m'.regs .rax = BitVec.ofNat 64 w.toInt.natAbs ∧ m'.regs .r8 = signWord w ∧
      m'.rip = P.addr (start + 11) by
    obtain ⟨m', hreach', hholding, hrax', hr8', hrip'⟩ := hmeet
    have hset : execWithin? P.sys (base - 32) (base + 8) [.movImm .rcx 10] m' =
        some (m'.set .rcx 10) := rfl
    have hten := Loaded.reachesWithin_ops hcode.ten hrip' hset
    exact ⟨_, hreach'.trans hten, (hholding.set (by decide) _).goto _, hrax', rfl, hr8', rfl⟩
  by_cases hneg : w.toInt < 0
  · -- The jump is not taken, and the word is negated.
    have hcond : compares w 0 .greaterEq = false := by
      simpa [compares] using hneg
    rw [hcond] at hjump
    have hset : execWithin? P.sys (base - 32) (base + 8) [.neg .rax, .movImm .r8 1]
        (first.goto (P.addr (start + 9))) = some (((first.goto (P.addr (start + 9))).setResult .rax
          (arith .sub 0 (first.regs .rax))).set .r8 1) := rfl
    have hnegate := Loaded.reachesWithin_ops hcode.negate rfl hset
    refine ⟨_, (hreach.trans hjump).trans hnegate, ?_, ?_, ?_, rfl⟩
    · exact ((((hfirst.goto _).set (by decide) _).setFlags _).set (by decide) _).goto _
    · show 0 - first.regs .rax = _
      rw [hrax, ofNat_natAbs_of_neg hneg]
    · rw [signWord, if_pos hneg]
      rfl
  · have hcond : compares w 0 .greaterEq = true := by
      simpa [compares] using hneg
    rw [hcond, if_pos rfl, P.index_index] at hjump
    refine ⟨_, hreach.trans hjump, (hfirst.goto _).goto _, ?_, ?_, rfl⟩
    · exact hrax.trans (ofNat_natAbs_of_nonneg hneg)
    · rw [signWord, if_neg hneg]
      exact hr8

/-- The sign is put down if there is one. -/
theorem reachesWithin_sign (hcode : PrintCode P start) (hs : PrintStack m base)
    (h : Holding m base text m') (hlt : text.length < 32) (hr8 : m'.regs .r8 = signWord w)
    (hrip : m'.rip = P.addr (start + 19)) :
    ∃ next, ReachesWithin P.sys P.image (base - 32) (base + 8) m' next ∧
      Holding m base ((if w.toInt < 0 then [45] else []) ++ text) next ∧
      next.regs .r8 = signWord w ∧ next.rip = P.addr (start + 23) := by
  have hset : execWithin? P.sys (base - 32) (base + 8) [.aluImm .cmp .r8 0] m' =
      some (m'.setResult .r8 (arith .cmp (m'.regs .r8) 0)) := rfl
  have htest := Loaded.reachesWithin_ops hcode.testSign hrip hset
  have hjump : ReachesWithin P.sys P.image (base - 32) (base + 8) _ _ :=
    Loaded.reachesWithin_jumpIf hcode.ifNoSign
      (m := (m'.setResult .r8 (arith .cmp (m'.regs .r8) 0)).goto (P.addr (start + 20))) rfl rfl
  have htested : Holding m base text (m'.setResult .r8 (arith .cmp (m'.regs .r8) 0)) :=
    (h.set (by decide) _).setFlags _
  rw [arith, holds_subFlags, hr8] at hjump
  rw [arith, hr8] at htest htested
  by_cases hneg : w.toInt < 0
  · have hcond : compares (signWord w) 0 .equal = false := by
      rw [signWord, if_pos hneg]
      rfl
    rw [hcond] at hjump
    have hgoto := htested.goto (P.addr (start + 21))
    obtain ⟨_, hstored, hput, hregs⟩ := (hgoto.setFlags _).put hs hlt 45
    have hwithin := hgoto.storesWithin P.sys hs hlt (o := .storeByteImm ⟨.rsi, 0⟩ 45) rfl
    rw [← hgoto.setResult_rsi hs hlt] at hstored
    have hsign := Loaded.reachesWithin_ops hcode.sign rfl
      (execWithin?_cons (o := .storeByteImm ⟨.rsi, 0⟩ 45) hstored hwithin [])
    refine ⟨_, (htest.trans hjump).trans hsign, ?_, ?_, rfl⟩
    · rw [if_pos hneg]
      exact hput.goto _
    · exact hregs .r8 (by decide)
  · have hcond : compares (signWord w) 0 .equal = true := by
      rw [signWord, if_neg hneg]
      rfl
    rw [hcond, if_pos rfl, P.index_index] at hjump
    refine ⟨_, htest.trans hjump, ?_, rfl, rfl⟩
    rw [if_neg hneg]
    exact (htested.goto _).goto _

/-- The routine writes the line of the number on the stack, and returns. -/
theorem reachesWithin_printLine (hcode : PrintCode P start) (hs : PrintStack m base)
    (hrip : m.rip = P.addr start) (hw : m.memory.readWord (base + 16) = w) {back : Word}
    (hret : m.memory.readWord (base + 8) = back) :
    ∃ m', ReachesWithin P.sys P.image (base - 32) (base + 8) m m' ∧
      Printed P.sys m base (lineOf w.toInt) (signWord w) m' ∧
      m'.regs .rsp = BitVec.ofNat 64 (base + 16) ∧ m'.rip = back.toNat := by
  have hroom := hs.room
  have hbase := hs.base_lt
  have hlt : w.toInt < 2 ^ 63 := w.toInt_lt
  have hle : -2 ^ 63 ≤ w.toInt := w.le_toInt
  obtain ⟨_, hreach₁, hholding₁, hrax₁, hrcx₁, hr8₁, hrip₁⟩ := reachesWithin_abs hcode hs hrip hw
  obtain ⟨_, hreach₂, hholding₂, hr8₂, hrip₂⟩ := reachesWithin_digits hcode hs (d := 18)
    (by omega) (by omega : w.toInt.natAbs < 10 ^ (18 + 1)) hholding₁ (by decide) hrax₁ hrcx₁ hrip₁
  have hdigits : (digitBytes w.toInt.natAbs).length ≤ 19 :=
    length_digitBytes_le (by omega) (by omega)
  obtain ⟨_, hreach₃, hholding₃, hr8₃, hrip₃⟩ := reachesWithin_sign hcode hs hholding₂
    (by simp; omega) (hr8₂.trans hr8₁) hrip₂
  rw [← append_assoc, ← lineOf_eq] at hholding₃
  obtain ⟨m₄, hexec, hprinted, hrsp⟩ := exists_close P.sys hs hholding₃
  rw [hr8₃] at hprinted
  have hclose := Loaded.reachesWithin_ops hcode.closing hrip₃ hexec
  have hpop : (m₄.goto (P.addr (start + 30))).pop? = some (back,
      (m₄.goto (P.addr (start + 30))).set .rsp (BitVec.ofNat 64 (base + 16))) := by
    have haccess : m₄.accessible (base + 8) 8 = true :=
      hs.accessible_of_ranges hprinted.ranges (by omega) (by omega)
    have hread : m₄.memory.readWord (base + 8) = back :=
      (Memory.readWord_congr fun a ha _ => hprinted.memory a (.inr ha)).trans hret
    have hnext : BitVec.ofNat 64 (base + 8) + 8 = BitVec.ofNat 64 (base + 16) := by
      rw [show base + 16 = base + 8 + 8 from rfl, BitVec.ofNat_add (base + 8)]
      rfl
    rw [Machine.pop?, regs_goto, load?_goto, hrsp, BitVec.toNat_ofNat, Nat.mod_eq_of_lt (by omega),
      Machine.load?, if_pos haccess, hread, hnext]
    rfl
  have hret' := Loaded.step_ret hcode.ret (m := m₄.goto (P.addr (start + 30))) rfl hpop
  have hlast : ReachesWithin P.sys P.image (base - 32) (base + 8) _ _ :=
    .single hret' (Loaded.nextWithin hcode.ret rfl rfl)
  refine ⟨_, (((hreach₁.trans hreach₂).trans hreach₃).trans hclose).trans hlast, ?_, rfl, rfl⟩
  exact ((hprinted.goto _).setRsp _).goto _


/-! ## Printing as seen by callers -/

/-- A view behind the printing of the number on top of its stack, whose base was at an address. -/
def View.printed (v : View) (sys : System) (base : Nat) (stack : List Word) (w : Word) : View where
  regs := printedRegs v.regs base (lineOf w.toInt) (signWord w) (sys.scratch v.calls)
  flags := none
  stack := stack
  heap := v.heap
  output := v.output ++ lineOf w.toInt
  calls := v.calls + 1

/-- A call of the routine appends a line to the output and comes back. -/
theorem runs_printLine (hcode : PrintCode P start) {v : View} (hfit : P.layout.Fits v.sizes)
    {stack : List Word} {k : Nat} (hstack : v.stack = stack ++ [w, BitVec.ofNat 64 (P.addr k)])
    (hroom : stack.length + 7 ≤ P.layout.room) :
    P.Runs start v k
      (v.printed P.sys (P.layout.slot (stack.length + 2)) (stack ++ [w]) w) := by
  intro m hm hrip
  have htop := hfit.top_lt
  have hbelow := hfit.below
  have hbase : P.layout.slot (stack.length + 2) + 8 * (stack.length + 3) = P.layout.top := by
    unfold Layout.slot
    omega
  generalize P.layout.slot (stack.length + 2) = base at hbase ⊢
  have hs : PrintStack m base := by
    refine ⟨?_, by omega, by omega, ?_⟩
    · rw [hm.rsp, hstack]
      congr 1
      simp
      omega
    · intro _ _ _ _
      exact accessible_of_mem hm.stackRange (by omega) (by omega)
  have hw : m.memory.readWord (base + 16) = w := by
    have := hm.stack stack.length w (by rw [hstack]; simp)
    rwa [show P.layout.slot stack.length = base + 16 by unfold Layout.slot; omega] at this
  have hret : m.memory.readWord (base + 8) = BitVec.ofNat 64 (P.addr k) := by
    have := hm.stack (stack.length + 1) (BitVec.ofNat 64 (P.addr k)) (by rw [hstack]; simp)
    rwa [show P.layout.slot (stack.length + 1) = base + 8 by unfold Layout.slot; omega] at this
  obtain ⟨m', hreach, hprinted, hrsp, hrip'⟩ := reachesWithin_printLine hcode hs hrip hw hret
  refine ⟨m', hreach.reaches, ?_, hrip'.trans (P.toNat_addr k)⟩
  -- Words of the stack that are kept are above the frame of the routine, and no block is near it.
  have hslots : ∀ (i : Nat) w', (stack ++ [w])[i]? = some w' → v.stack[i]? = some w' := by
    intro i w' hi
    rw [hstack, append_cons stack w,
      List.getElem?_append_left (List.getElem?_eq_some_iff.mp hi).1, hi]
  refine ⟨?_, ?_, hprinted.flags, ?_, ?_, ?_, ?_, ?_, ?_, ?_, ?_⟩
  · intro r hr
    rw [hprinted.regs r hr, hm.calls]
    cases r with
    | rax | rcx | rdx | rdi | rsi | r8 | r11 => rfl
    | _ => exact hm.regs _ hr
  · rw [hrsp]
    congr 1
    simp [View.printed]
    omega
  · simp [View.printed]
    omega
  · intro i w' hi
    have hi : (stack ++ [w])[i]? = some w' := hi
    have hlt : i < stack.length + 1 := by simpa using (List.getElem?_eq_some_iff.mp hi).1
    refine (Memory.readWord_congr fun a ha _ => hprinted.memory a (.inr ?_)).trans
      (hm.stack i w' (hslots i w' hi))
    unfold Layout.slot at ha
    omega
  · intro j i block w' hj hi
    have hlt := (List.getElem?_eq_some_iff.mp hi).1
    have hapart := hfit.apart_stack j block.length (View.getElem?_sizes hj)
    refine (Memory.readWord_congr fun a ha ha' => hprinted.memory a ?_).trans
      (hm.heap j i block w' hj hi)
    omega
  · rw [hprinted.ranges]
    exact hm.stackRange
  · intro j block hj
    rw [hprinted.ranges]
    exact hm.heapRange j block hj
  · rw [hprinted.output, hm.output]
    rfl
  · exact hprinted.mappings.trans hm.mappings
  · rw [hprinted.calls, hm.calls]
    rfl

end

end Execution

end MiniJava
