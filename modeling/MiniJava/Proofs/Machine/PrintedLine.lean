import MiniJava.Proofs.Machine.Printing

/-!
# The printing routine as a whole

What a caller of the printing routine can rely on, for every word on the stack and whatever the
registers hold.

> `printLine_returns`: the routine comes back, it has made one system call, which writes the number
> in decimal and a line break, and it has stored nothing outside of its frame.

What is decimal is said apart from how digits are computed (`IsDecimal`).
-/

namespace MiniJava

namespace Execution

/-! ## Decimal -/

/-- The digits of a number, the most significant one first. Zero has the digit 0, and no other
number begins with it. -/
structure IsDecimal (digits : List Nat) (n : Nat) : Prop where
  lt_ten : ∀ d ∈ digits, d < 10
  value : digits.foldl (fun value d => 10 * value + d) 0 = n
  ne_nil : digits ≠ []
  head : digits.head? = some 0 → digits = [0]

/-- The byte that shows a digit. -/
def digitByte (d : Nat) : UInt8 := UInt8.ofNat (d + 48)

/-- One more digit behind the others. -/
theorem IsDecimal.concat {digits : List Nat} {n : Nat} (h : IsDecimal digits n)
    (hn : n ≠ 0) {d : Nat} (hd : d < 10) : IsDecimal (digits ++ [d]) (10 * n + d) where
  lt_ten e he := by
    rcases List.mem_append.mp he with he | he
    · exact h.lt_ten e he
    · cases List.mem_singleton.mp he
      exact hd
  value := by rw [List.foldl_append, h.value, List.foldl_cons, List.foldl_nil]
  ne_nil := by simp
  head hzero := by
    rw [List.head?_append_of_ne_nil _ h.ne_nil] at hzero
    have hvalue := h.value
    rw [h.head hzero] at hvalue
    exact absurd hvalue.symm hn

theorem exists_isDecimal (n : Nat) :
    ∃ digits, IsDecimal digits n ∧ digitBytes n = digits.map digitByte := by
  induction n using Nat.strongRecOn with
  | ind n ih =>
    by_cases hlt : n < 10
    · refine ⟨[n], ⟨?_, ?_, nofun, ?_⟩, digitBytes_of_lt hlt⟩
      · exact List.forall_mem_singleton.mpr hlt
      · exact Nat.zero_add n
      · rintro ⟨⟩
        rfl
    · obtain ⟨digits, hdigits, hbytes⟩ := ih (n / 10) (by omega)
      refine ⟨digits ++ [n % 10], ?_, ?_⟩
      · have hconcat := hdigits.concat (by omega) (d := n % 10) (by omega)
        rwa [Nat.div_add_mod] at hconcat
      · rw [digitBytes_of_le (by omega), hbytes, List.map_append]
        rfl

/-! ## The routine -/

/-- The routine with its frame at a base: where it comes back to, what it keeps, and what it
writes. -/
theorem printLine_returns {P : Loaded} {start : Nat}
    (hcode : P.CodeAt start ((Routine.printLine start).map (·.map .index)))
    {m : Machine} {base : Nat} (hstack : PrintStack m base) (hrip : m.rip = P.addr start) {v : Int}
    (hv : (m.memory.readWord (base + 16)).toInt = v) :
    ∃ n m', run? P.sys P.image n m = some (.running m') ∧
      m'.rip = (m.memory.readWord (base + 8)).toNat ∧
      m'.regs .rsp = BitVec.ofNat 64 (base + 16) ∧
      (∀ r, r ∉ [Reg.rsp, .rax, .rcx, .rdx, .rsi, .rdi, .r8, .r11] → m'.regs r = m.regs r) ∧
      (∀ j < n, ∀ between, run? P.sys P.image j m = some (.running between) →
        between.NextWithin P.sys P.image (base - 32) (base + 8)) ∧
      (∀ a, a < base - 32 ∨ base + 8 ≤ a → m'.memory a = m.memory a) ∧
      (∃ asked, systemCalls P.sys P.image n m = [asked] ∧ asked.regs .rax = 1 ∧
        asked.regs .rdi = 1 ∧
        asked.memory.bytesAt (asked.regs .rsi).toNat (asked.regs .rdx).toNat = lineOf v) ∧
      m'.output = m.output ++ lineOf v ∧
      ∃ digits, IsDecimal digits v.natAbs ∧
        lineOf v = (if v < 0 then [45] else []) ++ digits.map digitByte ++ [10] := by
  obtain ⟨m', ⟨n, hn, hwithin⟩, hprinted, hrsp, hrip'⟩ :=
    reachesWithin_printLine (printCode_of_codeAt hcode) hstack hrip rfl rfl
  rw [hv] at hprinted
  obtain ⟨digits, hdigits, hbytes⟩ := exists_isDecimal v.natAbs
  have hline : lineOf v = (if v < 0 then [45] else []) ++ digits.map digitByte ++ [10] := by
    rw [lineOf_eq, hbytes]
  refine ⟨n, m', hn, hrip', hrsp, ?_, hwithin, fun a => memory_of_run? hn hwithin, ?_,
    hprinted.output, digits, hdigits, hline⟩
  · intro r hr
    rw [hprinted.regs r (by rintro rfl; simp at hr)]
    cases r with
    | rsp | rax | rcx | rdx | rsi | rdi | r8 | r11 => exact absurd hr (by decide)
    | _ => rfl
  · -- There is one call, and since something was written, the call wrote it.
    obtain ⟨hcalls, houtput, hallowed⟩ := systemCalls_of_run? hn
    have hone : (systemCalls P.sys P.image n m).length = 1 := by
      have htotal := hcalls.symm.trans hprinted.calls
      omega
    obtain ⟨asked, hasked⟩ := List.length_eq_one_iff.mp hone
    rw [hprinted.output, hasked, List.flatMap_singleton] at houtput
    have hwritten : asked.written = lineOf v := (List.append_cancel_left houtput).symm
    -- A call other than `write` would have added nothing to the output.
    have hwrite : asked.regs .rax = 1 := by
      by_contra hother
      rw [Machine.written, if_neg hother, hline] at hwritten
      simp at hwritten
    rw [hasked] at hallowed
    rw [Machine.written, if_pos hwrite] at hwritten
    exact ⟨asked, hasked, hwrite, hallowed asked (List.mem_singleton_self _) hwrite, hwritten⟩

/-- The routine and nothing else. -/
def routineCode : LabelledCode := (Routine.printLine 0).map (·.map .index)

/-- All labels of the routine are indices. -/
def routineIndex : Label → Nat
  | .index n => n
  | _ => 0

theorem not_dangling_routineCode (k : Nat) :
    ¬ Code.Dangling (routineCode.map (·.map fun l => some (routineIndex l))) k := by
  intro hdangling
  obtain ⟨i, hi, hdangling⟩ := Code.dangling_iff.mp hdangling
  have hall : ∀ i ∈ routineCode.map (·.map fun l => some (routineIndex l)),
      Code.isDangling (routineCode.map (·.map fun l => some (routineIndex l))).length
      i = false := by
    decide
  rw [hall i (List.mem_of_getElem? hi)] at hdangling
  cases hdangling

/-- The routine in memory. -/
def loadedRoutine : Loaded :=
  .ofCode ⟨fun _ => 0, fun _ => (0, 0)⟩ 0 0 routineCode routineIndex (fun _ => rfl) (by decide)
    not_dangling_routineCode

/-- A process in front of the routine, with the least number on its stack. -/
def leastCall : Machine where
  regs := fun
    | .rsp => 1008
    | _ => 7
  flags := none
  rip := loadedRoutine.addr 0
  memory := (Memory.writeWord (fun _ => 9) 1008 4660).writeWord 1016 (BitVec.intMin 64)
  ranges := [(968, 1024)]
  output := []
  mappings := 0
  calls := 0

theorem printStack_leastCall : PrintStack leastCall 1000 where
  rsp := rfl
  room := by decide
  base_lt := by decide
  accessible address count hfirst hstop := by
    simp only [Machine.accessible, leastCall, List.any_cons, List.any_nil, Bool.or_false,
      Bool.and_eq_true, decide_eq_true_eq]
    omega

theorem printLine_returns_least :
    ∃ n m', run? loadedRoutine.sys loadedRoutine.image n leastCall = some (.running m') ∧
      m'.rip = 4660 ∧ m'.regs .rsp = 1016 ∧
      m'.output = "-9223372036854775808\n".toUTF8.data.toList := by
  have hcode : loadedRoutine.CodeAt 0 ((Routine.printLine 0).map (·.map .index)) := by
    intro j i hj
    rw [Nat.zero_add]
    exact hj
  have hback : leastCall.memory.readWord 1008 = 4660 :=
    (Memory.readWord_writeWord_of_apart _ (by decide)).trans (Memory.readWord_writeWord _ _ _)
  have hleast : (leastCall.memory.readWord 1016).toInt = -9223372036854775808 :=
    congrArg BitVec.toInt (Memory.readWord_writeWord _ _ _)
  obtain ⟨n, m', hrun, hrip, hrsp, -, -, -, -, houtput, -⟩ :=
    printLine_returns hcode printStack_leastCall rfl hleast
  exact ⟨n, m', hrun, hrip.trans (congrArg BitVec.toNat hback), hrsp, houtput⟩

end Execution

end MiniJava
