import MiniJava.Proofs.Machine.Running

/-!
# What a process does on its way

`Reaches` says where a process gets. `ReachesWithin` says in addition that all that it stores on the
way lies in one range of addresses. What an instruction stores is read off the instruction and the
registers (`Machine.stores?`), so a store counts even if it leaves memory as it was.

> `memory_of_run?`: outside of the range, no step changes memory.

The system is asked for something by system calls alone. `systemCalls` lists the states in which a
process makes one.

> `systemCalls_of_run?`: how many there are, and what they write, can be read off the last state.
-/

namespace MiniJava

namespace Execution

/-! ## What instructions store -/

/-- The bytes that an instruction stores, if it does: where they begin, and how many there are. New
memory is filled with zeros. -/
def Machine.stores? (sys : System) (m : Machine) : Instr Nat → Option (Nat × Nat)
  | .op (.pushReg _) | .op (.pushImm _) | .op (.pushMem _) | .call _ =>
    some ((m.regs .rsp - 8).toNat, 8)
  | .op (.store dst _) => some (m.address dst, 8)
  | .op (.storeByteImm dst _) | .op (.storeByte dst _) => some (m.address dst, 1)
  | .op .syscall =>
    if m.regs .rax = 9 then some (sys.place m.mappings, (m.regs .rsi).toNat) else none
  | _ => none

/-- Whether what an instruction stores lies between two addresses. -/
def Machine.storesWithin (sys : System) (first stop : Nat) (m : Machine) (i : Instr Nat) : Bool :=
  (m.stores? sys i).all fun (address, count) => first ≤ address && address + count ≤ stop

/-- The next instruction of a process stores nothing outside of a range. -/
def Machine.NextWithin (sys : System) (image : LoadedImage) (first stop : Nat)
    (m : Machine) : Prop :=
  ∀ i next, fetch? image m.rip = some (i, next) → m.storesWithin sys first stop i = true

section

variable {sys : System} {image : LoadedImage} {first stop : Nat} {m m' : Machine} {a : Nat}
  {i : Instr Nat} {address : Nat}

theorem storesWithin_of_stores? {count : Nat} (h : m.stores? sys i = some (address, count))
    (hfirst : first ≤ address) (hstop : address + count ≤ stop) :
    m.storesWithin sys first stop i = true := by
  rw [Machine.storesWithin, h]
  simp [hfirst, hstop]

/-- Only a system call that maps memory stores something. -/
theorem storesWithin_syscall (h : m.regs .rax ≠ 9) :
    m.storesWithin sys first stop (.op .syscall) = true := by
  have hnone : m.stores? sys (.op .syscall) = none := if_neg h
  rw [Machine.storesWithin, hnone]
  rfl

/-- What is stored within the range is not stored at an address outside. -/
theorem apart_of_storesWithin {count : Nat} (hin : m.storesWithin sys first stop i = true)
    (h : m.stores? sys i = some (address, count)) (ha : a < first ∨ stop ≤ a) :
    a < address ∨ address + count ≤ a := by
  rw [Machine.storesWithin, h] at hin
  simp only [Option.all_some, Bool.and_eq_true, decide_eq_true_eq] at hin
  omega

/-- One state comes out of another without a system call, and memory has changed at most where
something was stored. -/
structure Machine.Touches (m : Machine) (stored : Option (Nat × Nat)) (m' : Machine) : Prop where
  calls : m'.calls = m.calls
  output : m'.output = m.output
  memory : ∀ a, (∀ address count, stored = some (address, count) →
    a < address ∨ address + count ≤ a) → m'.memory a = m.memory a

theorem touches_store? {w : Word} (h : m.store? address w = some m') :
    m.Touches (some (address, 8)) m' := by
  rw [Machine.store?] at h
  split at h <;> cases h
  refine ⟨rfl, rfl, fun a ha => Memory.writeBytes_of_apart ?_⟩
  rw [length_littleEndian]
  exact ha _ _ rfl

theorem touches_storeByte? {b : UInt8} (h : m.storeByte? address b = some m') :
    m.Touches (some (address, 1)) m' := by
  rw [Machine.storeByte?] at h
  split at h <;> cases h
  exact ⟨rfl, rfl, fun a ha => Memory.writeBytes_of_apart (ha _ _ rfl)⟩

theorem touches_push? {w : Word} (h : m.push? w = some m') :
    m.Touches (some ((m.regs .rsp - 8).toNat, 8)) m' := by
  obtain ⟨_, hstored, hm'⟩ := Option.bind_eq_some_iff.mp h
  cases hm'
  exact { touches_store? hstored with }

theorem touches_pop? {w : Word} (h : m.pop? = some (w, m')) : m.Touches none m' := by
  obtain ⟨_, -, hm'⟩ := Option.bind_eq_some_iff.mp h
  cases hm'
  exact ⟨rfl, rfl, fun _ _ => rfl⟩

theorem touches_exec? {o : Op} (ho : o ≠ .syscall) (h : exec? sys m o = some m') :
    m.Touches (m.stores? sys (.op o)) m' := by
  cases o with
  | pushReg | pushImm => exact touches_push? h
  | pushMem =>
    obtain ⟨_, -, h⟩ := Option.bind_eq_some_iff.mp h
    exact touches_push? h
  | popReg =>
    obtain ⟨⟨_, _⟩, hpop, h⟩ := Option.bind_eq_some_iff.mp h
    cases h
    exact { touches_pop? hpop with }
  | load =>
    obtain ⟨_, -, h⟩ := Option.bind_eq_some_iff.mp h
    cases h
    exact ⟨rfl, rfl, fun _ _ => rfl⟩
  | store => exact touches_store? h
  | storeByteImm | storeByte => exact touches_storeByte? h
  | idiv | div | setcc =>
    obtain ⟨_, -, h⟩ := Option.map_eq_some_iff.mp h
    cases h
    exact ⟨rfl, rfl, fun _ _ => rfl⟩
  | syscall => exact absurd rfl ho
  | _ =>
    cases h
    exact ⟨rfl, rfl, fun _ _ => rfl⟩

/-! ## One step -/

/-- A step that goes on is a system call that comes back, or it makes none. -/
theorem step_cases {next : Nat} (hfetch : fetch? image m.rip = some (i, next))
    (h : step? sys image m = some (.running m')) :
    (i = .op .syscall ∧ ∃ done, m.systemCall? sys = some done ∧ m' = done.goto next) ∨
      (i ≠ .op .syscall ∧ m.Touches (m.stores? sys i) m') := by
  rw [step?, hfetch, Option.bind_eq_bind, Option.bind_some] at h
  cases i with
  | op o =>
    cases o with
    | syscall =>
      dsimp only at h
      split at h
      next => cases h
      next =>
        obtain ⟨done, hdone, h⟩ := Option.bind_eq_some_iff.mp h
        cases h
        exact .inl ⟨rfl, done, hdone, rfl⟩
    | _ =>
      obtain ⟨_, hdone, h⟩ := Option.bind_eq_some_iff.mp h
      cases h
      have htouches := touches_exec? (fun heq => by cases heq) hdone
      exact .inr ⟨(fun heq => by cases heq), { htouches with }⟩
  | jump =>
    cases h
    exact .inr ⟨(fun heq => by cases heq), rfl, rfl, fun _ _ => rfl⟩
  | jumpIf =>
    obtain ⟨_, -, h⟩ := Option.bind_eq_some_iff.mp h
    cases h
    exact .inr ⟨(fun heq => by cases heq), rfl, rfl, fun _ _ => rfl⟩
  | call =>
    obtain ⟨_, hpush, h⟩ := Option.bind_eq_some_iff.mp h
    cases h
    exact .inr ⟨(fun heq => by cases heq), { touches_push? hpush with }⟩
  | ret =>
    obtain ⟨⟨_, _⟩, hpop, h⟩ := Option.bind_eq_some_iff.mp h
    cases h
    exact .inr ⟨(fun heq => by cases heq), { touches_pop? hpop with }⟩

/-- A system call that comes back maps memory or writes to the standard output. -/
theorem systemCall_cases (h : m.systemCall? sys = some m') :
    m'.calls = m.calls + 1 ∧
      ((m.regs .rax = 9 ∧ m'.output = m.output ∧ m'.memory = m.memory.writeBytes
          (sys.place m.mappings) (List.replicate (m.regs .rsi).toNat 0)) ∨
        (m.regs .rax = 1 ∧ m.regs .rdi = 1 ∧ m'.memory = m.memory ∧
          m'.output = m.output ++ m.memory.bytesAt (m.regs .rsi).toNat (m.regs .rdx).toNat)) := by
  rw [Machine.systemCall?] at h
  split at h
  next hmap =>
    obtain ⟨_, hdone, hm'⟩ := Option.bind_eq_some_iff.mp h
    cases hm'
    rw [Machine.mapMemory?] at hdone
    split at hdone <;> cases hdone
    exact ⟨rfl, .inl ⟨hmap, rfl, rfl⟩⟩
  next =>
    split at h
    next hwrite =>
      obtain ⟨_, hdone, hm'⟩ := Option.bind_eq_some_iff.mp h
      cases hm'
      rw [Machine.write?] at hdone
      split at hdone
      next hallowed =>
        cases hdone
        exact ⟨rfl, .inr ⟨hwrite, hallowed.1, rfl, rfl⟩⟩
      next => cases hdone
    next => cases h

theorem memory_of_step {next : Nat} (hfetch : fetch? image m.rip = some (i, next))
    (h : step? sys image m = some (.running m')) (hin : m.storesWithin sys first stop i = true)
    (ha : a < first ∨ stop ≤ a) : m'.memory a = m.memory a := by
  have hapart : ∀ address count, m.stores? sys i = some (address, count) →
      a < address ∨ address + count ≤ a := fun _ _ hstores => apart_of_storesWithin hin hstores ha
  rcases step_cases hfetch h with ⟨rfl, done, hdone, rfl⟩ | ⟨-, htouches⟩
  · show done.memory a = m.memory a
    rcases (systemCall_cases hdone).2 with ⟨hmap, -, hmemory⟩ | ⟨-, -, hmemory, -⟩
    · rw [hmemory]
      refine Memory.writeBytes_of_apart ?_
      rw [List.length_replicate]
      exact hapart _ _ (if_pos hmap)
    · rw [hmemory]
  · exact htouches.memory a hapart

/-! ## Several steps -/

/-- A process gets from one state to another, and all that it stores on the way is within a
range. -/
def ReachesWithin (sys : System) (image : LoadedImage) (first stop : Nat) (m m' : Machine) : Prop :=
  ∃ n, run? sys image n m = some (.running m') ∧
    ∀ j < n, ∀ between, run? sys image j m = some (.running between) →
      between.NextWithin sys image first stop

theorem ReachesWithin.refl (m : Machine) : ReachesWithin sys image first stop m m :=
  ⟨0, rfl, nofun⟩

theorem ReachesWithin.trans {m₁ m₂ m₃ : Machine} (h : ReachesWithin sys image first stop m₁ m₂)
    (h' : ReachesWithin sys image first stop m₂ m₃) : ReachesWithin sys image first stop m₁ m₃ := by
  obtain ⟨n, hn, hwithin⟩ := h
  obtain ⟨k, hk, hwithin'⟩ := h'
  refine ⟨n + k, (run?_add hn k).trans hk, ?_⟩
  intro j _ between hbetween
  by_cases hlt : j < n
  · exact hwithin j hlt between hbetween
  · obtain ⟨d, rfl⟩ : ∃ d, j = n + d := ⟨j - n, by omega⟩
    rw [run?_add hn] at hbetween
    exact hwithin' d (by omega) between hbetween

theorem ReachesWithin.single (h : step? sys image m = some (.running m'))
    (hnext : m.NextWithin sys image first stop) : ReachesWithin sys image first stop m m' := by
  refine ⟨1, by rw [run?, h]; rfl, ?_⟩
  intro j _ _ hbetween
  obtain rfl : j = 0 := by omega
  cases hbetween
  exact hnext

theorem ReachesWithin.reaches (h : ReachesWithin sys image first stop m m') :
    Reaches sys image m m' := ⟨h.choose, h.choose_spec.1⟩

/-- A step has an instruction. -/
theorem exists_fetch_of_step {progress : Progress} (h : step? sys image m = some progress) :
    ∃ i next, fetch? image m.rip = some (i, next) := by
  rw [step?] at h
  obtain ⟨⟨i, next⟩, hfetch, -⟩ := Option.bind_eq_some_iff.mp h
  exact ⟨i, next, hfetch⟩

/-- Outside of the range, no step changes memory. -/
theorem memory_of_run? {n : Nat} (h : run? sys image n m = some (.running m'))
    (hwithin : ∀ j < n, ∀ between, run? sys image j m = some (.running between) →
      between.NextWithin sys image first stop)
    (ha : a < first ∨ stop ≤ a) : m'.memory a = m.memory a := by
  induction n generalizing m with
  | zero =>
    cases h
    rfl
  | succ _ ih =>
    obtain ⟨_, hstep, hrun⟩ := exists_step_of_run? h
    obtain ⟨_, behind, hfetch⟩ := exists_fetch_of_step hstep
    have hfirst := hwithin 0 (by omega) m rfl
    -- The states behind the first step are those of the rest of the run, one step later.
    have hothers := ih hrun fun j hj between hbetween =>
      hwithin (j + 1) (by omega) between (by rw [run?, hstep]; exact hbetween)
    exact hothers.trans (memory_of_step hfetch hstep (hfirst _ _ hfetch) ha)

/-! ## System calls -/

/-- Whether the next instruction of a process is a system call. -/
def Machine.asks (image : LoadedImage) (m : Machine) : Bool :=
  match fetch? image m.rip with
  | some (.op .syscall, _) => true
  | _ => false

/-- The states in which a process makes system calls during its first steps. -/
def systemCalls (sys : System) (image : LoadedImage) : Nat → Machine → List Machine
  | 0, _ => []
  | n + 1, m =>
    (if m.asks image then [m] else []) ++
      match step? sys image m with
      | some (.running m') => systemCalls sys image n m'
      | _ => []

/-- The bytes that are written by the system call that is next. -/
def Machine.written (m : Machine) : List UInt8 :=
  if m.regs .rax = 1 then m.memory.bytesAt (m.regs .rsi).toNat (m.regs .rdx).toNat else []

/-- What one step does to the number of system calls and to the output. -/
theorem calls_of_step (h : step? sys image m = some (.running m')) :
    m'.calls = m.calls + (if m.asks image then 1 else 0) ∧
      m'.output = m.output ++ (if m.asks image then m.written else []) ∧
      (m.asks image = true → m.regs .rax = 1 → m.regs .rdi = 1) := by
  obtain ⟨_, next, hfetch⟩ := exists_fetch_of_step h
  rcases step_cases hfetch h with ⟨rfl, _, hdone, rfl⟩ | ⟨hi, htouches⟩
  · have hasks : m.asks image = true := by rw [Machine.asks, hfetch]
    obtain ⟨hcalls, ⟨hmap, houtput, -⟩ | ⟨hwrite, hallowed, -, houtput⟩⟩ := systemCall_cases hdone
    · -- Memory that is mapped is not written to the output.
      have hother : m.regs .rax ≠ 1 := by
        rw [hmap]
        decide
      rw [hasks, if_pos rfl, if_pos rfl, Machine.written, if_neg hother, List.append_nil]
      exact ⟨hcalls, houtput, fun _ hwrite => absurd hwrite hother⟩
    · rw [hasks, if_pos rfl, if_pos rfl, Machine.written, if_pos hwrite]
      exact ⟨hcalls, houtput, fun _ _ => hallowed⟩
  · have hasks : m.asks image = false := by
      rw [Machine.asks, hfetch]
      split
      next heq =>
        cases heq
        exact absurd rfl hi
      next => rfl
    rw [hasks, if_neg Bool.false_ne_true, if_neg Bool.false_ne_true, Nat.add_zero, List.append_nil]
    exact ⟨htouches.calls, htouches.output, fun hasked => absurd hasked Bool.false_ne_true⟩

/-- The system calls of a run are counted, and the output is what they wrote. -/
theorem systemCalls_of_run? {n : Nat} (h : run? sys image n m = some (.running m')) :
    m'.calls = m.calls + (systemCalls sys image n m).length ∧
      m'.output = m.output ++ (systemCalls sys image n m).flatMap Machine.written ∧
      ∀ asked ∈ systemCalls sys image n m, asked.regs .rax = 1 → asked.regs .rdi = 1 := by
  induction n generalizing m with
  | zero =>
    cases h
    exact ⟨rfl, (List.append_nil _).symm, nofun⟩
  | succ _ ih =>
    obtain ⟨_, hstep, hrun⟩ := exists_step_of_run? h
    obtain ⟨hcalls, houtput, hallowed⟩ := calls_of_step hstep
    obtain ⟨hcalls', houtput', hallowed'⟩ := ih hrun
    rw [systemCalls, hstep]
    cases hasks : m.asks image with
    | true =>
      rw [hasks] at hcalls houtput
      refine ⟨?_, ?_, List.forall_mem_cons.mpr ⟨hallowed hasks, hallowed'⟩⟩
      · rw [hcalls', hcalls]
        simp only [if_true, List.length_append, List.length_singleton]
        omega
      · rw [houtput', houtput]
        simp [List.append_assoc]
    | false =>
      rw [hasks] at hcalls houtput
      refine ⟨?_, ?_, hallowed'⟩
      · rw [hcalls', hcalls]
        simp
      · rw [houtput', houtput]
        simp

/-! ## Operations in turn -/

/-- Does operations one after the other, unless one of them stores something outside of a range. -/
def execWithin? (sys : System) (first stop : Nat) : List Op → Machine → Option Machine
  | [], m => some m
  | o :: os, m =>
    if m.storesWithin sys first stop (.op o) then exec? sys m o >>= execWithin? sys first stop os
    else none

theorem execWithin?_cons {o : Op} (h : exec? sys m o = some m')
    (hin : m.storesWithin sys first stop (.op o) = true) (os : List Op) :
    execWithin? sys first stop (o :: os) m = execWithin? sys first stop os m' := by
  rw [execWithin?, if_pos hin, h]
  rfl

theorem execWithin?_goto (sys : System) (first stop : Nat) (m : Machine) (rip : Nat)
    (os : List Op) : execWithin? sys first stop os (m.goto rip) =
      (execWithin? sys first stop os m).map (·.goto rip) := by
  induction os generalizing m with
  | nil => rfl
  | cons o _ ih =>
    have hsame : (m.goto rip).storesWithin sys first stop (.op o) =
        m.storesWithin sys first stop (.op o) := by cases o <;> rfl
    rw [execWithin?, execWithin?, hsame, exec?_goto]
    split
    next =>
      cases exec? sys m o with
      | none => rfl
      | some m' => exact ih m'
    next => rfl

end

namespace Loaded

variable {P : Loaded} {first stop k : Nat} {m m' : Machine}

theorem nextWithin {i : Instr Label} (hk : P.code[k]? = some i) (hrip : m.rip = P.addr k)
    (hin : m.storesWithin P.sys first stop (i.map fun label => P.addr (P.index label)) = true) :
    m.NextWithin P.sys P.image first stop := by
  intro _ _ hfetch
  rw [hrip, P.fetch k i hk] at hfetch
  cases hfetch
  exact hin

theorem reachesWithin_ops {os : List Op} (hk : P.CodeAt k (Instr.ops os)) (hrip : m.rip = P.addr k)
    (h : execWithin? P.sys first stop os m = some m') :
    ReachesWithin P.sys P.image first stop m (m'.goto (P.addr (k + os.length))) := by
  induction os generalizing k m m' with
  | nil =>
    cases h
    rw [List.length_nil, Nat.add_zero, ← hrip]
    exact .refl _
  | cons _ os ih =>
    obtain ⟨hfirst, hrest⟩ := codeAt_cons.mp hk
    rw [execWithin?] at h
    split at h
    next hin =>
      obtain ⟨next, hexec, hothers⟩ := Option.bind_eq_some_iff.mp h
      -- Operations do not look at the instruction pointer, so they can be done from the next one
      -- on.
      have hgoto := execWithin?_goto P.sys first stop next (P.addr (k + 1)) os
      rw [hothers] at hgoto
      have hreach := ih hrest rfl hgoto
      rw [List.length_cons, Nat.add_comm os.length, ← Nat.add_assoc]
      exact (ReachesWithin.single (step_op hfirst hrip hexec) (nextWithin hfirst hrip hin)).trans
        hreach
    next => cases h

theorem reachesWithin_jumpIf {cond : Cond} {label : Label}
    (hk : P.code[k]? = some (.jumpIf cond label)) (hrip : m.rip = P.addr k)
    {flags : Flags} (hflags : m.flags = some flags) :
    ReachesWithin P.sys P.image first stop m
      (m.goto (P.addr (if holds flags cond then P.index label else k + 1))) :=
  .single (step_jumpIf hk hrip hflags) (nextWithin hk hrip rfl)

end Loaded

end Execution

end MiniJava
