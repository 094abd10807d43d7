import MiniJava.Lowering.Frame
import MiniJava.Proofs.Machine.View

/-!
# Running code

Code in memory, and how a process gets from one instruction to another. Places are
named by the indices of instructions and states by views, so nothing is said of bytes
and addresses any more, except for the return addresses on the stack.

> `Loaded.Runs`: whatever looks like the first view at the first index gets, in some
> number of steps, to the second index, where it looks like the second view.
-/

namespace MiniJava

open List

variable {k : Nat}

namespace Execution

/-! ## Several steps -/

variable {m' : Machine}

section

variable {sys : System} {image : LoadedImage}

/-- A process gets from one state to another. -/
def Reaches (sys : System) (image : LoadedImage) (m m' : Machine) : Prop :=
  ∃ n, run? sys image n m = some (.running m')

variable {m : Machine}

/-- A run that goes on begins with a step that goes on. -/
theorem exists_step_of_run? {n : Nat} (h : run? sys image (n + 1) m = some (.running m')) :
    ∃ next, step? sys image m = some (.running next) ∧
      run? sys image n next = some (.running m') := by
  rw [run?] at h
  obtain ⟨progress, hstep, h⟩ := Option.bind_eq_some_iff.mp h
  cases progress with
  | running next => exact ⟨next, hstep, h⟩
  | exited => cases h

theorem run?_add {n : Nat} (h : run? sys image n m = some (.running m')) (k : Nat) :
    run? sys image (n + k) m = run? sys image k m' := by
  induction n generalizing m with
  | zero =>
    cases h
    rw [Nat.zero_add]
  | succ _ ih =>
    obtain ⟨_, hstep, hrun⟩ := exists_step_of_run? h
    rw [Nat.add_right_comm, run?, hstep]
    exact ih hrun

theorem Reaches.refl (m : Machine) : Reaches sys image m m := ⟨0, rfl⟩

theorem Reaches.trans {m₁ m₂ m₃ : Machine} (h : Reaches sys image m₁ m₂)
    (h' : Reaches sys image m₂ m₃) : Reaches sys image m₁ m₃ := by
  obtain ⟨n, hn⟩ := h
  obtain ⟨k, hk⟩ := h'
  exact ⟨n + k, (run?_add hn k).trans hk⟩

theorem Reaches.single (h : step? sys image m = some (.running m')) :
    Reaches sys image m m' := ⟨1, by rw [run?, h]; rfl⟩

end

/-! ## The address of the next instruction

No operation looks at it, so several of them can be taken as one.
-/

/-- Puts a process at another place of its code. -/
def Machine.goto (m : Machine) (rip : Nat) : Machine := { m with rip := rip }

section

variable (m : Machine) (rip : Nat)

theorem regs_goto : (m.goto rip).regs = m.regs := rfl

theorem flags_goto : (m.goto rip).flags = m.flags := rfl

theorem address_goto (operand : Mem) : (m.goto rip).address operand = m.address operand := rfl

theorem load?_goto (address : Nat) : (m.goto rip).load? address = m.load? address := rfl

theorem store?_goto (address : Nat) (w : Word) :
    (m.goto rip).store? address w = (m.store? address w).map (·.goto rip) := by
  rw [Machine.store?, Machine.store?, apply_ite (Option.map _)]
  rfl

theorem storeByte?_goto (address : Nat) (b : UInt8) :
    (m.goto rip).storeByte? address b = (m.storeByte? address b).map (·.goto rip) := by
  rw [Machine.storeByte?, Machine.storeByte?, apply_ite (Option.map _)]
  rfl

theorem push?_goto (w : Word) : (m.goto rip).push? w = (m.push? w).map (·.goto rip) := by
  rw [Machine.push?, Machine.push?, regs_goto, store?_goto]
  cases m.store? (m.regs .rsp - 8).toNat w <;> rfl

theorem systemCall?_goto (sys : System) :
    (m.goto rip).systemCall? sys = (m.systemCall? sys).map (·.goto rip) := by
  have hmap : (m.goto rip).mapMemory? sys = (m.mapMemory? sys).map (·.goto rip) := by
    rw [Machine.mapMemory?, Machine.mapMemory?, apply_ite (Option.map _)]
    rfl
  have hwrite : (m.goto rip).write? = m.write?.map (·.goto rip) := by
    rw [Machine.write?, Machine.write?, apply_ite (Option.map _)]
    rfl
  rw [Machine.systemCall?, Machine.systemCall?, hmap, hwrite, regs_goto]
  split
  next => cases m.mapMemory? sys <;> rfl
  next =>
    split
    next => cases m.write? <;> rfl
    next => rfl

/-- No operation looks at the instruction pointer. -/
theorem exec?_goto (sys : System) (o : Op) :
    exec? sys (m.goto rip) o = (exec? sys m o).map (·.goto rip) := by
  -- No operation but a branch reads the instruction pointer, so it can be set before or after.
  cases o with
  | pushReg | pushImm => exact push?_goto m rip _
  | pushMem source =>
    rw [exec?, exec?, address_goto, load?_goto]
    cases m.load? (m.address source) with
    | none => rfl
    | some w => exact push?_goto m rip w
  | popReg =>
    rw [exec?, exec?, Machine.pop?, Machine.pop?, regs_goto, load?_goto]
    cases m.load? (m.regs .rsp).toNat <;> rfl
  | load _ src =>
    rw [exec?, exec?, address_goto, load?_goto]
    cases m.load? (m.address src) <;> rfl
  | store => exact store?_goto m rip _ _
  | storeByteImm | storeByte => exact storeByte?_goto m rip _ _
  | idiv divisor =>
    rw [exec?, exec?, regs_goto]
    cases signedDivide? (m.regs .rdx) (m.regs .rax) (m.regs divisor) <;> rfl
  | div divisor =>
    rw [exec?, exec?, regs_goto]
    cases unsignedDivide? (m.regs .rdx) (m.regs .rax) (m.regs divisor) <;> rfl
  | setcc =>
    rw [exec?, exec?, flags_goto]
    cases m.flags <;> rfl
  | syscall => exact systemCall?_goto m rip sys
  | _ => rfl

/-- Does operations one after the other. -/
def execAll? (sys : System) : List Op → Machine → Option Machine
  | [], m => some m
  | o :: os, m => exec? sys m o >>= execAll? sys os

theorem execAll?_cons {sys : System} {m : Machine} {o : Op} (h : exec? sys m o = some m')
    (os : List Op) : execAll? sys (o :: os) m = execAll? sys os m' := by
  rw [execAll?, h]
  rfl

theorem execAll?_append (sys : System) (os others : List Op) :
    execAll? sys (os ++ others) m = execAll? sys os m >>= execAll? sys others := by
  induction os generalizing m with
  | nil => rfl
  | cons o _ ih =>
    rw [cons_append, execAll?, execAll?]
    cases exec? sys m o with
    | none => rfl
    | some m' => exact ih m'

theorem execAll?_goto (sys : System) (os : List Op) :
    execAll? sys os (m.goto rip) = (execAll? sys os m).map (·.goto rip) := by
  induction os generalizing m with
  | nil => rfl
  | cons o _ ih =>
    rw [execAll?, execAll?, exec?_goto]
    cases exec? sys m o with
    | none => rfl
    | some m' => exact ih m'

end

/-! ## Loaded code -/

/-- Code in the memory of a process. -/
structure Loaded where
  sys : System
  image : LoadedImage
  layout : Layout
  code : LabelledCode
  /-- The index of the instruction that a label stands for. -/
  index : Label → Nat
  /-- The address of the instruction with an index. -/
  addr : Nat → Nat
  place_eq : sys.place = layout.place
  index_index : ∀ n, index (.index n) = n
  addr_lt : ∀ k, addr k < 2 ^ 64
  fetch : ∀ (k : Nat) i, code[k]? = some i →
    fetch? image (addr k) = some (i.map fun label => addr (index label), addr (k + 1))

namespace Loaded

variable {P : Loaded}

/-- The code contains these instructions from an index on. -/
def CodeAt (P : Loaded) (k : Nat) (code : LabelledCode) : Prop :=
  ∀ (j : Nat) i, code[j]? = some i → P.code[k + j]? = some i

theorem codeAt_append {code others : LabelledCode} :
    P.CodeAt k (code ++ others) ↔ P.CodeAt k code ∧ P.CodeAt (k + code.length) others := by
  constructor
  · intro h
    constructor
    · intro j i hj
      exact h j i (by rw [List.getElem?_append_left (List.getElem?_eq_some_iff.mp hj).1, hj])
    · intro j i hj
      rw [Nat.add_assoc]
      refine h (code.length + j) i ?_
      rw [getElem?_append_right (by omega), Nat.add_sub_cancel_left, hj]
  · rintro ⟨hcode, hothers⟩ j i hj
    by_cases hlt : j < code.length
    · rw [getElem?_append_left hlt] at hj
      exact hcode j i hj
    · rw [getElem?_append_right (by omega)] at hj
      have := hothers (j - code.length) i hj
      rwa [Nat.add_assoc, Nat.add_sub_cancel' (by omega)] at this

theorem codeAt_cons {i : Instr Label} {code : LabelledCode} :
    P.CodeAt k (i :: code) ↔ P.code[k]? = some i ∧ P.CodeAt (k + 1) code := by
  have h : P.CodeAt k ([i] ++ code) ↔ _ := codeAt_append
  rw [singleton_append, length_singleton] at h
  rw [h]
  refine and_congr_left fun _ => ⟨fun hi => hi 0 i rfl, ?_⟩
  intro hk j _ hj
  cases j with
  | zero => cases hj; exact hk
  | succ => cases hj

/-- A process gets from one place in the code to another. -/
def Runs (P : Loaded) (k : Nat) (v : View) (k' : Nat) (v' : View) : Prop :=
  ∀ m, Shows P.layout v m → m.rip = P.addr k →
    ∃ m', Reaches P.sys P.image m m' ∧ Shows P.layout v' m' ∧ m'.rip = P.addr k'

theorem Runs.refl (k : Nat) (v : View) : P.Runs k v k v :=
  fun m h hrip => ⟨m, .refl m, h, hrip⟩

theorem Runs.trans {k₁ k₂ k₃ : Nat} {v₁ v₂ v₃ : View} (h : P.Runs k₁ v₁ k₂ v₂)
    (h' : P.Runs k₂ v₂ k₃ v₃) : P.Runs k₁ v₁ k₃ v₃ := by
  intro m hm hrip
  obtain ⟨m₂, hreach, hm₂, hrip₂⟩ := h m hm hrip
  obtain ⟨m₃, hreach', hm₃, hrip₃⟩ := h' m₂ hm₂ hrip₂
  exact ⟨m₃, hreach.trans hreach', hm₃, hrip₃⟩

/-! ## Single instructions -/

variable {m : Machine} {label : Label} {v : View} {os : List Op}

/-- A system call that comes back is not the one that ends the process. -/
theorem rax_ne_of_systemCall {sys : System} (h : m.systemCall? sys = some m') :
    m.regs .rax ≠ 60 := by
  intro hrax
  rw [Machine.systemCall?, hrax] at h
  cases h

theorem step_op {o : Op} (hk : P.code[k]? = some (.op o)) (hrip : m.rip = P.addr k)
    (h : exec? P.sys m o = some m') :
    step? P.sys P.image m = some (.running { m' with rip := P.addr (k + 1) }) := by
  rw [step?, hrip, P.fetch k _ hk]
  cases o with
  | syscall =>
    have hrax := rax_ne_of_systemCall h
    have hcall : m.systemCall? P.sys = some m' := h
    simp only [Instr.map, Option.bind_eq_bind, Option.bind_some, if_neg hrax, hcall]
    rfl
  | _ => simp [Instr.map, h]

theorem runs_jump (hk : P.code[k]? = some (.jump label)) (v : View) :
    P.Runs k v (P.index label) v := by
  intro m hm hrip
  refine ⟨{ m with rip := P.addr (P.index label) }, .single ?_, hm.setRip _, rfl⟩
  rw [step?, hrip, P.fetch k _ hk]
  rfl

theorem step_jumpIf {cond : Cond} (hk : P.code[k]? = some (.jumpIf cond label))
    (hrip : m.rip = P.addr k) {flags : Flags} (hflags : m.flags = some flags) :
    step? P.sys P.image m = some (.running
      (m.goto (P.addr (if holds flags cond then P.index label else k + 1)))) := by
  rw [step?, hrip, P.fetch k _ hk, apply_ite P.addr]
  simp only [Instr.map, hflags, Option.bind_eq_bind, Option.bind_some, Machine.goto]
  rfl

theorem runs_jumpIf {cond : Cond} (hk : P.code[k]? = some (.jumpIf cond label)) {flags : Flags}
    (hflags : v.flags = some flags) :
    P.Runs k v (if holds flags cond then P.index label else k + 1) v := by
  intro _ hm hrip
  exact ⟨_, .single (step_jumpIf hk hrip (hm.flags.trans hflags)), hm.setRip _, rfl⟩

theorem runs_call (hk : P.code[k]? = some (.call label)) (hfit : P.layout.Fits v.sizes)
    (hroom : v.stack.length < P.layout.room) :
    P.Runs k v (P.index label)
      { v with stack := v.stack ++ [BitVec.ofNat 64 (P.addr (k + 1))] } := by
  intro _ hm hrip
  obtain ⟨_, hpush, hm'⟩ := hm.push hfit hroom (BitVec.ofNat 64 (P.addr (k + 1)))
  refine ⟨_, .single ?_, hm'.setRip (P.addr (P.index label)), rfl⟩
  rw [step?, hrip, P.fetch k _ hk]
  simp [Instr.map, hpush]

theorem toNat_addr (P : Loaded) (k : Nat) : (BitVec.ofNat 64 (P.addr k)).toNat = P.addr k := by
  rw [BitVec.toNat_ofNat, Nat.mod_eq_of_lt (P.addr_lt k)]

theorem step_ret (hk : P.code[k]? = some .ret) {back : Word} (hrip : m.rip = P.addr k)
    (hpop : m.pop? = some (back, m')) :
    step? P.sys P.image m = some (.running (m'.goto back.toNat)) := by
  rw [step?, hrip, P.fetch k _ hk]
  simp only [Instr.map, hpop, Option.bind_eq_bind, Option.bind_some]
  rfl

theorem runs_ret {k' : Nat} (hk : P.code[k]? = some .ret) (hfit : P.layout.Fits v.sizes)
    {stack : List Word} (hstack : v.stack = stack ++ [BitVec.ofNat 64 (P.addr k')]) :
    P.Runs k v k' { v with stack := stack } := by
  intro _ hm hrip
  obtain ⟨_, hpop, hm'⟩ := hm.pop hfit hstack
  exact ⟨_, .single (step_ret hk hrip hpop), hm'.setRip _, P.toNat_addr k'⟩

/-! ## Operations in turn -/

theorem reaches_ops (hk : P.CodeAt k (Instr.ops os)) (hrip : m.rip = P.addr k)
    (h : execAll? P.sys os m = some m') :
    Reaches P.sys P.image m (m'.goto (P.addr (k + os.length))) := by
  induction os generalizing k m m' with
  | nil =>
    cases h
    rw [length_nil, Nat.add_zero, ← hrip]
    exact .refl _
  | cons _ os ih =>
    obtain ⟨hfirst, hrest⟩ := codeAt_cons.mp hk
    obtain ⟨next, hexec, hothers⟩ := Option.bind_eq_some_iff.mp h
    have hgoto := execAll?_goto next (P.addr (k + 1)) P.sys os
    rw [hothers] at hgoto
    -- The operations behind the first do not see where it has left the instruction pointer.
    have hreach := ih hrest rfl hgoto
    rw [length_cons, Nat.add_comm os.length, ← Nat.add_assoc]
    exact (Reaches.single (step_op hfirst hrip hexec)).trans hreach

/-- Operations one after the other. -/
def DoesAll (P : Loaded) (os : List Op) (v v' : View) : Prop :=
  ∀ m, Shows P.layout v m → ∃ m', execAll? P.sys os m = some m' ∧ Shows P.layout v' m'

theorem DoesAll.nil (v : View) : P.DoesAll [] v v := fun m h => ⟨m, rfl, h⟩

theorem DoesAll.cons {o : Op} {v' v'' : View} (first : Does P.sys P.layout o v v')
    (others : P.DoesAll os v' v'') :
    P.DoesAll (o :: os) v v'' := by
  intro m hm
  obtain ⟨m', hexec, hm'⟩ := first m hm
  obtain ⟨m'', hexec', hm''⟩ := others m' hm'
  exact ⟨m'', (execAll?_cons hexec os).trans hexec', hm''⟩

theorem DoesAll.append {others : List Op} {v' v'' : View} (first : P.DoesAll os v v')
    (second : P.DoesAll others v' v'') : P.DoesAll (os ++ others) v v'' := by
  intro m hm
  obtain ⟨m', hexec, hm'⟩ := first m hm
  obtain ⟨m'', hexec', hm''⟩ := second m' hm'
  exact ⟨m'', by rw [execAll?_append, hexec]; exact hexec', hm''⟩

theorem runs_ops {v' : View} (h : P.DoesAll os v v') (hk : P.CodeAt k (Instr.ops os)) :
    P.Runs k v (k + os.length) v' := by
  intro m hm hrip
  obtain ⟨_, hexec, hm'⟩ := h m hm
  exact ⟨_, reaches_ops hk hrip hexec, hm'.setRip _, rfl⟩

end Loaded

end Execution

/-! ## From a file -/

namespace Code

theorem drop_encodeFrom (code : Code) (offset : Nat) (rest : Code) (k : Nat) :
    (encodeFrom code offset rest).drop (offsetOf rest k) =
      encodeFrom code (offset + offsetOf rest k) (rest.drop k) := by
  induction rest generalizing offset k with
  | nil => simp [encodeFrom, offsetOf]
  | cons i _ ih =>
    cases k with
    | zero => simp
    | succ =>
      have hlen : (Encoding.instr (i.map (code.distanceTo (offset + i.size)))).length = i.size := by
        simp
      rw [offsetOf_cons, encodeFrom, ← drop_drop, drop_left' hlen, ih,
        drop_succ_cons, Nat.add_assoc]

theorem offsetOf_add_one {code : Code} {i : Instr (Option Nat)} (hk : code[k]? = some i) :
    offsetOf code (k + 1) = offsetOf code k + i.size := by
  simp [offsetOf, take_add_one, hk]

theorem offsetOf_le_byteSize_of_any (code : Code) (k : Nat) : offsetOf code k ≤ byteSize code := by
  rcases Nat.le_total k code.length with h | h
  · exact offsetOf_le_byteSize h
  · refine Nat.le_of_eq ?_
    rw [byteSize, offsetOf, offsetOf, take_of_length_le h, take_length]

end Code

namespace Image

/-- What the system learns from the file of some code. -/
def loaded (code : Code) : LoadedImage :=
  ⟨entryAddress, loadAddress, ofCode (code.encodeFrom 0 code)⟩

theorem bytesFrom_loaded (code : Code) (k : Nat) :
    (loaded code).bytesFrom (entryAddress + Code.offsetOf code k) =
      code.encodeFrom (Code.offsetOf code k) (code.drop k) := by
  have hentry := bytesFrom_entry (code.encodeFrom 0 code)
  rw [LoadedImage.bytesFrom, if_pos (by simp [entryAddress])] at hentry
  rw [loaded, LoadedImage.bytesFrom, if_pos (by simp [entryAddress]; omega)]
  rw [Nat.sub_add_comm (by simp [entryAddress]), ← drop_drop, hentry, Code.drop_encodeFrom,
    Nat.zero_add]

end Image

namespace Execution

/-- The instruction with an index is found at its address, with the addresses of its targets. -/
theorem fetch?_loaded {code : Code} (hsize : Code.byteSize code < 2 ^ 31)
    (hcode : ∀ k, ¬ code.Dangling k) {i : Instr (Option Nat)} (hk : code[k]? = some i) :
    fetch? (Image.loaded code) (Image.entryAddress + Code.offsetOf code k) =
      some (i.map fun t => Image.entryAddress + Code.offsetOf code (t.getD 0),
        Image.entryAddress + Code.offsetOf code (k + 1)) := by
  obtain ⟨hlt, hi⟩ := List.getElem?_eq_some_iff.mp hk
  have hnext := Code.offsetOf_add_one hk
  have hread := Decoding.decodeInstr_instr
    (i.map (code.distanceTo (Code.offsetOf code k + i.size)))
    (code.encodeFrom (Code.offsetOf code k + i.size) (code.drop (k + 1)))
  rw [fetch?, Image.bytesFrom_loaded, List.drop_eq_getElem_cons hlt, hi, Code.encodeFrom, hread]
  simp only [Option.bind_eq_bind, Option.bind_some, length_append, Nat.add_sub_cancel,
    Encoding.length_instr, Instr.size_map, Instr.map_map, Option.pure_def, Option.some.injEq,
    Prod.mk.injEq]
  refine ⟨Instr.map_congr ?_, by omega⟩
  intro _ ht
  -- The distance is counted from the end of the instruction, as the encoder has counted it.
  obtain ⟨_, rfl, hn⟩ := Disassembly.exists_target hcode hk ht
  rw [← hnext, Disassembly.targetAddress_distanceTo hsize Image.entryAddress (by omega) hn
    (by rw [hnext, Nat.add_assoc])]
  rfl

/-- Code whose labels stand for indices, loaded from its file. -/
def Loaded.ofCode (sys : System) (top room : Nat) (code : LabelledCode) (index : Label → Nat)
    (hindex : ∀ n, index (.index n) = n)
    (hsize : Code.byteSize (code.map (·.map fun l => some (index l))) < 2 ^ 31)
    (hcode : ∀ k, ¬ Code.Dangling (code.map (·.map fun l => some (index l))) k) : Loaded where
  sys := sys
  image := Image.loaded (code.map (·.map fun l => some (index l)))
  layout := ⟨top, room, sys.place⟩
  code := code
  index := index
  addr k := Image.entryAddress + Code.offsetOf (code.map (·.map fun l => some (index l))) k
  place_eq := rfl
  index_index := hindex
  addr_lt k := by
    have hle := Code.offsetOf_le_byteSize_of_any (code.map (·.map fun l => some (index l))) k
    have hentry : Image.entryAddress < 2 ^ 32 := by decide
    omega
  fetch k i hk := by
    have hk' : (code.map (·.map fun l => some (index l)))[k]? =
        some (i.map fun l => some (index l)) := by rw [getElem?_map, hk]; rfl
    rw [fetch?_loaded hsize hcode hk', Instr.map_map]
    rfl

end Execution

end MiniJava
