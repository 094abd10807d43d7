import MiniJava.Proofs.Machine.Disassembly

/-!
# Execution

What a processor and the system under it do with an executable file: the meaning of
the instructions, one step of a program, and what happens from the start of a process
to its end.

The machine is told apart from what the process cannot know. Where the system puts
new memory, and what a system call leaves in the two registers that it may change, is
for the `System` to choose. A step that a process may not take has no result: an
access outside of its memory, a division that overflows, a condition on flags that
nothing has set, or a system call that is none of the three known ones.
-/

namespace MiniJava

/-- The contents of a register. -/
abbrev Word := BitVec 64

namespace Execution

open Decoding (ofLittleEndian)

/-! ## Memory -/

/-- The bytes of memory by their addresses. -/
abbrev Memory := Nat → UInt8

namespace Memory

/-- The bytes from an address on. -/
def bytesAt (mem : Memory) (address count : Nat) : List UInt8 :=
  (List.range count).map fun i => mem (address + i)

/-- Replaces the bytes from an address on. -/
def writeBytes (mem : Memory) (address : Nat) (bytes : List UInt8) : Memory := fun a =>
  if a < address then mem a else bytes.getD (a - address) (mem a)

/-- The word at an address, the least significant byte first. -/
def readWord (mem : Memory) (address : Nat) : Word :=
  BitVec.ofNat 64 (ofLittleEndian (mem.bytesAt address 8))

/-- Replaces the word at an address. -/
def writeWord (mem : Memory) (address : Nat) (w : Word) : Memory :=
  mem.writeBytes address (littleEndian 8 w.toNat)

end Memory

/-! ## States -/

/-- The flags that conditions look at. -/
structure Flags where
  zero : Bool
  sign : Bool
  overflow : Bool
  deriving DecidableEq, Repr

/-- A process between two instructions. -/
structure Machine where
  regs : Reg → Word
  /-- Unless the last operation leaves them undefined. -/
  flags : Option Flags
  /-- The address of the next instruction. -/
  rip : Nat
  memory : Memory
  /-- The ranges of addresses that may be read and written, each from its first address to
  the one behind its last. -/
  ranges : List (Nat × Nat)
  /-- What was written to the standard output. -/
  output : List UInt8
  /-- The number of times that memory was mapped. -/
  mappings : Nat
  /-- The number of system calls. -/
  calls : Nat

/-- What a process does not know of the system that it runs on. -/
structure System where
  /-- The address of the memory that is mapped for the n-th time. -/
  place : Nat → Nat
  /-- What the n-th system call leaves in `rcx` and `r11`. -/
  scratch : Nat → Word × Word

namespace Machine

/-- Sets a register. -/
def set (m : Machine) (r : Reg) (w : Word) : Machine :=
  { m with regs := fun x => if x = r then w else m.regs x }

/-- The address of an operand in memory. -/
def address (m : Machine) (operand : Mem) : Nat :=
  (m.regs operand.base + operand.disp.toBitVec.signExtend 64).toNat

/-- Whether a number of bytes may be read and written. -/
def accessible (m : Machine) (address count : Nat) : Bool :=
  m.ranges.any fun (first, stop) => first ≤ address && address + count ≤ stop

/-- Reads a word. -/
def load? (m : Machine) (address : Nat) : Option Word :=
  if m.accessible address 8 then some (m.memory.readWord address) else none

/-- Writes a word. -/
def store? (m : Machine) (address : Nat) (w : Word) : Option Machine :=
  if m.accessible address 8 then
    some { m with memory := m.memory.writeWord address w }
  else none

/-- Writes a byte. -/
def storeByte? (m : Machine) (address : Nat) (b : UInt8) : Option Machine :=
  if m.accessible address 1 then
    some { m with memory := m.memory.writeBytes address [b] }
  else none

/-- Puts a word on the stack. -/
def push? (m : Machine) (w : Word) : Option Machine := do
  let m' ← m.store? (m.regs .rsp - 8).toNat w
  return m'.set .rsp (m.regs .rsp - 8)

/-- Takes a word off the stack. -/
def pop? (m : Machine) : Option (Word × Machine) := do
  let w ← m.load? (m.regs .rsp).toNat
  return (w, m.set .rsp (m.regs .rsp + 8))

end Machine

/-! ## Operations -/

/-- The flags of a sum. -/
def addFlags (a b : Word) : Flags := ⟨a + b == 0, (a + b).msb, a.saddOverflow b⟩

/-- The flags of a difference. -/
def subFlags (a b : Word) : Flags := ⟨a - b == 0, (a - b).msb, a.ssubOverflow b⟩

/-- The flags of a result that was made bit by bit. -/
def bitFlags (w : Word) : Flags := ⟨w == 0, w.msb, false⟩

/-- The result and the flags of two-operand arithmetic. -/
def arith : ArithOp → Word → Word → Word × Flags
  | .add, a, b => (a + b, addFlags a b)
  | .sub, a, b => (a - b, subFlags a b)
  | .cmp, a, b => (a, subFlags a b)
  | .and, a, b => (a &&& b, bitFlags (a &&& b))
  | .or, a, b => (a ||| b, bitFlags (a ||| b))
  | .xor, a, b => (a ^^^ b, bitFlags (a ^^^ b))

/-- Whether a condition holds. -/
def holds (flags : Flags) : Cond → Bool
  | .equal => flags.zero
  | .notEqual => !flags.zero
  | .less => flags.sign != flags.overflow
  | .greaterEq => flags.sign == flags.overflow
  | .lessEq => flags.zero || flags.sign != flags.overflow
  | .greater => !flags.zero && flags.sign == flags.overflow

/-- Quotient and remainder of a signed division of two words by one, unless the quotient
does not fit into a word. -/
def signedDivide? (high low divisor : Word) : Option (Word × Word) :=
  let dividend := (high ++ low).toInt
  let quotient := dividend.tdiv divisor.toInt
  if divisor = 0 ∨ quotient < -2 ^ 63 ∨ 2 ^ 63 ≤ quotient then none
  else some (BitVec.ofInt 64 quotient, BitVec.ofInt 64 (dividend.tmod divisor.toInt))

/-- Quotient and remainder of an unsigned division of two words by one, unless the quotient
does not fit into a word. -/
def unsignedDivide? (high low divisor : Word) : Option (Word × Word) :=
  let dividend := (high ++ low).toNat
  if divisor = 0 ∨ 2 ^ 64 ≤ dividend / divisor.toNat then none
  else some (BitVec.ofNat 64 (dividend / divisor.toNat), BitVec.ofNat 64 (dividend % divisor.toNat))

/-- A 32-bit operand in an operation on words. -/
def immediate (imm : Int32) : Word := imm.toBitVec.signExtend 64

/-- Replaces the least significant byte. -/
def setLowByte (w : Word) (b : Bool) : Word :=
  (w &&& ~~~ 0xFF#64) ||| (if b then 1 else 0)

namespace Machine

/-- Stores the result of arithmetic in a register, with the flags that belong to it. -/
def setResult (m : Machine) (r : Reg) (result : Word × Flags) : Machine :=
  { m.set r result.1 with flags := some result.2 }

/-- Stores the result of a division. Its flags are undefined. -/
def setQuotient (m : Machine) (result : Word × Word) : Machine :=
  { (m.set .rax result.1).set .rdx result.2 with flags := none }

/-- Maps memory: the system is asked for private memory that can be read and written, and
chooses its address. -/
def mapMemory? (sys : System) (m : Machine) : Option Machine :=
  let size := (m.regs .rsi).toNat
  let start := sys.place m.mappings
  if m.regs .rdi = 0 ∧ 0 < size ∧ m.regs .rdx = 3 ∧ m.regs .r10 = 0x22 ∧ m.regs .r8 = -1 ∧
      m.regs .r9 = 0 then
    some { m.set .rax (BitVec.ofNat 64 start) with
      memory := m.memory.writeBytes start (List.replicate size 0)
      ranges := (start, start + size) :: m.ranges
      mappings := m.mappings + 1 }
  else none

/-- Writes bytes to the standard output. -/
def write? (m : Machine) : Option Machine :=
  let size := (m.regs .rdx).toNat
  let start := (m.regs .rsi).toNat
  if m.regs .rdi = 1 ∧ m.accessible start size then
    some { m.set .rax (m.regs .rdx) with output := m.output ++ m.memory.bytesAt start size }
  else none

/-- A system call that comes back. -/
def systemCall? (sys : System) (m : Machine) : Option Machine := do
  let done ← if m.regs .rax = 9 then m.mapMemory? sys
    else if m.regs .rax = 1 then m.write? else none
  let (rcx, r11) := sys.scratch m.calls
  return { (done.set .rcx rcx).set .r11 r11 with flags := none, calls := m.calls + 1 }

end Machine

/-- Does an operation. -/
def exec? (sys : System) (m : Machine) : Op → Option Machine
  | .pushReg r => m.push? (m.regs r)
  | .pushImm imm => m.push? (immediate imm)
  | .pushMem source => do m.push? (← m.load? (m.address source))
  | .popReg r => do
    let (w, m) ← m.pop?
    return m.set r w
  | .movReg dst src => some (m.set dst (m.regs src))
  | .load dst src => do return m.set dst (← m.load? (m.address src))
  | .store dst src => m.store? (m.address dst) (m.regs src)
  | .movImm dst imm => some (m.set dst imm.toBitVec)
  | .storeByteImm dst imm => m.storeByte? (m.address dst) imm
  | .storeByte dst src => m.storeByte? (m.address dst) (UInt8.ofNat (m.regs src).toNat)
  | .lea dst src => some (m.set dst (BitVec.ofNat 64 (m.address src)))
  | .alu op dst src => some (m.setResult dst (arith op (m.regs dst) (m.regs src)))
  | .aluImm op dst imm => some (m.setResult dst (arith op (m.regs dst) (immediate imm)))
  | .imul dst src => some { m.set dst (m.regs dst * m.regs src) with flags := none }
  | .idiv divisor => (signedDivide? (m.regs .rdx) (m.regs .rax) (m.regs divisor)).map m.setQuotient
  | .div divisor => (unsignedDivide? (m.regs .rdx) (m.regs .rax) (m.regs divisor)).map m.setQuotient
  | .neg r => some (m.setResult r (arith .sub 0 (m.regs r)))
  | .shlImm dst imm => some { m.set dst (m.regs dst <<< (imm.toNat % 64)) with flags := none }
  | .cqo => some (m.set .rdx (if (m.regs .rax).msb then -1 else 0))
  | .setcc cond dst => m.flags.map fun flags =>
    m.set dst (setLowByte (m.regs dst) (holds flags cond))
  | .movzxByte dst src => some (m.set dst (m.regs src &&& 0xFF))
  | .syscall => m.systemCall? sys

/-! ## Steps -/

/-- A process after a step: it goes on, or it has ended with a status. -/
inductive Progress
  | running (m : Machine)
  | exited (status : Word) (output : List UInt8)

/-- The instruction at an address and the address behind it. Branches lead to addresses. -/
def fetch? (image : LoadedImage) (address : Nat) : Option (Instr Nat × Nat) := do
  let bytes := image.bytesFrom address
  let (instr, rest) ← Decoding.decodeInstr bytes
  let line : Line := ⟨address, instr, address + (bytes.length - rest.length)⟩
  return (instr.map fun d => (line.targetAddress d).toNat, line.stop)

/-- One step of a process. -/
def step? (sys : System) (image : LoadedImage) (m : Machine) : Option Progress := do
  let (instr, next) ← fetch? image m.rip
  match instr with
  | .op .syscall =>
    if m.regs .rax = 60 then return .exited (m.regs .rdi) m.output
    else return .running { (← m.systemCall? sys) with rip := next }
  | .op o => return .running { (← exec? sys m o) with rip := next }
  | .jump target => return .running { m with rip := target }
  | .jumpIf cond target =>
    let flags ← m.flags
    return .running { m with rip := if holds flags cond then target else next }
  | .call target => return .running { (← m.push? (BitVec.ofNat 64 next)) with rip := target }
  | .ret => do
    let (address, m) ← m.pop?
    return .running { m with rip := address.toNat }

/-- The first steps of a process, at most as many as given. -/
def run? (sys : System) (image : LoadedImage) : Nat → Machine → Option Progress
  | 0, m => some (.running m)
  | n + 1, m => do
    match (← step? sys image m) with
    | .running m' => run? sys image n m'
    | .exited status output => return .exited status output

/-- A process that is about to execute a file: it may use a number of words below the address at
which its stack begins, and no other memory. Nothing is known of what its registers and its memory
hold. -/
structure IsStart (image : LoadedImage) (top room : Nat) (m : Machine) : Prop where
  rip : m.rip = image.entry
  rsp : m.regs .rsp = BitVec.ofNat 64 top
  below : 8 * room ≤ top
  top_lt : top < 2 ^ 64
  ranges : m.ranges = [(top - 8 * room, top)]
  output : m.output = []
  mappings : m.mappings = 0

end Execution

end MiniJava
