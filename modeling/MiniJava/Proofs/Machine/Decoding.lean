import Mathlib
import MiniJava.Machine.Encoding

/-!
# Decoding of instructions

A reader for machine code, by the rules of the processor and not by those of the encoder: an
optional extension byte, the opcode, the operand byte with its index byte and displacement,
immediate data. It knows only the instructions that the `Instr` records stand for, but it reads each
of them in every form: a displacement of zero that is written out, or the direction of a move
between registers that the encoder never chooses.

Every instruction is read back (`decodeInstr_instr`), so no code of an instruction is the beginning
of another one, and no operand is lost. The pieces (`takeRex_rex`, `takeOperand_modReg`,
`takeOperand_modMem`, `take32_bytes32`) are each proved in front of an arbitrary rest, so that they
follow one another as the bytes do.
-/

namespace MiniJava.Decoding

open List

/-! ## Numbers -/

/-- The number whose bytes these are, the least significant first. -/
def ofLittleEndian : List UInt8 → Nat
  | [] => 0
  | b :: bs => b.toNat + 256 * ofLittleEndian bs

theorem ofLittleEndian_littleEndian (count value : Nat) :
    ofLittleEndian (littleEndian count value) = value % 256 ^ count := by
  induction count generalizing value with
  | zero => simp [littleEndian, ofLittleEndian, Nat.mod_one]
  | succ n ih =>
    simp only [littleEndian, ofLittleEndian, ih, UInt8.toNat_ofNat']
    rw [show 256 ^ (n + 1) = 256 * 256 ^ n from Nat.pow_succ', Nat.mod_mul]

/-- Takes a number of bytes off the front. -/
def takeBytes (count : Nat) (bytes : List UInt8) : Option (List UInt8 × List UInt8) :=
  if count ≤ bytes.length then some (bytes.take count, bytes.drop count) else none

theorem takeBytes_append {front : List UInt8} {count : Nat} (h : front.length = count)
    (rest : List UInt8) : takeBytes count (front ++ rest) = some (front, rest) := by
  subst h
  simp [takeBytes]

/-- Takes a 32-bit number. -/
def take32 (bytes : List UInt8) : Option (Int32 × List UInt8) := do
  let (front, rest) ← takeBytes 4 bytes
  return ((UInt32.ofNat (ofLittleEndian front)).toInt32, rest)

@[simp]
theorem take32_bytes32 (v : Int32) (rest : List UInt8) :
    take32 (bytes32 v ++ rest) = some (v, rest) := by
  have hv : v.toUInt32.toNat % 256 ^ 4 = v.toUInt32.toNat := Nat.mod_eq_of_lt v.toUInt32.toNat_lt
  have hnum : UInt32.ofNat (ofLittleEndian (bytes32 v)) = v.toUInt32 := by
    rw [bytes32, ofLittleEndian_littleEndian, hv, UInt32.ofNat_toNat]
  simp only [take32, takeBytes_append (length_bytes32 v), Option.bind_eq_bind, Option.bind_some,
    hnum]
  rfl

/-- Takes a 64-bit number. -/
def take64 (bytes : List UInt8) : Option (Int64 × List UInt8) := do
  let (front, rest) ← takeBytes 8 bytes
  return ((UInt64.ofNat (ofLittleEndian front)).toInt64, rest)

@[simp]
theorem take64_bytes64 (v : Int64) (rest : List UInt8) :
    take64 (bytes64 v ++ rest) = some (v, rest) := by
  have hv : v.toUInt64.toNat % 256 ^ 8 = v.toUInt64.toNat := Nat.mod_eq_of_lt v.toUInt64.toNat_lt
  have hnum : UInt64.ofNat (ofLittleEndian (bytes64 v)) = v.toUInt64 := by
    rw [bytes64, ofLittleEndian_littleEndian, hv, UInt64.ofNat_toNat]
  simp only [take64, takeBytes_append (length_bytes64 v), Option.bind_eq_bind, Option.bind_some,
    hnum]
  rfl

/-- Takes one byte. -/
def take8 : List UInt8 → Option (UInt8 × List UInt8)
  | [] => none
  | b :: rest => some (b, rest)

/-! ## Registers and conditions -/

/-- The register with these low bits, in the upper half of the registers or not. -/
def regOf (extended : Bool) (low : UInt8) : Reg :=
  match extended, low.toNat with
  | false, 0 => .rax
  | false, 1 => .rcx
  | false, 2 => .rdx
  | false, 3 => .rbx
  | false, 4 => .rsp
  | false, 5 => .rbp
  | false, 6 => .rsi
  | false, _ => .rdi
  | true, 0 => .r8
  | true, 1 => .r9
  | true, 2 => .r10
  | true, 3 => .r11
  | true, 4 => .r12
  | true, 5 => .r13
  | true, 6 => .r14
  | true, _ => .r15

/-- Whether a register is in the upper half. -/
def isExtended (r : Reg) : Bool := r.high = 1

@[simp]
theorem regOf_low (r : Reg) : regOf (isExtended r) r.low = r := by
  cases r <;> rfl

theorem low_lt (r : Reg) : r.low < 8 := by
  cases r <;> decide

/-- The condition with this number. -/
def condOf? (number : UInt8) : Option Cond :=
  match number.toNat with
  | 0x4 => some .equal
  | 0x5 => some .notEqual
  | 0xC => some .less
  | 0xD => some .greaterEq
  | 0xE => some .lessEq
  | 0xF => some .greater
  | _ => none

@[simp]
theorem condOf?_number (c : Cond) : condOf? c.number = some c := by
  cases c <;> rfl

/-- The arithmetic with this opcode between two registers. -/
def arithOfOpcode? (opcode : UInt8) : Option ArithOp :=
  match opcode.toNat with
  | 0x01 => some .add
  | 0x09 => some .or
  | 0x21 => some .and
  | 0x29 => some .sub
  | 0x31 => some .xor
  | 0x39 => some .cmp
  | _ => none

/-- The arithmetic with this digit in the form with an immediate. -/
def arithOfDigit? (digit : UInt8) : Option ArithOp :=
  match digit.toNat with
  | 0 => some .add
  | 1 => some .or
  | 4 => some .and
  | 5 => some .sub
  | 6 => some .xor
  | 7 => some .cmp
  | _ => none

@[simp]
theorem arithOfDigit?_digit (op : ArithOp) : arithOfDigit? op.digit = some op := by
  cases op <;> rfl

/-! ## The extension byte -/

/-- What an extension byte says, if there is one. -/
structure Rex where
  isPresent : Bool
  /-- Operands have 64 bits. -/
  wide : Bool
  /-- The register of the operand byte is in the upper half. -/
  reg : Bool
  /-- The index register is in the upper half. -/
  index : Bool
  /-- The operand or its base is in the upper half. -/
  base : Bool
  deriving DecidableEq, Repr

/-- No extension byte. -/
def Rex.absent : Rex := ⟨false, false, false, false, false⟩

/-- Takes the extension byte, if there is one. -/
def takeRex : List UInt8 → Rex × List UInt8
  | [] => (.absent, [])
  | b :: rest =>
    if b &&& 0xF0 = 0x40 then
      (⟨true, b &&& 8 ≠ 0, b &&& 4 ≠ 0, b &&& 2 ≠ 0, b &&& 1 ≠ 0⟩, rest)
    else (.absent, b :: rest)

/-- A register is in the lower half or in the upper half. -/
theorem high_cases (r : Reg) :
    r.high = 0 ∧ isExtended r = false ∨ r.high = 1 ∧ isExtended r = true := by
  cases r <;> decide

theorem takeRex_rex (wide : Bool) (reg rm : Reg) (rest : List UInt8) :
    takeRex (Encoding.rex wide reg rm :: rest) =
      (⟨true, wide, isExtended reg, false, isExtended rm⟩, rest) := by
  -- Only the high bits of the two numbers stand in the byte.
  unfold Encoding.rex
  rcases high_cases reg with ⟨hr, hr'⟩ | ⟨hr, hr'⟩ <;>
    rcases high_cases rm with ⟨hb, hb'⟩ | ⟨hb, hb'⟩ <;>
    rw [hr, hb, hr', hb'] <;> cases wide <;> rfl

/-! ## The operand byte -/

/-- An operand: a register, or memory. -/
inductive Operand
  | reg (r : Reg)
  | mem (m : Mem)
  deriving DecidableEq, Repr

/-- Takes the displacement that a mode asks for. -/
def takeDisp (mode : UInt8) (bytes : List UInt8) : Option (Int32 × List UInt8) :=
  match mode.toNat with
  | 0 => some (0, bytes)
  | 1 => do
    let (b, rest) ← take8 bytes
    return (b.toInt8.toInt32, rest)
  | _ => take32 bytes

/-- Takes the base register of memory. The low bits of `rsp` announce an index byte;
only one that names no index register is known here. -/
def takeBase (rex : Rex) (rm : UInt8) (bytes : List UInt8) : Option (Reg × List UInt8) :=
  if rm = 4 then do
    let (b, rest) ← take8 bytes
    if (b >>> 3) &&& 7 = 4 && !rex.index then return (regOf rex.base (b &&& 7), rest)
    else none
  else some (regOf rex.base rm, bytes)

/-- Takes the operand byte and what belongs to it: a register or digit, and an
operand. Memory without a base register is not known here. -/
def takeOperand (rex : Rex) (bytes : List UInt8) : Option (UInt8 × Operand × List UInt8) := do
  let (b, rest) ← take8 bytes
  let mode := b >>> 6
  let digit := (b >>> 3) &&& 7
  let rm := b &&& 7
  if mode = 3 then return (digit, .reg (regOf rex.base rm), rest)
  else
    let (base, rest) ← takeBase rex rm rest
    if mode = 0 && base.low = 5 then none
    else
      let (disp, rest) ← takeDisp mode rest
      return (digit, .mem ⟨base, disp⟩, rest)

variable {digit opcode b : UInt8} {bytes rest : List UInt8} {rex : Rex}

/-- The three fields of an operand byte can be read back. -/
theorem operandByte_fields {mode rm : UInt8} (hm : mode < 4) (hd : digit < 8) (hr : rm < 8) :
    Encoding.operandByte mode digit rm >>> 6 = mode ∧
    (Encoding.operandByte mode digit rm >>> 3) &&& 7 = digit ∧
    Encoding.operandByte mode digit rm &&& 7 = rm := by
  have hall : ∀ (m : Fin 4) (d r : Fin 8),
      let b := Encoding.operandByte (UInt8.ofNat m) (UInt8.ofNat d) (UInt8.ofNat r)
      b >>> 6 = UInt8.ofNat m ∧ (b >>> 3) &&& 7 = UInt8.ofNat d ∧ b &&& 7 = UInt8.ofNat r := by
    decide
  have h := hall ⟨mode.toNat, hm⟩ ⟨digit.toNat, hd⟩ ⟨rm.toNat, hr⟩
  simpa using h

theorem takeOperand_modReg (rex : Rex) (hd : digit < 8) {rm : Reg} (hb : rex.base = isExtended rm)
    (rest : List UInt8) :
    takeOperand rex (Encoding.modReg digit rm :: rest) = some (digit, .reg rm, rest) := by
  obtain ⟨h₁, h₂, h₃⟩ := operandByte_fields (show (3 : UInt8) < 4 by decide) hd (low_lt rm)
  simp only [takeOperand, take8, Encoding.modReg, Option.bind_eq_bind, Option.bind_some, h₁, h₂,
    h₃, hb, regOf_low]
  rfl

/-- The index byte, where there is one, names no index register and the same base. -/
theorem takeBase_indexByte {base : Reg} (hx : rex.index = false) (hb : rex.base = isExtended base)
    (rest : List UInt8) :
    takeBase rex base.low (Encoding.indexByte base.low ++ rest) = some (base, rest) := by
  unfold takeBase Encoding.indexByte
  by_cases h : base.low = 4
  · have hreg : regOf (isExtended base) 4 = base := by
      rw [← h]
      exact regOf_low base
    have hindex : ((0x24 : UInt8) >>> 3) &&& 7 = 4 := rfl
    have hlow : (0x24 : UInt8) &&& 7 = 4 := rfl
    simp [h, take8, hx, hb, hindex, hlow, hreg]
  · simp [h, hb]

theorem toInt32_toInt8 {v : Int32} (h : Encoding.fitsByte v = true) :
    v.toInt8.toInt32 = v := by
  simp only [Encoding.fitsByte, Bool.and_eq_true, decide_eq_true_eq, Int32.le_iff_toInt_le] at h
  rw [← Int32.toInt_inj, Int8.toInt_toInt32, Int32.toInt_toInt8]
  exact Int.bmod_eq_of_le (by simpa using h.1) (by have := h.2; simp at this; omega)

/-- A memory operand is taken as it was put. -/
theorem takeOperand_modMem (hd : digit < 8) {m : Mem} (hx : rex.index = false)
    (hb : rex.base = isExtended m.base) (rest : List UInt8) :
    takeOperand rex (Encoding.modMem digit m ++ rest) = some (digit, .mem m, rest) := by
  -- One argument for the three modes: the mode fixes how the displacement is taken.
  have hmode : ∀ (mode : UInt8) (disp : List UInt8), mode < 3 →
      (mode = 0 → m.base.low ≠ 5) → takeDisp mode (disp ++ rest) = some (m.disp, rest) →
      takeOperand rex
        (Encoding.operandByte mode digit m.base.low :: (Encoding.indexByte m.base.low ++ disp)
          ++ rest) = some (digit, .mem m, rest) := by
    intro mode disp hm h5 hdisp
    have hm4 : mode < 4 := Nat.lt_trans hm (by decide)
    have hm3 : mode ≠ 3 := by rintro rfl; exact absurd hm (by decide)
    obtain ⟨h₁, h₂, h₃⟩ := operandByte_fields hm4 hd (low_lt m.base)
    have h50 : (decide (mode = 0) && decide (m.base.low = 5)) = false := by
      by_cases h0 : mode = 0
      · simp [h0, h5 h0]
      · simp [h0]
    simp only [takeOperand, take8, cons_append, append_assoc, Option.bind_eq_bind,
      Option.bind_some, h₁, h₂, h₃, hm3, if_false, takeBase_indexByte hx hb, h50, hdisp]
    rfl
  dsimp only [Encoding.modMem]
  split
  next h =>
    simp only [Bool.and_eq_true, decide_eq_true_eq] at h
    have := hmode 0 [] (by decide) (fun _ => h.2) (by simp [takeDisp, h.1])
    simpa using this
  next =>
    split
    next hfits =>
      exact hmode 1 [m.disp.toInt8.toUInt8] (by decide) (fun h0 => absurd h0 (by decide))
        (by simp [takeDisp, take8, toInt32_toInt8 hfits])
    next =>
      exact hmode 2 (bytes32 m.disp) (by decide) (fun h0 => absurd h0 (by decide))
        (by simp [takeDisp])

/-! ## Instructions -/

/-- The register whose low byte is meant. Without an extension byte the numbers from
four on mean other bytes, which are not known here. -/
def byteReg? (rex : Rex) (extended : Bool) (low : UInt8) : Option Reg :=
  if rex.isPresent || low < 4 then some (regOf extended low) else none

/-- Reads on behind the byte that announces an opcode of two bytes. -/
def decodeLong (rex : Rex) (opcode : UInt8) (bytes : List UInt8) :
    Option (Instr Int32 × List UInt8) :=
  if opcode &&& 0xF0 = 0x80 then do
    let cond ← condOf? (opcode &&& 0xF)
    let (distance, rest) ← take32 bytes
    return (.jumpIf cond distance, rest)
  else if opcode &&& 0xF0 = 0x90 then do
    let cond ← condOf? (opcode &&& 0xF)
    match ← takeOperand rex bytes with
    | (_, .reg dst, rest) => return (.op (.setcc cond (← byteReg? rex rex.base dst.low)), rest)
    | _ => none
  else
    match opcode.toNat with
    | 0x05 => some (.op .syscall, bytes)
    | 0xAF => do
      match rex.wide, ← takeOperand rex bytes with
      | true, (digit, .reg src, rest) => return (.op (.imul (regOf rex.reg digit) src), rest)
      | _, _ => none
    | 0xB6 => do
      match rex.wide, ← takeOperand rex bytes with
      | true, (digit, .reg src, rest) =>
        return (.op (.movzxByte (regOf rex.reg digit) (← byteReg? rex rex.base src.low)), rest)
      | _, _ => none
    | _ => none

/-- The operations on one register that share an opcode, by their digits. -/
def oneOperand? (digit : UInt8) (r : Reg) : Option Op :=
  match digit.toNat with
  | 3 => some (.neg r)
  | 6 => some (.div r)
  | 7 => some (.idiv r)
  | _ => none

/-- Reads on behind an opcode whose operand byte comes next. Operands have 64 bits
unless the opcode is one for bytes. -/
def decodeWithOperand (rex : Rex) (opcode digit : UInt8) (operand : Operand)
    (bytes : List UInt8) : Option (Instr Int32 × List UInt8) :=
  match opcode.toNat, rex.wide, operand with
  | 0xFF, _, .mem m => if digit = 6 then some (.op (.pushMem m), bytes) else none
  | 0xC6, _, .mem m => do
    if digit = 0 then
      let (imm, rest) ← take8 bytes
      return (.op (.storeByteImm m imm), rest)
    else none
  | 0x88, _, .mem m => do return (.op (.storeByte m (← byteReg? rex rex.reg digit)), bytes)
  | 0x89, true, .reg r => some (.op (.movReg r (regOf rex.reg digit)), bytes)
  | 0x89, true, .mem m => some (.op (.store m (regOf rex.reg digit)), bytes)
  | 0x8B, true, .reg r => some (.op (.movReg (regOf rex.reg digit) r), bytes)
  | 0x8B, true, .mem m => some (.op (.load (regOf rex.reg digit) m), bytes)
  | 0x8D, true, .mem m => some (.op (.lea (regOf rex.reg digit) m), bytes)
  | 0xC7, true, .reg r => do
    if digit = 0 then
      let (imm, rest) ← take32 bytes
      return (.op (.movImm r imm.toInt64), rest)
    else none
  | 0x81, true, .reg r => do
    let op ← arithOfDigit? digit
    let (imm, rest) ← take32 bytes
    return (.op (.aluImm op r imm), rest)
  | 0xC1, true, .reg r => do
    if digit = 4 then
      let (imm, rest) ← take8 bytes
      return (.op (.shlImm r imm), rest)
    else none
  | 0xF7, true, .reg r => (oneOperand? digit r).map fun op => (.op op, bytes)
  | _, true, .reg r => (arithOfOpcode? opcode).map fun op =>
    (.op (.alu op r (regOf rex.reg digit)), bytes)
  | _, _, _ => none

/-- Reads on behind an opcode of one byte. -/
def decodeShort (rex : Rex) (opcode : UInt8) (bytes : List UInt8) :
    Option (Instr Int32 × List UInt8) :=
  if opcode &&& 0xF8 = 0x50 then some (.op (.pushReg (regOf rex.base (opcode &&& 7))), bytes)
  else if opcode &&& 0xF8 = 0x58 then some (.op (.popReg (regOf rex.base (opcode &&& 7))), bytes)
  else if opcode &&& 0xF8 = 0xB8 then do
    let (imm, rest) ← take64 bytes
    if rex.wide then return (.op (.movImm (regOf rex.base (opcode &&& 7)) imm), rest) else none
  else
    match opcode.toNat with
    | 0x68 => do
      let (imm, rest) ← take32 bytes
      return (.op (.pushImm imm), rest)
    | 0x99 => if rex.wide then some (.op .cqo, bytes) else none
    | 0xE8 => do
      let (distance, rest) ← take32 bytes
      return (.call distance, rest)
    | 0xE9 => do
      let (distance, rest) ← take32 bytes
      return (.jump distance, rest)
    | 0xC3 => some (.ret, bytes)
    | _ => do
      let (digit, operand, rest) ← takeOperand rex bytes
      decodeWithOperand rex opcode digit operand rest

/-- Reads one instruction. -/
def decodeInstr (bytes : List UInt8) : Option (Instr Int32 × List UInt8) := do
  let (rex, bytes) := takeRex bytes
  let (opcode, bytes) ← take8 bytes
  if opcode = 0x0F then
    let (second, rest) ← take8 bytes
    decodeLong rex second rest
  else decodeShort rex opcode bytes

/-! ## Reading back what was written -/

theorem decodeInstr_of_short (h : takeRex bytes = (rex, opcode :: rest)) (hne : opcode ≠ 0x0F) :
    decodeInstr bytes = decodeShort rex opcode rest := by
  simp [decodeInstr, h, take8, hne]

/-- The opcodes of one byte behind which an operand byte stands. -/
def hasOperand (opcode : UInt8) : Bool :=
  opcode &&& 0xF8 ≠ 0x50 && opcode &&& 0xF8 ≠ 0x58 && opcode &&& 0xF8 ≠ 0xB8 &&
    opcode ∉ [0x68, 0x99, 0xE8, 0xE9, 0xC3]

theorem decodeShort_of_operand {operand : Operand} (ho : hasOperand opcode = true)
    (h : takeOperand rex bytes = some (digit, operand, rest)) :
    decodeShort rex opcode bytes = decodeWithOperand rex opcode digit operand rest := by
  simp only [hasOperand, Bool.and_eq_true, decide_eq_true_eq] at ho
  obtain ⟨⟨⟨h₁, h₂⟩, h₃⟩, h₄⟩ := ho
  -- None of the opcodes that come without an operand.
  have hne : ∀ n : UInt8, n ∈ ([0x68, 0x99, 0xE8, 0xE9, 0xC3] : List UInt8) →
      opcode.toNat ≠ n.toNat :=
    fun n hn he => h₄ (UInt8.toNat_inj.mp he ▸ hn)
  unfold decodeShort
  rw [if_neg h₁, if_neg h₂, if_neg h₃]
  split
  next he => exact absurd he (hne 0x68 (by decide))
  next he => exact absurd he (hne 0x99 (by decide))
  next he => exact absurd he (hne 0xE8 (by decide))
  next he => exact absurd he (hne 0xE9 (by decide))
  next he => exact absurd he (hne 0xC3 (by decide))
  next => simp [h]

theorem decodeInstr_of_long (h : takeRex bytes = (rex, 0x0F :: opcode :: rest)) :
    decodeInstr bytes = decodeLong rex opcode rest := by
  simp [decodeInstr, h, take8]

/-- Without an extension byte, reading begins at the opcode. -/
theorem takeRex_absent (h : b &&& 0xF0 ≠ 0x40) (rest : List UInt8) :
    takeRex (b :: rest) = (.absent, b :: rest) := by
  simp [takeRex, h]

/-- Where the extension byte is left out for lower registers, the operand's register
is complete all the same. -/
theorem takeRex_rexIfExtended (h : b &&& 0xF0 ≠ 0x40) (r : Reg) (rest : List UInt8) :
    ∃ rex, takeRex (Encoding.rexIfExtended r ++ b :: rest) = (rex, b :: rest) ∧
      rex.base = isExtended r ∧ rex.index = false := by
  rcases high_cases r with ⟨hr, hr'⟩ | ⟨hr, hr'⟩
  · exact ⟨.absent, by simp [Encoding.rexIfExtended, hr, takeRex_absent h], hr'.symm, rfl⟩
  · exact ⟨⟨true, false, false, false, true⟩, by
      simp [Encoding.rexIfExtended, hr]; rfl, hr'.symm, rfl⟩

/-- The same for a byte register, which may need an extension byte of its own. -/
theorem takeRex_forByte (h : b &&& 0xF0 ≠ 0x40) (src base : Reg) (rest : List UInt8) :
    ∃ rex, takeRex ((if Encoding.byteNeedsRex src || base.high = 1 then
        [Encoding.rex false src base] else []) ++ b :: rest) = (rex, b :: rest) ∧
      rex.base = isExtended base ∧ rex.index = false ∧
      byteReg? rex rex.reg src.low = some src := by
  split
  next =>
    refine ⟨_, takeRex_rex false src base (b :: rest), rfl, rfl, ?_⟩
    simp [byteReg?]
  next hno =>
    simp only [Bool.or_eq_true, decide_eq_true_eq, not_or] at hno
    refine ⟨.absent, takeRex_absent h rest, ?_, rfl, ?_⟩
    · simp [isExtended, hno.2, Rex.absent]
    · have hlow : Encoding.byteNeedsRex src = false := by simpa using hno.1
      cases src <;> first | rfl | exact absurd hlow (by decide)

/-- The same where the byte register is the operand itself. -/
theorem takeRex_ofByte (h : b &&& 0xF0 ≠ 0x40) (dst : Reg) (rest : List UInt8) :
    ∃ rex, takeRex ((if Encoding.byteNeedsRex dst then [Encoding.rex false .rax dst] else []) ++
        b :: rest) = (rex, b :: rest) ∧
      rex.base = isExtended dst ∧ byteReg? rex rex.base dst.low = some dst := by
  split
  next =>
    refine ⟨_, takeRex_rex false .rax dst (b :: rest), rfl, ?_⟩
    simp [byteReg?]
  next hno =>
    refine ⟨.absent, takeRex_absent h rest, ?_⟩
    cases dst <;> first | exact ⟨rfl, rfl⟩ | exact absurd rfl hno

/-- A small register number is added to an opcode without touching its high bits. -/
theorem opcode_add_low {base : UInt8} (hb : base = 0x50 ∨ base = 0x58 ∨ base = 0xB8) (r : Reg) :
    (base + r.low) &&& 0xF8 = base ∧ (base + r.low) &&& 7 = r.low ∧
    (base + r.low) &&& 0xF0 ≠ 0x40 ∧ base + r.low ≠ 0x0F := by
  rcases hb with rfl | rfl | rfl <;> cases r <;> decide

/-- The number of a condition is added to an opcode without touching its high bits. -/
theorem opcode_add_cond {base : UInt8} (hb : base = 0x80 ∨ base = 0x90) (c : Cond) :
    (base + c.number) &&& 0xF0 = base ∧ (base + c.number) &&& 0xF = c.number := by
  rcases hb with rfl | rfl <;> cases c <;> decide

theorem digit_lt (op : ArithOp) : op.digit < 8 := by
  cases op <;> decide

/-- An operation is read back in front of any bytes. -/
theorem decodeInstr_op (o : Op) (rest : List UInt8) :
    decodeInstr (Encoding.op o ++ rest) = some (.op o, rest) := by
  cases o with
  | pushReg r =>
    obtain ⟨h₁, h₂, h₃, h₄⟩ := opcode_add_low (.inl rfl) r
    obtain ⟨_, hrex, hb, -⟩ := takeRex_rexIfExtended h₃ r rest
    simp only [Encoding.op, append_assoc, singleton_append]
    rw [decodeInstr_of_short hrex h₄]
    simp [decodeShort, h₁, h₂, hb]
  | pushImm =>
    rw [Encoding.op, cons_append, decodeInstr_of_short (takeRex_absent (by decide) _) (by decide)]
    simp +decide [decodeShort]
  | pushMem m =>
    obtain ⟨_, hrex, hb, hx⟩ := takeRex_rexIfExtended (b := 0xFF) (by decide) m.base
      (Encoding.modMem 6 m ++ rest)
    simp only [Encoding.op, append_assoc, cons_append]
    rw [decodeInstr_of_short hrex (by decide), decodeShort_of_operand (by decide)
      (takeOperand_modMem (by decide) hx hb rest)]
    rfl
  | popReg r =>
    obtain ⟨h₁, h₂, h₃, h₄⟩ := opcode_add_low (.inr (.inl rfl)) r
    obtain ⟨_, hrex, hb, -⟩ := takeRex_rexIfExtended h₃ r rest
    simp only [Encoding.op, append_assoc, singleton_append]
    rw [decodeInstr_of_short hrex h₄]
    simp [decodeShort, h₁, h₂, hb]
  | movReg dst src =>
    simp only [Encoding.op, cons_append, nil_append]
    rw [decodeInstr_of_short (takeRex_rex true src dst _) (by decide),
      decodeShort_of_operand (by decide) (takeOperand_modReg _ (low_lt src) rfl rest)]
    simp [decodeWithOperand]
  | load dst src | lea dst src =>
    simp only [Encoding.op, cons_append]
    rw [decodeInstr_of_short (takeRex_rex true dst src.base _) (by decide),
      decodeShort_of_operand (by decide) (takeOperand_modMem (low_lt dst) rfl rfl rest)]
    simp [decodeWithOperand]
  | store dst src =>
    simp only [Encoding.op, cons_append]
    rw [decodeInstr_of_short (takeRex_rex true src dst.base _) (by decide),
      decodeShort_of_operand (by decide) (takeOperand_modMem (low_lt src) rfl rfl rest)]
    simp [decodeWithOperand]
  | movImm dst imm =>
    rw [Encoding.op]
    split
    next hfits =>
      -- A short immediate is extended to the word it came from.
      have hword : imm.toInt32.toInt64 = imm := by simpa [Encoding.fitsWord] using hfits
      simp only [cons_append, nil_append]
      rw [decodeInstr_of_short (takeRex_rex true .rax dst _) (by decide),
        decodeShort_of_operand (by decide) (takeOperand_modReg _ (by decide) rfl _)]
      simp [decodeWithOperand, hword]
    next =>
      obtain ⟨h₁, h₂, _, h₄⟩ := opcode_add_low (.inr (.inr rfl)) dst
      simp only [cons_append, nil_append]
      rw [decodeInstr_of_short (takeRex_rex true .rax dst _) h₄]
      simp +decide [decodeShort, h₁, h₂]
  | storeByteImm dst imm =>
    obtain ⟨_, hrex, hb, hx⟩ := takeRex_rexIfExtended (b := 0xC6) (by decide) dst.base
      (Encoding.modMem 0 dst ++ imm :: rest)
    simp only [Encoding.op, append_assoc, cons_append, nil_append]
    rw [decodeInstr_of_short hrex (by decide), decodeShort_of_operand (by decide)
      (takeOperand_modMem (by decide) hx hb _)]
    rfl
  | storeByte dst src =>
    obtain ⟨_, hrex, hb, hx, hsrc⟩ := takeRex_forByte (b := 0x88) (by decide) src dst.base
      (Encoding.modMem src.low dst ++ rest)
    simp only [Encoding.op, append_assoc, cons_append]
    rw [decodeInstr_of_short hrex (by decide), decodeShort_of_operand (by decide)
      (takeOperand_modMem (low_lt src) hx hb _)]
    simp [decodeWithOperand, hsrc]
  | alu op dst src =>
    simp only [Encoding.op, cons_append, nil_append]
    rw [decodeInstr_of_short (takeRex_rex true src dst _) (by cases op <;> decide),
      decodeShort_of_operand (by cases op <;> decide)
        (takeOperand_modReg _ (low_lt src) rfl rest)]
    cases op <;> simp [decodeWithOperand, ArithOp.opcode, arithOfOpcode?]
  | aluImm op dst =>
    simp only [Encoding.op, cons_append, nil_append]
    rw [decodeInstr_of_short (takeRex_rex true .rax dst _) (by decide),
      decodeShort_of_operand (by decide) (takeOperand_modReg _ (digit_lt op) rfl _)]
    simp [decodeWithOperand]
  | imul dst src =>
    simp only [Encoding.op, cons_append, nil_append]
    rw [decodeInstr_of_long (takeRex_rex true dst src _)]
    simp +decide [decodeLong, takeOperand_modReg _ (low_lt dst)]
  | idiv dst | div dst | neg dst | shlImm dst imm =>
    simp only [Encoding.op, cons_append, nil_append]
    rw [decodeInstr_of_short (takeRex_rex true .rax dst _) (by decide),
      decodeShort_of_operand (by decide) (takeOperand_modReg _ (by decide) rfl _)]
    rfl
  | cqo => rfl
  | setcc cond dst =>
    obtain ⟨h₁, h₂⟩ := opcode_add_cond (.inr rfl) cond
    obtain ⟨rex, hrex, hb, hdst⟩ := takeRex_ofByte (b := 0x0F) (by decide) dst
      ((0x90 + cond.number) :: Encoding.modReg 0 dst :: rest)
    simp only [Encoding.op, append_assoc, cons_append, nil_append]
    rw [decodeInstr_of_long hrex]
    simp +decide [decodeLong, h₁, h₂, takeOperand_modReg rex _ hb, hdst]
  | movzxByte dst src =>
    simp only [Encoding.op, cons_append, nil_append]
    rw [decodeInstr_of_long (takeRex_rex true dst src _)]
    simp +decide [decodeLong, takeOperand_modReg _ (low_lt dst), byteReg?]
  | syscall => rfl

/-- An instruction is read back in front of any bytes. -/
theorem decodeInstr_instr (i : Instr Int32) (rest : List UInt8) :
    decodeInstr (Encoding.instr i ++ rest) = some (i, rest) := by
  cases i with
  | op o => exact decodeInstr_op o rest
  | jump distance | call distance =>
    rw [Encoding.instr, cons_append, decodeInstr_of_short (takeRex_absent (by decide) _)
      (by decide)]
    simp +decide [decodeShort]
  | jumpIf cond =>
    obtain ⟨h₁, h₂⟩ := opcode_add_cond (.inl rfl) cond
    rw [Encoding.instr, cons_append, cons_append,
      decodeInstr_of_long (takeRex_absent (by decide) _)]
    simp [decodeLong, h₁, h₂]
  | ret => rfl

/-- Every instruction takes up some bytes. -/
theorem size_pos {α : Type} (i : Instr α) : 0 < i.size := by
  rw [Instr.size, length_pos_iff]
  intro hnil
  have hread := decodeInstr_instr (i.map fun _ => 0) []
  have hnone : decodeInstr ([] ++ []) = none := rfl
  rw [hnil, hnone] at hread
  cases hread

end MiniJava.Decoding
