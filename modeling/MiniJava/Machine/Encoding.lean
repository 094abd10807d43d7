import MiniJava.Machine.Instr

/-!
# Encoding of instructions

The bytes of an instruction: an optional extension byte that widens operands and
completes register numbers, the opcode, the operand byte with its optional index
and displacement, and immediate data in little-endian order. The length of an
instruction does not depend on the distance that a branch goes.
-/

namespace MiniJava

/-- The lowest bytes of a number, the least significant first. -/
def littleEndian : (count value : Nat) → List UInt8
  | 0, _ => []
  | n + 1, value => UInt8.ofNat value :: littleEndian n (value / 256)

@[simp]
theorem length_littleEndian (count value : Nat) : (littleEndian count value).length = count := by
  induction count generalizing value with
  | zero => rfl
  | succ n ih => simp [littleEndian, ih]

/-- The four bytes of a 32-bit number. -/
def bytes32 (v : Int32) : List UInt8 := littleEndian 4 v.toUInt32.toNat

/-- The eight bytes of a 64-bit number. -/
def bytes64 (v : Int64) : List UInt8 := littleEndian 8 v.toUInt64.toNat

@[simp]
theorem length_bytes32 (v : Int32) : (bytes32 v).length = 4 := length_littleEndian 4 _

@[simp]
theorem length_bytes64 (v : Int64) : (bytes64 v).length = 8 := length_littleEndian 8 _

namespace Reg

/-- The number of a register. -/
def number : Reg → UInt8
  | rax => 0
  | rcx => 1
  | rdx => 2
  | rbx => 3
  | rsp => 4
  | rbp => 5
  | rsi => 6
  | rdi => 7
  | r8 => 8
  | r9 => 9
  | r10 => 10
  | r11 => 11
  | r12 => 12
  | r13 => 13
  | r14 => 14
  | r15 => 15

/-- The three low bits of the number, which stand in an operand byte. -/
def low (r : Reg) : UInt8 := r.number &&& 7

/-- The high bit of the number, which stands in the extension byte. -/
def high (r : Reg) : UInt8 := r.number >>> 3

end Reg

/-- The number of a condition. -/
def Cond.number : Cond → UInt8
  | equal => 0x4
  | notEqual => 0x5
  | less => 0xC
  | greaterEq => 0xD
  | lessEq => 0xE
  | greater => 0xF

namespace ArithOp

/-- The opcode of the form with two registers. -/
def opcode : ArithOp → UInt8
  | add => 0x01
  | or => 0x09
  | and => 0x21
  | sub => 0x29
  | xor => 0x31
  | cmp => 0x39

/-- The digit in the operand byte of the form with an immediate. -/
def digit : ArithOp → UInt8
  | add => 0
  | or => 1
  | and => 4
  | sub => 5
  | xor => 6
  | cmp => 7

end ArithOp

namespace Encoding

/-- The extension byte: whether operands have 64 bits, and the high bits of the
two registers. -/
def rex (wide : Bool) (reg rm : Reg) : UInt8 :=
  let width : UInt8 := if wide then 0x48 else 0x40
  width ||| (reg.high <<< 2) ||| rm.high

/-- The extension byte of an instruction that needs it for its register only. -/
def rexIfExtended (r : Reg) : List UInt8 :=
  if r.high = 1 then [0x41] else []

/-- Whether the low byte of a register is only reached with an extension byte. -/
def byteNeedsRex (r : Reg) : Bool := 4 ≤ r.number

/-- The operand byte: a mode, then a register or digit, then the low bits of the
register that is the operand or its base. -/
def operandByte (mode digit rm : UInt8) : UInt8 :=
  (mode <<< 6) ||| (digit <<< 3) ||| rm

/-- The operand byte for a register. -/
def modReg (digit : UInt8) (rm : Reg) : UInt8 :=
  operandByte 3 digit rm.low

/-- Whether a displacement fits into one byte. -/
def fitsByte (v : Int32) : Bool := -128 ≤ v && v ≤ 127

/-- The index byte that a base with these low bits asks for. -/
def indexByte (base : UInt8) : List UInt8 :=
  if base = 4 then [0x24] else []

/-- The operand byte for memory, with what follows it. A base with the low bits
of `rbp` always has a displacement. -/
def modMem (digit : UInt8) (m : Mem) : List UInt8 :=
  let base := m.base.low
  if m.disp = 0 && base ≠ 5 then
    operandByte 0 digit base :: indexByte base
  else if fitsByte m.disp then
    operandByte 1 digit base :: indexByte base ++ [m.disp.toInt8.toUInt8]
  else
    operandByte 2 digit base :: indexByte base ++ bytes32 m.disp

/-- Whether a 64-bit number is the sign extension of its low half. -/
def fitsWord (v : Int64) : Bool := v.toInt32.toInt64 = v

/-- The bytes of an operation. -/
def op : Op → List UInt8
  | .pushReg r => rexIfExtended r ++ [0x50 + r.low]
  | .pushImm imm => 0x68 :: bytes32 imm
  | .pushMem m => rexIfExtended m.base ++ 0xFF :: modMem 6 m
  | .popReg r => rexIfExtended r ++ [0x58 + r.low]
  | .movReg dst src => [rex true src dst, 0x89, modReg src.low dst]
  | .load dst src => rex true dst src.base :: 0x8B :: modMem dst.low src
  | .store dst src => rex true src dst.base :: 0x89 :: modMem src.low dst
  | .movImm dst imm =>
    if fitsWord imm then [rex true .rax dst, 0xC7, modReg 0 dst] ++ bytes32 imm.toInt32
    else [rex true .rax dst, 0xB8 + dst.low] ++ bytes64 imm
  | .storeByteImm dst imm => rexIfExtended dst.base ++ 0xC6 :: modMem 0 dst ++ [imm]
  | .storeByte dst src =>
    (if byteNeedsRex src || dst.base.high = 1 then [rex false src dst.base] else []) ++
      0x88 :: modMem src.low dst
  | .lea dst src => rex true dst src.base :: 0x8D :: modMem dst.low src
  | .alu op dst src => [rex true src dst, op.opcode, modReg src.low dst]
  | .aluImm op dst imm => [rex true .rax dst, 0x81, modReg op.digit dst] ++ bytes32 imm
  | .imul dst src => [rex true dst src, 0x0F, 0xAF, modReg dst.low src]
  | .idiv divisor => [rex true .rax divisor, 0xF7, modReg 7 divisor]
  | .div divisor => [rex true .rax divisor, 0xF7, modReg 6 divisor]
  | .neg r => [rex true .rax r, 0xF7, modReg 3 r]
  | .shlImm dst imm => [rex true .rax dst, 0xC1, modReg 4 dst, imm]
  | .cqo => [0x48, 0x99]
  | .setcc cond dst =>
    (if byteNeedsRex dst then [rex false .rax dst] else []) ++
      [0x0F, 0x90 + cond.number, modReg 0 dst]
  | .movzxByte dst src => [rex true dst src, 0x0F, 0xB6, modReg dst.low src]
  | .syscall => [0x0F, 0x05]

/-- The bytes of an instruction. The target of a branch is the distance from the
end of the instruction. -/
def instr : Instr Int32 → List UInt8
  | .op o => op o
  | .jump distance => 0xE9 :: bytes32 distance
  | .jumpIf cond distance => 0x0F :: (0x80 + cond.number) :: bytes32 distance
  | .call distance => 0xE8 :: bytes32 distance
  | .ret => [0xC3]

end Encoding

/-- The number of bytes of an instruction. -/
def Instr.size {α : Type} (i : Instr α) : Nat :=
  (Encoding.instr (i.map fun _ => 0)).length

@[simp]
theorem Instr.size_map {α β : Type} (f : α → β) (i : Instr α) : (i.map f).size = i.size := by
  cases i <;> rfl

/-- The length of an instruction does not depend on the distance that it goes. -/
@[simp]
theorem Encoding.length_instr (i : Instr Int32) : (Encoding.instr i).length = i.size := by
  cases i <;> simp [Instr.size, Instr.map, Encoding.instr]

end MiniJava
