import MiniJava.Machine.Instr

/-!
# Fixed routines

What every program needs of the system: memory, the end of the process, and the
printing of a number. Nothing but system calls is used.
-/

namespace MiniJava.Routine

variable {α : Type}

/-- Maps fresh memory, all zero. The number of bytes is in `rsi`, and the address
comes back in `rax`. -/
def allocate : List (Instr α) :=
  Instr.ops
    [.movImm .rax 9, .alu .xor .rdi .rdi, .movImm .rdx 3, .movImm .r10 0x22, .movImm .r8 (-1),
     .alu .xor .r9 .r9, .syscall]

/-- Ends the process without a fault. -/
def exit : List (Instr α) :=
  Instr.ops [.movImm .rax 60, .alu .xor .rdi .rdi, .syscall]

/-- Opens the frame of a routine. -/
def enter : List (Instr α) :=
  Instr.ops [.pushReg .rbp, .movReg .rbp .rsp]

/-- Closes the frame of a routine and returns. -/
def leave : List (Instr α) :=
  Instr.ops [.movReg .rsp .rbp, .popReg .rbp] ++ [.ret]

/-- Prints the number on top of the caller's stack in decimal, and a line break.
The digits are put down from the last to the first, below the frame's base, and
`r8` tells whether a sign goes in front. The first instruction has index `start`. -/
def printLine (start : Nat) : List (Instr Nat) :=
  enter ++
  Instr.ops
    [.aluImm .sub .rsp 32, .load .rax ⟨.rbp, 16⟩, .lea .rsi ⟨.rbp, -1⟩,
     .storeByteImm ⟨.rsi, 0⟩ 10, .alu .xor .r8 .r8, .aluImm .cmp .rax 0] ++
  [.jumpIf .greaterEq (start + 11)] ++
  Instr.ops
    [.neg .rax, .movImm .r8 1, .movImm .rcx 10,
     .alu .xor .rdx .rdx, .div .rcx, .aluImm .add .rdx 48, .aluImm .sub .rsi 1,
     .storeByte ⟨.rsi, 0⟩ .rdx, .aluImm .cmp .rax 0] ++
  [.jumpIf .notEqual (start + 12)] ++
  Instr.ops [.aluImm .cmp .r8 0] ++
  [.jumpIf .equal (start + 23)] ++
  Instr.ops
    [.aluImm .sub .rsi 1, .storeByteImm ⟨.rsi, 0⟩ 45,
     .movReg .rdx .rbp, .alu .sub .rdx .rsi, .movImm .rax 1, .movImm .rdi 1, .syscall] ++
  leave

end MiniJava.Routine
