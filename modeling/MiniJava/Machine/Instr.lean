/-!
# Instructions

The part of x86-64 that generated code uses. Operations on registers, memory and
the outside world are kept apart from the instructions that change the flow of
control. Branches and calls carry a target of any type: a label while code is
being put together, the index of an instruction once it is linked, and a distance
in bytes when it is encoded.
-/

namespace MiniJava

/-- The general registers. -/
inductive Reg
  | rax | rcx | rdx | rbx | rsp | rbp | rsi | rdi | r8 | r9 | r10 | r11 | r12 | r13 | r14 | r15
  deriving DecidableEq, Repr

/-- The memory at a displacement from the address in a register. -/
structure Mem where
  base : Reg
  disp : Int32
  deriving DecidableEq, Repr

/-- Conditions on the result of a comparison of signed numbers. -/
inductive Cond
  | equal | notEqual | less | greaterEq | lessEq | greater
  deriving DecidableEq, Repr

/-- Two-operand arithmetic. A comparison changes the flags only. -/
inductive ArithOp
  | add | or | and | sub | xor | cmp
  deriving DecidableEq, Repr

/-- Operations after which the next instruction follows. The destination stands
first. -/
inductive Op
  | pushReg (r : Reg)
  | pushImm (imm : Int32)
  | pushMem (m : Mem)
  | popReg (r : Reg)
  | movReg (dst src : Reg)
  | load (dst : Reg) (src : Mem)
  | store (dst : Mem) (src : Reg)
  | movImm (dst : Reg) (imm : Int64)
  | storeByteImm (dst : Mem) (imm : UInt8)
  | storeByte (dst : Mem) (src : Reg)
  | lea (dst : Reg) (src : Mem)
  | alu (op : ArithOp) (dst src : Reg)
  | aluImm (op : ArithOp) (dst : Reg) (imm : Int32)
  | imul (dst src : Reg)
  | idiv (divisor : Reg)
  | div (divisor : Reg)
  | neg (r : Reg)
  | shlImm (dst : Reg) (imm : UInt8)
  | cqo
  | setcc (cond : Cond) (dst : Reg)
  | movzxByte (dst src : Reg)
  | syscall
  deriving DecidableEq, Repr

/-- An instruction whose branches and calls have targets of the given type. -/
inductive Instr (τ : Type)
  | op (o : Op)
  | jump (target : τ)
  | jumpIf (cond : Cond) (target : τ)
  | call (target : τ)
  | ret
  deriving DecidableEq, Repr

namespace Instr

variable {α β : Type}

/-- The target of a branch or a call. -/
def target? : Instr α → Option α
  | jump t | jumpIf _ t | call t => some t
  | op _ | ret => none

/-- Replaces the target of a branch or a call. -/
def map (f : α → β) : Instr α → Instr β
  | op o => op o
  | jump t => jump (f t)
  | jumpIf cond t => jumpIf cond (f t)
  | call t => call (f t)
  | ret => ret

@[simp]
theorem map_map {γ : Type} (f : α → β) (g : β → γ) (i : Instr α) :
    (i.map f).map g = i.map fun t => g (f t) := by
  cases i <;> rfl

theorem map_congr {f g : α → β} {i : Instr α} (h : ∀ t, i.target? = some t → f t = g t) :
    i.map f = i.map g := by
  cases i with
  | op o => rfl
  | ret => rfl
  | jump t | jumpIf c t | call t => rw [map, map, h t rfl]

theorem map_eq_self {f : α → α} {i : Instr α} (h : ∀ t, i.target? = some t → f t = t) :
    i.map f = i := by
  have hid : i.map id = i := by cases i <;> rfl
  exact (map_congr h).trans hid

@[simp]
theorem target?_map (f : α → β) (i : Instr α) : (i.map f).target? = i.target?.map f := by
  cases i <;> rfl

/-- Replaces the target of a branch or a call by what a computation gives. -/
def traverse {f : Type → Type} [Applicative f] (g : α → f β) : Instr α → f (Instr β)
  | op o => pure (op o)
  | jump t => jump <$> g t
  | jumpIf cond t => jumpIf cond <$> g t
  | call t => call <$> g t
  | ret => pure ret

/-- Code that only operates. -/
def ops (os : List Op) : List (Instr α) := os.map op

theorem ops_append (os others : List Op) :
    (ops (os ++ others) : List (Instr α)) = ops os ++ ops others := List.map_append

end Instr

end MiniJava
