import MiniJava.ClassTable
import MiniJava.Lowering.Fault
import MiniJava.Machine.Routine
import MiniJava.ScopeStack

/-!
# Where values live

The caller of a method pushes the receiver, if there is one, and then the
arguments from left to right. The callee saves the caller's frame base above its
own, so counted from that base upwards there are the saved base, the return
address, the last argument, and so on to the first one and the receiver. Locals
lie below the base in the order in which they come to life. Static fields lie
below the address in `r15`, which the entry code sets.
-/

namespace MiniJava

/-- A place in code that a branch or a call goes to. -/
inductive Label
  /-- The instruction with this index. -/
  | index (n : Nat)
  /-- The first instruction of a method. -/
  | method (className name : String)
  /-- The first instruction of the printing routine. -/
  | printLine
  deriving DecidableEq, Repr

/-- Code whose calls are not linked yet. -/
abbrev LabelledCode := List (Instr Label)

namespace Lowering

/-- The result of a step of lowering. -/
abbrev Result (α : Type) := Except CodegenError α

/-- The fault at a place of the source. -/
def failAt {α : Type} (fault : CodegenFault) (span : Span) : Result α :=
  .error ⟨fault, some span⟩

/-- The memory at a number of bytes from the address in a register. -/
def memAt (base : Reg) (disp : Int) : Mem := ⟨base, Int32.ofInt disp⟩

/-- A parameter or a local variable in the frame of its method. -/
structure Slot where
  /-- The distance from the base of the frame. -/
  offset : Int
  type : Ty
  deriving DecidableEq, Repr

/-- The variables in scope, and the number of locals that are alive. -/
structure Frame where
  slots : ScopeStack Slot
  locals : Nat
  deriving Repr

/-- The distance from the base of the frame to the last argument: the saved base
and the return address lie between. -/
def argumentBase : Nat := 2 * wordSize

/-- Where a method with this number of parameters finds its receiver. -/
def receiverOffset (params : Nat) : Int := argumentBase + wordSize * params

/-- Where a method with this number of parameters finds the one with this index. -/
def paramOffset (params index : Nat) : Int := argumentBase + wordSize * (params - 1 - index : Nat)

namespace Frame

/-- The frame of a method when its body begins. -/
def ofParams (params : List Param) : Frame where
  slots := params.zipIdx.foldl
    (fun slots (p, i) => slots.defineNew p.name.value ⟨paramOffset params.length i, p.type.value⟩)
    ScopeStack.empty.push
  locals := 0

/-- The frame behind a declaration, whose value is now the lowest word. -/
def declare (frame : Frame) (name : String) (type : Ty) : Frame where
  slots := frame.slots.defineNew name ⟨-(wordSize * (frame.locals + 1) : Nat), type⟩
  locals := frame.locals + 1

end Frame

/-- The static fields of a program, each with its class, in the order of their
words. -/
structure StaticArea where
  fields : List (String × String)
  deriving Repr

namespace StaticArea

/-- The standard output, then the static fields in the order of the source. -/
def ofProgram (p : Program) : StaticArea where
  fields := (ClassTable.systemClass, ClassTable.outField) ::
    p.classes.flatMap fun c =>
      (c.fields.filter (·.isStatic)).map fun f => (c.name.value, f.name.value)

/-- The number of words to be set aside. -/
def size (area : StaticArea) : Nat := area.fields.eraseDups.length

/-- The distance of a static field from the address in `r15`. A field that occurs
more than once has the word of its last occurrence. -/
def displacement? (area : StaticArea) (className field : String) : Option Int :=
  (area.fields.zipIdx.reverse.lookup (className, field)).map
    fun i => -(wordSize * (i + 1) : Nat)

end StaticArea

/-- The surroundings of a method body. -/
structure Site where
  table : ClassTable
  statics : StaticArea
  className : String
  /-- Where the receiver lies in the frame, unless the method is static. -/
  receiver? : Option Int

/-- Takes words off the stack. -/
def dropWords (n : Nat) : LabelledCode :=
  if n = 0 then [] else Instr.ops [.aluImm .add .rsp (Int32.ofNat (wordSize * n))]

/-- Puts the value in `rax` on the stack. -/
def pushResult : LabelledCode := Instr.ops [.pushReg .rax]

end Lowering

end MiniJava
