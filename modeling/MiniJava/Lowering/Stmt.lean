import MiniJava.Lowering.Expr

/-!
# Lowering of statements

The code of a statement leaves the stack as it found it, except for a
declaration, whose value stays there as the new local. A block takes its locals
off again. Branches go to indices of instructions, so lowering a statement starts
from the index of its first instruction.
-/

namespace MiniJava.Lowering

namespace Site

/-- Evaluates a condition and compares it with false. -/
def conditionCode (site : Site) (slots : ScopeStack Slot) (test : Expr) : Result LabelledCode := do
  let code ← site.exprCode slots test
  return code ++ Instr.ops [.popReg .rax, .aluImm .cmp .rax 0]

mutual

/-- The code of a statement and the frame behind it. -/
def stmtCode (site : Site) (start : Nat) (frame : Frame) : Stmt → Result (LabelledCode × Frame)
  | .block _ body => do
    let (code, inner) ← site.stmtsCode start { frame with slots := frame.slots.push } body
    let declared := inner.slots.innerSize
    return (code ++ dropWords declared, ⟨inner.slots.outer, inner.locals - declared⟩)
  | .declare _ type name init => do
    let code ← site.exprCode frame.slots init
    return (code, frame.declare name.value type.value)
  | .assign _ target value => do
    let address ← site.targetCode frame.slots target
    let code ← site.exprCode frame.slots value
    return (address ++ code ++ Instr.ops [.popReg .rcx, .popReg .rax, .store ⟨.rax, 0⟩ .rcx], frame)
  | .assignIndex _ target position value => do
    let array ← site.valueCode frame.slots target
    let index ← site.exprCode frame.slots position
    let code ← site.exprCode frame.slots value
    return (array ++ index ++ code ++
      Instr.ops [.popReg .rdx, .popReg .rcx, .popReg .rax] ++ elementAddress ++
      Instr.ops [.store (memAt .rax wordSize) .rdx], frame)
  | .call _ method args => do
    return (← site.callCode frame.slots method args, frame)
  | .ret _ none => return (Routine.leave, frame)
  | .ret _ (some value) => do
    let code ← site.exprCode frame.slots value
    return (code ++ Instr.ops [.popReg .rax] ++ Routine.leave, frame)
  | .ifThen _ test thenBranch => do
    let condition ← site.conditionCode frame.slots test
    let thenStart := start + condition.length + 1
    let (code, frame) ← site.stmtCode thenStart frame thenBranch
    let stop := thenStart + code.length
    return (condition ++ [.jumpIf .equal (.index stop)] ++ code, frame)
  | .ifThenElse _ test thenBranch elseBranch => do
    let condition ← site.conditionCode frame.slots test
    let thenStart := start + condition.length + 1
    let (thenCode, frame) ← site.stmtCode thenStart frame thenBranch
    let elseStart := thenStart + thenCode.length + 1
    let (elseCode, frame) ← site.stmtCode elseStart frame elseBranch
    let stop := elseStart + elseCode.length
    return (condition ++ [.jumpIf .equal (.index elseStart)] ++ thenCode ++
      [.jump (.index stop)] ++ elseCode, frame)
  | .loop _ test body => do
    let condition ← site.conditionCode frame.slots test
    let bodyStart := start + condition.length + 1
    let (code, frame) ← site.stmtCode bodyStart frame body
    let stop := bodyStart + code.length + 1
    return (condition ++ [.jumpIf .equal (.index stop)] ++ code ++ [.jump (.index start)], frame)

/-- The code of statements in turn, and the frame behind them. -/
def stmtsCode (site : Site) (start : Nat) (frame : Frame) :
    List Stmt → Result (LabelledCode × Frame)
  | [] => return ([], frame)
  | s :: ss => do
    let (first, frame) ← site.stmtCode start frame s
    let (others, frame) ← site.stmtsCode (start + first.length) frame ss
    return (first ++ others, frame)

end

end Site

end MiniJava.Lowering
