import MiniJava.Lowering.Reference

/-!
# Lowering of expressions

The code of an expression leaves one word on the stack, its value. Operands,
receivers and arguments are evaluated from left to right.
-/

namespace MiniJava.Lowering

/-- The word that a literal stands for. -/
def literalWord : Literal → Int32
  | .int value => value
  | .bool value => if value then 1 else 0
  | .null => 0

/-- Applies a unary operator to `rax`. -/
def unaryCode : UnaryOp → LabelledCode
  | .neg => Instr.ops [.neg .rax]
  | .not => Instr.ops [.aluImm .xor .rax 1]

/-- Sets `rax` to one if a comparison of `rax` with `rcx` holds, and to zero if not. -/
def compareCode (cond : Cond) : LabelledCode :=
  Instr.ops [.alu .cmp .rax .rcx, .setcc cond .rax, .movzxByte .rax .rax]

/-- Applies a binary operator to `rax` and `rcx`, with the result in `rax`. -/
def binaryCode : BinaryOp → LabelledCode
  | .add => Instr.ops [.alu .add .rax .rcx]
  | .sub => Instr.ops [.alu .sub .rax .rcx]
  | .and => Instr.ops [.alu .and .rax .rcx]
  | .or => Instr.ops [.alu .or .rax .rcx]
  | .mul => Instr.ops [.imul .rax .rcx]
  | .div => Instr.ops [.cqo, .idiv .rcx]
  | .equal => compareCode .equal
  | .notEqual => compareCode .notEqual
  | .less => compareCode .less
  | .lessEq => compareCode .lessEq
  | .greater => compareCode .greater
  | .greaterEq => compareCode .greaterEq

/-- From an array in `rax` and a position in `rcx` to the address of the word in
front of that element: the length of the array is its first word. -/
def elementAddress : LabelledCode :=
  Instr.ops [.shlImm .rcx 3, .alu .add .rax .rcx]

/-- The bytes to set aside for an object, which are never less than one word. -/
def objectSize (table : ClassTable) (className : String) : Nat :=
  max ((table.class? className).elim 0 (·.instanceSize)) wordSize

/-- A call with everything but its arguments: where it goes, and what is put on
the stack in front of them. -/
structure Callee where
  label : Label
  receiver : LabelledCode
  receiverWords : Nat

/-- The code of a call, given that of its arguments and their number. -/
def Callee.call (callee : Callee) (args : LabelledCode) (count : Nat) : LabelledCode :=
  callee.receiver ++ args ++ [.call callee.label] ++ dropWords (callee.receiverWords + count)

namespace Site

/-- The method of a class, with the code for its receiver. Printing takes no
receiver, and neither does a static method. -/
def calleeIn (site : Site) (r : Ref) (className name : String)
    (receiver : Result LabelledCode) : Result Callee :=
  match site.table.method? className name with
  | none => failAt (.unknownMethod r.text) r.span
  | some m =>
    if m.owner = ClassTable.printStreamClass && name = ClassTable.printMethod then
      .ok ⟨.printLine, [], 0⟩
    else if m.isStatic then .ok ⟨.method m.owner name, [], 0⟩
    else do return ⟨.method m.owner name, ← receiver, 1⟩

/-- What is called by a reference. -/
def callee (site : Site) (slots : ScopeStack Slot) : Ref → Result Callee
  | .this span => failAt .callOfThis span
  | .name span text =>
    site.calleeIn (.name span text) site.className text (site.receiverCode span)
  | .member span base field => do
    let className ← site.classOf slots base
    site.calleeIn (.member span base field) className field.value (site.valueCode slots base)

mutual

/-- The code of an expression. -/
def exprCode (site : Site) (slots : ScopeStack Slot) : Expr → Result LabelledCode
  | .literal _ value => return Instr.ops [.pushImm (literalWord value)]
  | .unary _ op operand => do
    let code ← site.exprCode slots operand
    return code ++ Instr.ops [.popReg .rax] ++ unaryCode op ++ pushResult
  | .binary _ op left right => do
    let first ← site.exprCode slots left
    let second ← site.exprCode slots right
    return first ++ second ++ Instr.ops [.popReg .rcx, .popReg .rax] ++ binaryCode op ++ pushResult
  | .ref target => site.valueCode slots target
  | .index _ target position => do
    let array ← site.valueCode slots target
    let code ← site.exprCode slots position
    return array ++ code ++ Instr.ops [.popReg .rcx, .popReg .rax] ++ elementAddress ++
      Instr.ops [.load .rax (memAt .rax wordSize)] ++ pushResult
  | .call _ method args => do
    let callee ← site.callee slots method
    let code ← site.argsCode slots args
    return callee.call code args.length ++ pushResult
  | .newObject _ className =>
    return Instr.ops [.movImm .rsi (Int64.ofNat (objectSize site.table className.value))] ++
      Routine.allocate ++ pushResult
  | .newArray _ _ size => do
    let code ← site.exprCode slots size
    return code ++
      Instr.ops [.load .rax ⟨.rsp, 0⟩, .aluImm .add .rax 1, .shlImm .rax 3, .movReg .rsi .rax] ++
      Routine.allocate ++ Instr.ops [.popReg .rcx, .store ⟨.rax, 0⟩ .rcx] ++ pushResult

/-- The code of arguments, each of which leaves its value on the stack. -/
def argsCode (site : Site) (slots : ScopeStack Slot) : List Expr → Result LabelledCode
  | [] => return []
  | e :: es => do
    let first ← site.exprCode slots e
    let others ← site.argsCode slots es
    return first ++ others

end

/-- The code of a call whose result is in `rax`. -/
def callCode (site : Site) (slots : ScopeStack Slot) (method : Ref) (args : List Expr) :
    Result LabelledCode := do
  let callee ← site.callee slots method
  let code ← site.argsCode slots args
  return callee.call code args.length

end Site

end MiniJava.Lowering
