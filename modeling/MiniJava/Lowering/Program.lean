import MiniJava.Lowering.Stmt
import MiniJava.Machine.Code
import MiniJava.Machine.Image

/-!
# Lowering of programs

The code of a program is the entry code, then that of each method in the order of
the source, then the printing routine. Linking replaces the labels of calls by
indices of instructions. The first call without a destination, in the order of
the code, is a fault.
-/

namespace MiniJava

/-- A method by its class and its name. -/
structure MethodKey where
  className : String
  name : String
  deriving DecidableEq, Repr

namespace Lowering

/-- The code of a method whose first instruction has the given index. -/
def methodCode (table : ClassTable) (statics : StaticArea) (className : String) (start : Nat)
    (m : MethodDecl) : Result LabelledCode := do
  let receiver? := if m.isStatic then none else some (receiverOffset m.params.length)
  let site : Site := ⟨table, statics, className, receiver?⟩
  let enter : LabelledCode := Routine.enter
  let (body, _) ← site.stmtsCode (start + enter.length) (Frame.ofParams m.params) m.body
  return enter ++ body ++ Routine.leave

/-- The code of methods in turn, and the index of the first instruction of each. -/
def methodsCode (table : ClassTable) (statics : StaticArea) (start : Nat) :
    List (String × MethodDecl) → Result (LabelledCode × List (MethodKey × Nat))
  | [] => return ([], [])
  | (className, m) :: methods => do
    let code ← methodCode table statics className start m
    let (others, entries) ← methodsCode table statics (start + code.length) methods
    return (code ++ others, (⟨className, m.name.value⟩, start) :: entries)

/-- The entry code: the static fields and the argument of the main method are set
to zero, the main method is called, and the process ends. -/
def entryCode (statics : StaticArea) (main : MethodKey) : LabelledCode :=
  Instr.ops (.movReg .r15 .rsp :: List.replicate (statics.size + 1) (.pushImm 0)) ++
    [.call (.method main.className main.name)] ++ Routine.exit

/-- The methods of a program, each with its class. -/
def methodsOf (p : Program) : List (String × MethodDecl) :=
  p.classes.flatMap fun c => c.methods.map fun m => (c.name.value, m)

/-- The index that a label stands for. Of two methods with one key the later one
is meant. -/
def resolveLabel (entries : List (MethodKey × Nat)) (printLine : Nat) : Label → Result Nat
  | .index n => .ok n
  | .method className name =>
    match entries.reverse.lookup ⟨className, name⟩ with
    | some n => .ok n
    | none => .error ⟨.noCode className name, none⟩
  | .printLine => .ok printLine

/-- Replaces all labels by indices. -/
def link (entries : List (MethodKey × Nat)) (printLine : Nat) (code : LabelledCode) :
    Result (List (Instr Nat)) :=
  code.mapM (·.traverse (resolveLabel entries printLine))

/-- The linked code of a program. -/
def programCode (table : ClassTable) (main : MethodKey) (p : Program) :
    Result (List (Instr Nat)) := do
  let statics := StaticArea.ofProgram p
  let entry := entryCode statics main
  let (methods, entries) ← methodsCode table statics entry.length (methodsOf p)
  let printLine := entry.length + methods.length
  link entries printLine (entry ++ methods ++ (Routine.printLine printLine).map (·.map .index))

end Lowering

/-- The machine code of a program. -/
def lower (table : ClassTable) (main : MethodKey) (p : Program) :
    Except CodegenError (List UInt8) := do
  let code ← Lowering.programCode table main p
  match Code.assemble (code.map (·.map some)) with
  | .ok bytes => return bytes
  | .error branch => .error ⟨.unresolvedBranch branch.index, none⟩

/-- Whether a method can be the main method. -/
def MethodDecl.isMain (m : MethodDecl) : Bool :=
  m.name.value = "main" && !m.isPrivate && m.isStatic && m.returns.value = .void &&
    m.params.map (·.type.value) = [.array (.object ClassTable.stringClass)]

/-- The main method of a program, of which there must be exactly one. -/
def findMain (p : Program) : Except CodegenError MethodKey :=
  match (Lowering.methodsOf p).filter (·.2.isMain) with
  | [] => .error ⟨.noMain, none⟩
  | [(className, m)] => .ok ⟨className, m.name.value⟩
  | _ :: (_, second) :: _ => .error ⟨.duplicateMain, some second.name.span⟩

/-- The executable image of a program. -/
def generate (table : ClassTable) (p : Program) : Except CodegenError (List UInt8) := do
  let main ← findMain p
  let code ← lower table main p
  return Image.ofCode code

end MiniJava
