import MiniJava.Proofs.Lowering.Linking

/-!
# Lowering in one pass

`programCode` gives every branch and every call a label and replaces the labels when
all code is there. The same code comes out of one walk over the program that puts down
one instruction after the other and keeps nothing but the code so far: a branch forward
and every call are put down without a target, their indices are kept, and the target is
patched in as soon as it is known. A patch is only good where a branch or a call
stands, and a patch anywhere else ends the walk.

> `emitProgram_eq`: for any table of classes, any main method and any program, the walk
> ends with the code of the program or with the fault for which there is none. It never
> ends with a misplaced patch.

The table need not be that of the program, and the program need not have been identified.
-/

namespace MiniJava

open List

namespace Lowering

/-! ## The walk -/

/-- Why a walk ends before all code is there. -/
inductive Stop
  /-- No code can be generated. -/
  | fault (e : CodegenError)
  /-- A patch was made at an index where neither a branch nor a call stands. -/
  | misplacedPatch (index : Nat)
  deriving DecidableEq, Repr

/-- A step of lowering as part of a walk. -/
def orStop {α : Type} : Result α → Except Stop α
  | .ok a => .ok a
  | .error e => .error (.fault e)

/-- Sets the target of the branch or call at an index. -/
def patchAt (code : Code) (index target : Nat) : Except Stop Code :=
  match code.patch? index (some target) with
  | some patched => .ok patched
  | none => .error (.misplacedPatch index)

/-- Sets the targets at some indices, one after the other, to the indices of labels. -/
def patchAll (resolve : Label → Result Nat) : List (Nat × Label) → Code → Except Stop Code
  | [], code => .ok code
  | (index, label) :: others, code => do
    let target ← orStop (resolve label)
    patchAll resolve others (← patchAt code index target)

end Lowering

namespace Label

/-- The index that a label is known to stand for while code is put down. -/
def known? : Label → Option Nat
  | .index n => some n
  | .method _ _ | .printLine => none

/-- Whether a label is that of a method. -/
def isMethod : Label → Bool
  | .method _ _ => true
  | .index _ | .printLine => false

end Label

namespace Lowering

/-- The code that is there so far. -/
structure Draft where
  code : Code
  /-- The first instructions of the methods. -/
  entries : List (MethodKey × Nat)
  /-- The indices of the calls that have no target yet, each with its label. -/
  waiting : List (Nat × Label)
  deriving DecidableEq, Repr

namespace Draft

/-- The draft with which a walk begins. -/
def empty : Draft := ⟨[], [], []⟩

/-- The index of the next instruction. -/
def here (d : Draft) : Nat := d.code.length

/-- Puts down an instruction. One whose label is not known yet has to wait. -/
def emit (d : Draft) (i : Instr Label) : Draft where
  code := d.code ++ [i.map Label.known?]
  entries := d.entries
  waiting :=
  match i.target? with
    | none | some (.index _) => d.waiting
    | some label => d.waiting ++ [(d.here, label)]

/-- Puts down instructions one after the other. -/
def put (d : Draft) (code : LabelledCode) : Draft := code.foldl emit d

/-- Puts down a branch without a target, which the walk itself is going to patch. -/
def emitOpen (d : Draft) (branch : Instr Unit) : Draft :=
  { d with code := d.code ++ [branch.map fun _ => none] }

/-- A method begins here. -/
def enter (d : Draft) (key : MethodKey) : Draft :=
  { d with entries := d.entries ++ [(key, d.here)] }

/-- Sets the target of the branch at an index. -/
def patch (d : Draft) (index target : Nat) : Except Stop Draft := do
  return { d with code := ← patchAt d.code index target }

/-- Puts down the printing routine, which has two branches forward and one back. -/
def emitPrintLine (d : Draft) : Except Stop Draft := do
  let d := d.put (Routine.enter ++ Instr.ops
    [.aluImm .sub .rsp 32, .load .rax ⟨.rbp, 16⟩, .lea .rsi ⟨.rbp, -1⟩,
     .storeByteImm ⟨.rsi, 0⟩ 10, .alu .xor .r8 .r8, .aluImm .cmp .rax 0])
  let toDigits := d.here
  let d := (d.emitOpen (.jumpIf .greaterEq ())).put (Instr.ops [.neg .rax, .movImm .r8 1])
  let digits := d.here
  let d ← (d.put (Instr.ops [.movImm .rcx 10])).patch toDigits digits
  let nextDigit := d.here
  let d := d.put (Instr.ops
    [.alu .xor .rdx .rdx, .div .rcx, .aluImm .add .rdx 48, .aluImm .sub .rsi 1,
     .storeByte ⟨.rsi, 0⟩ .rdx, .aluImm .cmp .rax 0] ++
    [.jumpIf .notEqual (.index nextDigit)] ++ Instr.ops [.aluImm .cmp .r8 0])
  let toWrite := d.here
  let d := (d.emitOpen (.jumpIf .equal ())).put
    (Instr.ops [.aluImm .sub .rsi 1, .storeByteImm ⟨.rsi, 0⟩ 45])
  let write := d.here
  let d ← (d.put (Instr.ops [.movReg .rdx .rbp])).patch toWrite write
  return d.put (Instr.ops [.alu .sub .rdx .rsi, .movImm .rax 1, .movImm .rdi 1, .syscall] ++
    Routine.leave)

end Draft

namespace Site

mutual

/-- Puts down the code of a statement. A branch over a statement is patched when that
statement is there. -/
def emitStmt (site : Site) (frame : Frame) : Stmt → Draft → Except Stop (Draft × Frame)
  | .block _ body, d => do
    let (d, inner) ← site.emitStmts { frame with slots := frame.slots.push } body d
    let declared := inner.slots.innerSize
    return (d.put (dropWords declared), ⟨inner.slots.outer, inner.locals - declared⟩)
  | .ifThen _ test thenBranch, d => do
    let d := d.put (← orStop (site.conditionCode frame.slots test))
    let toEnd := d.here
    let (d, frame) ← site.emitStmt frame thenBranch (d.emitOpen (.jumpIf .equal ()))
    return (← d.patch toEnd d.here, frame)
  | .ifThenElse _ test thenBranch elseBranch, d => do
    let d := d.put (← orStop (site.conditionCode frame.slots test))
    let toElse := d.here
    let (d, frame) ← site.emitStmt frame thenBranch (d.emitOpen (.jumpIf .equal ()))
    let toEnd := d.here
    let d := d.emitOpen (.jump ())
    let d ← d.patch toElse d.here
    let (d, frame) ← site.emitStmt frame elseBranch d
    return (← d.patch toEnd d.here, frame)
  | .loop _ test body, d => do
    let top := d.here
    let d := d.put (← orStop (site.conditionCode frame.slots test))
    let toEnd := d.here
    let (d, frame) ← site.emitStmt frame body (d.emitOpen (.jumpIf .equal ()))
    let d := d.put [.jump (.index top)]
    return (← d.patch toEnd d.here, frame)
  -- The other statements have no branches.
  | s, d => do
    let (code, frame) ← orStop (site.stmtCode d.here frame s)
    return (d.put code, frame)

/-- Puts down the code of statements in turn. -/
def emitStmts (site : Site) (frame : Frame) : List Stmt → Draft → Except Stop (Draft × Frame)
  | [], d => return (d, frame)
  | s :: ss, d => do
    let (d, frame) ← site.emitStmt frame s d
    site.emitStmts frame ss d

end

end Site

/-- Puts down the code of a method. -/
def emitMethod (table : ClassTable) (statics : StaticArea) (className : String) (m : MethodDecl)
    (d : Draft) : Except Stop Draft := do
  let receiver? := if m.isStatic then none else some (receiverOffset m.params.length)
  let site : Site := ⟨table, statics, className, receiver?⟩
  let d := (d.enter ⟨className, m.name.value⟩).put Routine.enter
  let (d, _) ← site.emitStmts (Frame.ofParams m.params) m.body d
  return d.put Routine.leave

/-- Puts down the code of methods in turn. -/
def emitMethods (table : ClassTable) (statics : StaticArea) :
    List (String × MethodDecl) → Draft → Except Stop Draft
  | [], d => return d
  | (className, m) :: methods, d => do
    emitMethods table statics methods (← emitMethod table statics className m d)

/-- All code is there, with the printing routine at an index: the calls of methods get their
targets, and then the calls of the printing routine. -/
def Draft.finish (d : Draft) (printLine : Nat) : Except Stop Code := do
  let resolve := resolveLabel d.entries printLine
  let (calls, prints) := d.waiting.partition (·.2.isMethod)
  patchAll resolve prints (← patchAll resolve calls d.code)

/-- The code of a program, in one pass. -/
def emitProgram (table : ClassTable) (main : MethodKey) (p : Program) : Except Stop Code := do
  let statics := StaticArea.ofProgram p
  let d ← emitMethods table statics (methodsOf p) (Draft.empty.put (entryCode statics main))
  let printLine := d.here
  let d ← d.emitPrintLine
  d.finish printLine

/-! ## What is put down -/

theorem orStop_pure {α : Type} (a : α) : orStop (pure a : Result α) = pure a := rfl

theorem orStop_bind {α β : Type} (r : Result α) (f : α → Result β) :
    orStop (r >>= f) = orStop r >>= fun a => orStop (f a) := by
  cases r <;> rfl

/-- The calls of code that have to wait, when its first instruction has index `start`. -/
def waitingFrom (start : Nat) (code : LabelledCode) : List (Nat × Label) :=
  (code.zipIdx start).filterMap fun (i, index) =>
    match i.target? with
    | none | some (.index _) => none
    | some label => some (index, label)

theorem waitingFrom_append (start : Nat) (code others : LabelledCode) :
    waitingFrom start (code ++ others) =
      waitingFrom start code ++ waitingFrom (start + code.length) others := by
  rw [waitingFrom, zipIdx_append, filterMap_append]
  rfl

variable {i : Instr Label} {patched code : Code} {label : Label} {target index : Nat}

/-- An instruction waits unless its label is an index. -/
theorem waitingFrom_singleton (h : i.target? = some label) (start : Nat) :
    waitingFrom start [i] = if label.known?.isSome then [] else [(start, label)] := by
  cases label <;> simp [waitingFrom, h, Label.known?]

namespace Draft

theorem emit_eq (d : Draft) (i : Instr Label) :
    d.emit i = ⟨d.code ++ [i.map Label.known?], d.entries,
      d.waiting ++ waitingFrom d.here [i]⟩ := by
  unfold emit waitingFrom
  cases i with
  | op o | ret => simp [Instr.target?]
  | jump l | jumpIf c l | call l => cases l <;> simp [Instr.target?]

/-- Putting code down adds to each part of a draft, whatever is there already. -/
theorem put_eq (d : Draft) (code : LabelledCode) :
    d.put code =
      ⟨d.code ++ code.map (·.map Label.known?), d.entries,
        d.waiting ++ waitingFrom d.here code⟩ := by
  induction code generalizing d with
  | nil => simp [put, waitingFrom]
  | cons i code ih =>
    have hsplit := waitingFrom_append d.here [i] code
    rw [singleton_append, length_singleton] at hsplit
    show (d.emit i).put code = _
    rw [ih, emit_eq, hsplit]
    simp [here]

theorem put_append (d : Draft) (code others : LabelledCode) :
    d.put (code ++ others) = (d.put code).put others :=
  foldl_append

@[simp]
theorem here_put (d : Draft) (code : LabelledCode) : (d.put code).here = d.here + code.length := by
  simp [put_eq, here]

@[simp]
theorem here_emitOpen (d : Draft) (branch : Instr Unit) :
    (d.emitOpen branch).here = d.here + 1 := by
  simp [emitOpen, here]

/-- It makes no difference to what comes later whether a branch is open. -/
theorem here_emitOpen_put (d : Draft) (branch : Instr Unit) (i : Instr Label)
    (code : LabelledCode) : ((d.emitOpen branch).put code).here = (d.put (i :: code)).here := by
  rw [here_put, here_put, here_emitOpen, length_cons]
  omega

@[simp]
theorem here_enter (d : Draft) (key : MethodKey) : (d.enter key).here = d.here := rfl

end Draft

/-! ## Patches -/

/-- A patch of a branch or a call leaves all other instructions as they are. -/
theorem patchAt_append_cons {front back : Code} {i : Instr (Option Nat)} (hi : i.target?.isSome)
    (target : Nat) :
    patchAt (front ++ i :: back) front.length target =
      .ok (front ++ i.map (fun _ => some target) :: back) := by
  have hpatch : Code.patch? (front ++ i :: back) front.length (some target) =
      some (front ++ i.map (fun _ => some target) :: back) := by
    induction front with
    | nil => simp [Code.patch?, hi]
    | cons _ _ ih => simp [Code.patch?, ih]
  rw [patchAt, hpatch]

/-- A patch was made at a branch or a call. -/
theorem exists_of_patchAt (h : patchAt code index target = .ok patched) :
    ∃ front i back, i.target?.isSome ∧ front.length = index ∧ code = front ++ i :: back ∧
      patched = front ++ i.map (fun _ => some target) :: back := by
  unfold patchAt at h
  cases hpatch : code.patch? index (some target) with
  | none => rw [hpatch] at h; cases h
  | some _ =>
    rw [hpatch] at h
    cases h
    induction code generalizing index patched with
    | nil => cases index <;> cases hpatch
    | cons i code ih =>
      cases index with
      | zero =>
        rw [Code.patch?] at hpatch
        split at hpatch
        · cases hpatch
          exact ⟨[], i, code, ‹_›, rfl, rfl, rfl⟩
        · cases hpatch
      | succ =>
        obtain ⟨_, hothers, rfl⟩ := Option.map_eq_some_iff.mp hpatch
        obtain ⟨front, j, back, hj, rfl, rfl, rfl⟩ := ih hothers
        exact ⟨i :: front, j, back, hj, rfl, rfl, rfl⟩

theorem length_of_patchAt (h : patchAt code index target = .ok patched) :
    patched.length = code.length := by
  obtain ⟨_, _, _, -, -, rfl, rfl⟩ := exists_of_patchAt h
  simp

/-- Code behind an instruction does not stand in the way of a patch. -/
theorem patchAt_append (h : patchAt code index target = .ok patched) (others : Code) :
    patchAt (code ++ others) index target = .ok (patched ++ others) := by
  obtain ⟨_, _, _, hi, rfl, rfl, rfl⟩ := exists_of_patchAt h
  rw [append_assoc, append_assoc, cons_append, cons_append]
  exact patchAt_append_cons hi target

namespace Draft

variable {d patched : Draft} {index target : Nat}

theorem patch_eq_ok_iff : d.patch index target = .ok patched ↔
    ∃ code, patchAt d.code index target = .ok code ∧ patched = { d with code } := by
  unfold patch
  rw [bind_eq_ok]
  simp only [pure_eq_ok]

variable {branch : Instr Unit}

/-- A branch can be patched at the index where it was put down. -/
theorem patch_emitOpen_here (h : branch.target?.isSome) (target : Nat) :
    (d.emitOpen branch).patch d.here target = .ok (d.put [branch.map fun _ => .index target]) := by
  have hopen : (branch.map fun _ => (none : Option Nat)).target?.isSome := by
    rw [Instr.target?_map, Option.isSome_map]
    exact h
  refine patch_eq_ok_iff.mpr ⟨_, patchAt_append_cons hopen target, ?_⟩
  cases branch <;> rfl

/-- A patch that can be made now can be made behind any further code, with the same outcome. -/
theorem patch_put (h : d.patch index target = .ok patched) (code : LabelledCode) :
    (d.put code).patch index target = .ok (patched.put code) := by
  obtain ⟨new, hnew, rfl⟩ := patch_eq_ok_iff.mp h
  refine patch_eq_ok_iff.mpr ⟨new ++ code.map (·.map Label.known?), ?_, ?_⟩
  · rw [put_eq]
    exact patchAt_append hnew _
  · rw [put_eq, put_eq, here, here, length_of_patchAt hnew]

theorem patch_emitOpen (h : d.patch index target = .ok patched) (branch : Instr Unit) :
    (d.emitOpen branch).patch index target = .ok (patched.emitOpen branch) := by
  obtain ⟨_, hnew, rfl⟩ := patch_eq_ok_iff.mp h
  exact patch_eq_ok_iff.mpr ⟨_, patchAt_append hnew _, rfl⟩

/-- A branch over some code can be patched when that code is there. -/
theorem patch_over (h : branch.target?.isSome) (code : LabelledCode) (target : Nat) :
    ((d.emitOpen branch).put code).patch d.here target =
      pure (d.put ((branch.map fun _ => .index target) :: code)) :=
  patch_put (patch_emitOpen_here h target) code

/-- This is so too when another branch has been put down behind that code. -/
theorem patch_over_emitOpen (h : branch.target?.isSome) (code : LabelledCode) (other : Instr Unit)
    (target : Nat) :
    (((d.emitOpen branch).put code).emitOpen other).patch d.here target =
      pure ((d.put ((branch.map fun _ => .index target) :: code)).emitOpen other) :=
  patch_emitOpen (patch_over h code target) other

/-- The printing routine is put down with its branches patched. -/
theorem emitPrintLine_eq (d : Draft) :
    d.emitPrintLine = pure (d.put ((Routine.printLine d.here).map (·.map .index))) := by
  unfold emitPrintLine
  simp only [← put_append]
  rw [patch_over rfl, pure_bind, patch_over rfl, pure_bind]
  simp only [here_put, here_emitOpen, ← put_append]
  rfl

end Draft

/-! ## Statements and methods -/

/-- The draft and the frame behind a statement whose code is put down. -/
def Draft.follow (d : Draft) (lowered : Result (LabelledCode × Frame)) :
    Except Stop (Draft × Frame) := do
  let (code, frame) ← orStop lowered
  return (d.put code, frame)

namespace Site

open Draft

mutual

/-- A statement is put down as the code that it is lowered to where it begins. -/
theorem emitStmt_eq (site : Site) (frame : Frame) (s : Stmt) (d : Draft) :
    site.emitStmt frame s d = d.follow (site.stmtCode d.here frame s) := by
  -- Both sides go through the same steps, up to the patches, and these are made at branches that
  -- were put down open and have only been built upon since (`patch_over`).
  cases s with
  | declare | assign | assignIndex | call | ret => simp only [emitStmt, follow]
  | block =>
    simp only [emitStmt, stmtCode, emitStmts_eq, follow, orStop_bind, orStop_pure,
      bind_assoc, pure_bind, put_append]
  | ifThen _ _ thenBranch =>
    simp only [emitStmt, stmtCode, emitStmt_eq site frame thenBranch, follow,
      orStop_bind, orStop_pure, bind_assoc, pure_bind, @patch_over _ (.jumpIf .equal ()) rfl]
    simp only [here_put, here_emitOpen, append_assoc, singleton_append, put_append, Instr.map]
  | ifThenElse _ _ thenBranch elseBranch =>
    -- The first branch has its target by now, but its index and those behind it are the same.
    have hend : ∀ (condition thenCode elseCode : LabelledCode) (i : Instr Label) (target : Nat),
        ((((d.put condition).put (i :: thenCode)).emitOpen (.jump ())).put elseCode).patch
            (((d.put condition).emitOpen (.jumpIf .equal ())).put thenCode).here target =
          pure (((d.put condition).put (i :: thenCode)).put
            (.jump (.index target) :: elseCode)) := by
      intro _ _ elseCode _ target
      rw [here_emitOpen_put]
      exact patch_over rfl elseCode target
    simp only [emitStmt, stmtCode, emitStmt_eq site frame thenBranch, follow,
      orStop_bind, orStop_pure,
      bind_assoc, pure_bind, @patch_over_emitOpen _ (.jumpIf .equal ()) rfl,
      fun frame => emitStmt_eq site frame elseBranch, hend]
    simp only [here_put, here_emitOpen, append_assoc, singleton_append,
      put_append, Instr.map, length_cons, Nat.add_assoc, Nat.add_comm, Nat.add_left_comm]
  | loop _ _ body =>
    simp only [emitStmt, stmtCode, emitStmt_eq site frame body, follow, orStop_bind, orStop_pure,
      bind_assoc, pure_bind, ← put_append]
    simp only [@patch_over _ (.jumpIf .equal ()) rfl, pure_bind]
    simp only [here_put, here_emitOpen, ← put_append, append_assoc, nil_append,
      cons_append, length_append, length_singleton, Nat.add_assoc, Instr.map]

theorem emitStmts_eq (site : Site) (frame : Frame) (ss : List Stmt) (d : Draft) :
    site.emitStmts frame ss d = d.follow (site.stmtsCode d.here frame ss) := by
  cases ss with
  | nil => rfl
  | cons s =>
    simp only [emitStmts, stmtsCode, emitStmt_eq site frame s, follow, orStop_bind, orStop_pure,
      bind_assoc, pure_bind, emitStmts_eq, here_put, put_append]

end

end Site

/-- A method is put down as its code, and its entry is where that begins. -/
theorem emitMethod_eq (table : ClassTable) (statics : StaticArea) (className : String)
    (m : MethodDecl) (d : Draft) :
    emitMethod table statics className m d =
      (fun code => (d.enter ⟨className, m.name.value⟩).put code) <$>
        orStop (methodCode table statics className d.here m) := by
  simp only [emitMethod, methodCode, Site.emitStmts_eq, Draft.follow, orStop_bind, orStop_pure,
    bind_assoc, pure_bind, map_bind, map_pure, Draft.here_put, Draft.here_enter, Draft.put_append]

/-- The draft in which this code stands, with all calls waiting. -/
def Draft.ofCode (entries : List (MethodKey × Nat)) (code : LabelledCode) : Draft where
  code := code.map (·.map Label.known?)
  entries := entries
  waiting := waitingFrom 0 code

theorem Draft.here_ofCode (entries : List (MethodKey × Nat)) (code : LabelledCode) :
    (Draft.ofCode entries code).here = code.length :=
  length_map _

theorem Draft.put_ofCode (entries : List (MethodKey × Nat)) (code others : LabelledCode) :
    (Draft.ofCode entries code).put others = Draft.ofCode entries (code ++ others) := by
  rw [put_eq, here_ofCode]
  unfold ofCode
  rw [map_append, waitingFrom_append, Nat.zero_add]

theorem Draft.enter_ofCode (entries : List (MethodKey × Nat)) (code : LabelledCode)
    (key : MethodKey) :
    (Draft.ofCode entries code).enter key = Draft.ofCode
    (entries ++ [(key, code.length)]) code := by
  unfold enter
  rw [here_ofCode]
  rfl

/-- Methods are put down in turn, behind the code that is there. -/
theorem emitMethods_eq (table : ClassTable) (statics : StaticArea)
    (methods : List (String × MethodDecl)) (entries : List (MethodKey × Nat))
    (code : LabelledCode) :
    emitMethods table statics methods (.ofCode entries code) =
      (fun out => Draft.ofCode (entries ++ out.2) (code ++ out.1)) <$>
        orStop (methodsCode table statics code.length methods) := by
  induction methods generalizing entries code with
  | nil =>
    show Except.ok (Draft.ofCode entries code) =
      Except.ok (Draft.ofCode (entries ++ []) (code ++ []))
    rw [append_nil, append_nil]
  | cons _ _ ih =>
    simp only [emitMethods, methodsCode, emitMethod_eq, Draft.enter_ofCode, Draft.here_ofCode,
      Draft.put_ofCode, ih, orStop_bind, orStop_pure, map_eq_pure_bind, bind_assoc, pure_bind,
      length_append, append_assoc, singleton_append]

/-! ## Calls that wait -/

theorem patchAll_append (resolve : Label → Result Nat) (calls others : List (Nat × Label))
    (code : Code) :
    patchAll resolve (calls ++ others) code =
      patchAll resolve calls code >>= patchAll resolve others := by
  induction calls generalizing code with
  | nil => rfl
  | cons _ _ ih =>
    rw [cons_append, patchAll, patchAll, bind_assoc]
    congr 1
    funext target
    rw [bind_assoc]
    congr 1
    funext patched
    exact ih patched

theorem map_congr_of_target? {α : Type} (h : i.target? = some label) {f g : Label → α}
    (hlabel : f label = g label) :
    i.map f = i.map g := by
  apply Instr.map_congr
  intro _ h'
  rw [h] at h'
  cases h'
  exact hlabel

/-- A call that waits can be patched, whatever target stands in it. -/
theorem patchAll_singleton (resolve : Label → Result Nat) (h : i.target? = some label)
    (known : Label → Option Nat) (front back : Code) :
    patchAll resolve [(front.length, label)] (front ++ i.map known :: back) =
      (fun n => front ++ (i.map fun _ => some n) :: back) <$> orStop (resolve label) := by
  have hbranch : (i.map known).target?.isSome := by
    rw [Instr.target?_map, h]
    rfl
  rw [patchAll, map_eq_pure_bind]
  refine bind_congr fun n => ?_
  rw [patchAt_append_cons hbranch, Instr.map_map]
  rfl

section

variable {entries : List (MethodKey × Nat)} {printLine : Nat} {wanted : Label → Bool}
  {known : Label → Option Nat}

/-- What is known of a label when the calls that wait for some labels have been patched. -/
def knownAfter (entries : List (MethodKey × Nat)) (printLine : Nat) (wanted : Label → Bool)
    (known : Label → Option Nat) (label : Label) : Option Nat :=
  if wanted label then (resolveLabel entries printLine label).toOption else known label

/-- One instruction of a pass over the calls that wait for some labels: it is patched if it is one
of these calls, and the pass goes on if its label can be resolved. -/
theorem patchAll_waiting_one (hindex : ∀ n, known (.index n) = some n)
    (hother : ∀ label, i.target? = some label → wanted label = false →
      ∃ n, resolveLabel entries printLine label = .ok n) (front back : Code) :
    patchAll (resolveLabel entries printLine)
        ((waitingFrom front.length [i]).filter (wanted ·.2)) (front ++ i.map known :: back) =
      (fun _ => front ++ i.map (knownAfter entries printLine wanted known) :: back) <$>
        orStop (i.traverse (resolveLabel entries printLine)) := by
  cases ht : i.target? with
  | none =>
    cases i with
    | op | ret => rfl
    | jump t | jumpIf c t | call t => cases ht
  | some label =>
    rw [traverse_of_target? ht, waitingFrom_singleton ht]
    cases hw : wanted label with
    | false =>
      have hnone : (if label.known?.isSome then [] else [(front.length, label)]).filter
        (wanted ·.2) =
          [] := by
        split <;> simp [hw]
      have hsame : knownAfter entries printLine wanted known label = known label := by
        rw [knownAfter, hw]
        rfl
      obtain ⟨_, hn⟩ := hother label ht hw
      rw [hnone, map_congr_of_target? ht hsame, hn]
      rfl
    | true =>
      by_cases hknown : label.known?.isSome
      · -- Such a label is an index, and what it stands for is known from the start.
        cases label with
        | method | printLine => cases hknown
        | index n =>
          have hsame : knownAfter entries printLine wanted known (.index n) = known (.index n) := by
            rw [knownAfter, hw, hindex]
            rfl
          rw [if_pos hknown, map_congr_of_target? ht hsame]
          rfl
      · have hone : [(front.length, label)].filter (wanted ·.2) = [(front.length, label)] := by
          simp [hw]
        rw [if_neg hknown, hone, patchAll_singleton _ ht]
        cases hr : resolveLabel entries printLine label with
        | error _ => rfl
        | ok n =>
          have hset : i.map (knownAfter entries printLine wanted known) =
              i.map fun _ => some n := by
            apply map_congr_of_target? ht
            rw [knownAfter, if_pos hw, hr]
            rfl
          rw [hset]
          rfl

/-- A whole pass: all calls that wait for these labels are patched, unless linking fails. -/
theorem patchAll_waiting (hindex : ∀ n, known (.index n) = some n) {code : LabelledCode}
    (hother : ∀ i ∈ code, ∀ label, i.target? = some label → wanted label = false →
      ∃ n, resolveLabel entries printLine label = .ok n) (front : Code) :
    patchAll (resolveLabel entries printLine)
        ((waitingFrom front.length code).filter (wanted ·.2)) (front ++ code.map (·.map known)) =
      (fun _ => front ++ code.map (·.map (knownAfter entries printLine wanted known))) <$>
        orStop (link entries printLine code) := by
  induction code generalizing front with
  | nil => rfl
  | cons i code ih =>
    have hsplit := waitingFrom_append front.length [i] code
    rw [singleton_append, length_singleton] at hsplit
    rw [forall_mem_cons] at hother
    rw [hsplit, filter_append, patchAll_append, map_cons,
      patchAll_waiting_one hindex hother.1, link, mapM_cons]
    cases i.traverse (resolveLabel entries printLine) with
    | error => rfl
    | ok =>
      have hrest := ih hother.2 (front ++ [i.map (knownAfter entries printLine wanted known)])
      rw [length_append, length_singleton, append_assoc, append_assoc,
        singleton_append, singleton_append, link] at hrest
      show patchAll _ _ (front ++ i.map (knownAfter entries printLine wanted known) :: _) = _
      rw [hrest]
      cases code.mapM (·.traverse (resolveLabel entries printLine)) <;> rfl

end

/-- The calls get the targets that linking gives them. -/
theorem Draft.finish_ofCode (entries : List (MethodKey × Nat)) (printLine : Nat)
    (code : LabelledCode) :
    (Draft.ofCode entries code).finish printLine =
      (fun out => out.map (·.map some)) <$> orStop (link entries printLine code) := by
  have hothers : ∀ i ∈ code, ∀ label, i.target? = some label → label.isMethod = false →
      ∃ n, resolveLabel entries printLine label = .ok n := by
    intro i _ label _ hlabel
    cases label with
    | index n => exact ⟨n, rfl⟩
    | printLine => exact ⟨printLine, rfl⟩
    | method => cases hlabel
  have hcalls := @patchAll_waiting entries printLine Label.isMethod Label.known? (fun _ => rfl) code
    hothers []
  rw [nil_append, length_nil] at hcalls
  simp only [finish, ofCode, partition_eq_filter_filter, hcalls]
  cases hlink : link entries printLine code with
  | error _ => rfl
  | ok _ =>
    have hentered := callsEntered_of_link hlink
    have hprints := @patchAll_waiting entries printLine (fun label => !label.isMethod)
      (knownAfter entries printLine Label.isMethod Label.known?) (fun _ => rfl) code
      (fun i hi label ht _ => ⟨_, hentered.resolveLabel_eq printLine hi ht⟩) []
    rw [nil_append, length_nil, hlink] at hprints
    refine hprints.trans ?_
    rw [link_eq_ok hentered] at hlink
    cases hlink
    show Except.ok _ = Except.ok (List.map _ (List.map _ code))
    rw [map_map]
    congr 1
    refine map_congr_left fun i hi => ?_
    rw [Function.comp_apply, Instr.map_map]
    apply Instr.map_congr
    intro label ht
    have hresolve := hentered.resolveLabel_eq printLine hi ht
    unfold knownAfter
    cases hm : label.isMethod <;> simp [hm, hresolve, Except.toOption]

/-! ## Programs -/

/-- One pass gives the code of a program, or the fault for which it has none. -/
theorem emitProgram_eq (table : ClassTable) (main : MethodKey) (p : Program) :
    emitProgram table main p =
      (fun code => code.map (·.map some)) <$> orStop (programCode table main p) := by
  have hentry : Draft.empty.put (entryCode (.ofProgram p) main) =
      Draft.ofCode [] (entryCode (.ofProgram p) main) := Draft.put_ofCode [] [] _
  simp only [emitProgram, programCode, hentry, emitMethods_eq, orStop_bind, map_bind, bind_map_left,
    pure_bind, Draft.emitPrintLine_eq, Draft.here_ofCode, Draft.put_ofCode, Draft.finish_ofCode,
    nil_append, length_append]

end Lowering

end MiniJava
