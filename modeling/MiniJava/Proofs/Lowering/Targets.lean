import MiniJava.Lowering.Stmt
import MiniJava.Proofs.Results

/-!
# Where branches and calls go

The labels in the code of a body. A branch leads to an index inside the code of its own statement or
to the one right behind it (`codeWithin_stmtCode`), and a call goes to the printing routine or to a
method that the table of classes holds.
-/

namespace MiniJava

namespace Lowering

/-- A label of a routine whose code lies between two indices. -/
def LeadsWithin (table : ClassTable) (start stop : Nat) : Label → Prop
  | .index n => start ≤ n ∧ n ≤ stop
  | .method owner name =>
    ∃ className m, table.method? className name = some m ∧ m.owner = owner ∧
      ¬ (owner = ClassTable.printStreamClass ∧ name = ClassTable.printMethod)
  | .printLine => True

/-- All labels of the code are of this kind. -/
def CodeWithin (table : ClassTable) (start stop : Nat) (code : LabelledCode) : Prop :=
  ∀ i ∈ code, ∀ label, i.target? = some label → LeadsWithin table start stop label

variable {code : LabelledCode}

section

variable {table : ClassTable} {start stop : Nat}

@[simp]
theorem codeWithin_append {others : LabelledCode} :
    CodeWithin table start stop (code ++ others) ↔
      CodeWithin table start stop code ∧ CodeWithin table start stop others :=
  List.forall_mem_append

@[simp]
theorem codeWithin_cons {i : Instr Label} :
    CodeWithin table start stop (i :: code) ↔
      (∀ label, i.target? = some label → LeadsWithin table start stop label) ∧
        CodeWithin table start stop code :=
  List.forall_mem_cons

@[simp]
theorem codeWithin_nil : CodeWithin table start stop [] := nofun

@[simp]
theorem codeWithin_ops (os : List Op) : CodeWithin table start stop (Instr.ops os) := by
  intro _ hi _ ht
  obtain ⟨_, -, rfl⟩ := List.mem_map.mp hi
  cases ht

/-- A wider range holds the labels of a narrower one. -/
theorem codeWithin_mono {start' stop' : Nat} (h : CodeWithin table start stop code)
    (hstart : start' ≤ start) (hstop : stop ≤ stop') :
    CodeWithin table start' stop' code := by
  intro i hi label ht
  have hlabel := h i hi label ht
  cases label with
  | index => exact ⟨Nat.le_trans hstart hlabel.1, Nat.le_trans hlabel.2 hstop⟩
  | method => exact hlabel
  | printLine => trivial

@[simp]
theorem codeWithin_dropWords (n : Nat) : CodeWithin table start stop (dropWords n) := by
  unfold dropWords
  split
  next => exact codeWithin_nil
  next => exact codeWithin_ops _

@[simp]
theorem codeWithin_leave : CodeWithin table start stop Routine.leave := by
  simp [Routine.leave, Instr.target?]

@[simp]
theorem codeWithin_enter : CodeWithin table start stop Routine.enter := codeWithin_ops _

end

/-! ## References and calls -/

namespace Site

variable {site : Site} {r : Ref} {className name : String}

/-- The code of a static field takes its word, and that of another field computes its object. -/
theorem fieldCode_eq_ok {object : Result LabelledCode}
    (h : site.fieldCode r className name object = .ok code) :
    ∃ f, site.table.field? className name = some f ∧
      ((f.isStatic = true ∧ ∃ disp, site.statics.displacement? className name = some disp ∧
          code = Instr.ops [.lea .rax (memAt .r15 disp), .pushReg .rax]) ∨
        (f.isStatic = false ∧ ∃ (offset : Nat) (inner : LabelledCode),
          (site.table.class? className).bind (·.fieldOffset? name) = some offset ∧
          object = .ok inner ∧
          code = inner ++ Instr.ops [.popReg .rax, .lea .rax (memAt .rax offset),
            .pushReg .rax])) := by
  unfold fieldCode at h
  split at h
  next => cases h
  next f hf =>
    refine ⟨f, hf, ?_⟩
    split at h
    next hs =>
      split at h
      next => cases h
      next disp hdisp =>
        cases h
        exact .inl ⟨hs, disp, hdisp, rfl⟩
    next hs =>
      split at h
      next => cases h
      next offset hoffset =>
        obtain ⟨inner, hinner, ⟨⟩⟩ := bind_eq_ok.mp h
        exact .inr ⟨by simpa using hs, offset, inner, hoffset, hinner, rfl⟩

/-- A call goes to the printing routine, to a static method, or to a method with a receiver. -/
theorem calleeIn_eq_ok {receiver : Result LabelledCode} {callee : Callee}
    (h : site.calleeIn r className name receiver = .ok callee) :
    ∃ m, site.table.method? className name = some m ∧
      (((m.owner = ClassTable.printStreamClass ∧ name = ClassTable.printMethod) ∧
          callee = ⟨.printLine, [], 0⟩) ∨
        (¬ (m.owner = ClassTable.printStreamClass ∧ name = ClassTable.printMethod) ∧
          ((m.isStatic = true ∧ callee = ⟨.method m.owner name, [], 0⟩) ∨
            (m.isStatic = false ∧ ∃ code, receiver = .ok code ∧
              callee = ⟨.method m.owner name, code, 1⟩)))) := by
  unfold calleeIn at h
  split at h
  next => cases h
  next m hm =>
    refine ⟨m, hm, ?_⟩
    split at h
    next hprint =>
      cases h
      exact .inl ⟨by simpa using hprint, rfl⟩
    next hprint =>
      refine .inr ⟨by simpa using hprint, ?_⟩
      split at h
      next hs =>
        cases h
        exact .inl ⟨hs, rfl⟩
      next hs =>
        obtain ⟨code, hcode, ⟨⟩⟩ := bind_eq_ok.mp h
        exact .inr ⟨by simpa using hs, code, hcode, rfl⟩

end Site

/-- A property that the code of references has: its pieces have it, and it is kept where one of them
is put behind others. -/
structure RefClosed (P : LabelledCode → Prop) : Prop where
  receiver (src : Mem) : P (Instr.ops [.pushMem src])
  address (src : Mem) : P (Instr.ops [.lea .rax src, .pushReg .rax])
  field {code : LabelledCode} (h : P code) (src : Mem) :
    P (code ++ Instr.ops [.popReg .rax, .lea .rax src, .pushReg .rax])
  read {code : LabelledCode} (h : P code) : P (code ++ readAddress)

namespace RefClosed

variable {P : LabelledCode → Prop} {site : Site} {slots : ScopeStack Slot} {r : Ref}
  (hP : RefClosed P)
include hP

theorem receiverCode {span : Span} (h : site.receiverCode span = .ok code) : P code := by
  unfold Site.receiverCode at h
  split at h
  next => cases h; exact hP.receiver _
  next => cases h

theorem fieldCode {className name : String} {object : Result LabelledCode}
    (hobject : ∀ code, object = .ok code → P code)
    (h : site.fieldCode r className name object = .ok code) : P code := by
  obtain ⟨_, -, ⟨-, _, -, rfl⟩ | ⟨-, _, base, -, hbase, rfl⟩⟩ := Site.fieldCode_eq_ok h
  · exact hP.address _
  · exact hP.field (hobject base hbase) _

theorem readTop {found : LabelledCode × Top} (h : P found.1) : P (readTop found) := by
  obtain ⟨_, top⟩ := found
  cases top with
  | address => exact hP.read h
  | value => exact h

theorem refCode {found : LabelledCode × Top} (h : site.refCode slots r = .ok found) :
    P found.1 := by
  induction r generalizing found with
  | this =>
    obtain ⟨_, hcode, ⟨⟩⟩ := bind_eq_ok.mp h
    exact hP.receiverCode hcode
  | name =>
    unfold Site.refCode at h
    split at h
    next => cases h; exact hP.address _
    next =>
      obtain ⟨_, hcode, ⟨⟩⟩ := bind_eq_ok.mp h
      exact hP.fieldCode (fun _ => hP.receiverCode) hcode
  | member _ _ _ ih =>
    obtain ⟨_, -, _, hcode, ⟨⟩⟩ := bind₂_eq_ok.mp h
    refine hP.fieldCode (fun object hobject => ?_) hcode
    obtain ⟨_, hfound, rfl⟩ := map_eq_ok.mp hobject
    exact hP.readTop (ih hfound)

theorem valueCode (h : site.valueCode slots r = .ok code) : P code := by
  obtain ⟨_, hfound, rfl⟩ := map_eq_ok.mp h
  exact hP.readTop (hP.refCode hfound)

theorem targetCode (h : site.targetCode slots r = .ok code) : P code := by
  obtain ⟨⟨_, top⟩, hfound, h⟩ := bind_eq_ok.mp h
  cases top with
  | address => cases h; exact hP.refCode hfound
  | value => cases h

/-- What is called has no receiver, or one whose code has the property. -/
theorem callee {callee : Callee} (h : site.callee slots r = .ok callee) :
    (callee.receiverWords = 0 ∧ callee.receiver = []) ∨
      (callee.receiverWords = 1 ∧ P callee.receiver) := by
  have hcallee {className name : String} {receiver : Result LabelledCode}
      (hreceiver : ∀ code, receiver = .ok code → P code)
      (h : site.calleeIn r className name receiver = .ok callee) :
      (callee.receiverWords = 0 ∧ callee.receiver = []) ∨
        (callee.receiverWords = 1 ∧ P callee.receiver) := by
    obtain ⟨_, -, ⟨-, rfl⟩ | ⟨-, ⟨-, rfl⟩ | ⟨-, code, hcode, rfl⟩⟩⟩ := Site.calleeIn_eq_ok h
    · exact .inl ⟨rfl, rfl⟩
    · exact .inl ⟨rfl, rfl⟩
    · exact .inr ⟨rfl, hreceiver code hcode⟩
  cases r with
  | this => cases h
  | name => exact hcallee (fun _ => hP.receiverCode) h
  | member =>
    obtain ⟨_, -, h⟩ := bind_eq_ok.mp h
    exact hcallee (fun _ => hP.valueCode) h

end RefClosed

theorem refClosed_codeWithin (table : ClassTable) (start stop : Nat) :
    RefClosed (CodeWithin table start stop) where
  receiver _ := codeWithin_ops _
  address _ := codeWithin_ops _
  field h _ := codeWithin_append.mpr ⟨h, codeWithin_ops _⟩
  read h := codeWithin_append.mpr ⟨h, codeWithin_ops _⟩

namespace Site

variable {site : Site} {slots : ScopeStack Slot} {start stop : Nat} {r : Ref} {callee : Callee}

theorem leadsWithin_calleeIn {className name : String} {receiver : Result LabelledCode}
    (h : site.calleeIn r className name receiver = .ok callee) :
    LeadsWithin site.table start stop callee.label := by
  obtain ⟨m, hm, ⟨-, rfl⟩ | ⟨hprint, ⟨-, rfl⟩ | ⟨-, _, -, rfl⟩⟩⟩ := calleeIn_eq_ok h
  · trivial
  · exact ⟨className, m, hm, rfl, hprint⟩
  · exact ⟨className, m, hm, rfl, hprint⟩

theorem leadsWithin_callee (h : site.callee slots r = .ok callee) :
    LeadsWithin site.table start stop callee.label := by
  cases r with
  | this => cases h
  | name => exact leadsWithin_calleeIn h
  | member =>
    obtain ⟨_, -, h⟩ := bind_eq_ok.mp h
    exact leadsWithin_calleeIn h

theorem codeWithin_call (h : site.callee slots r = .ok callee) {args : LabelledCode}
    (hargs : CodeWithin site.table start stop args) (count : Nat) :
    CodeWithin site.table start stop (callee.call args count) := by
  have hlabel : LeadsWithin site.table start stop callee.label := leadsWithin_callee h
  have hreceiver : CodeWithin site.table start stop callee.receiver := by
    obtain ⟨-, hnil⟩ | ⟨-, hreceiver⟩ := (refClosed_codeWithin site.table start stop).callee h
    · exact hnil ▸ codeWithin_nil
    · exact hreceiver
  simp [Callee.call, hreceiver, hargs, Instr.target?, hlabel]

/-! ## Expressions -/

mutual

/-- The code of an expression leaves it only by calls. -/
theorem codeWithin_exprCode (e : Expr) {code : LabelledCode}
    (h : site.exprCode slots e = .ok code) : CodeWithin site.table start stop code := by
  cases e with
  | literal | newObject =>
    cases h
    simp [Routine.allocate, pushResult]
  | unary _ op operand =>
    obtain ⟨_, hfirst, ⟨⟩⟩ := bind_eq_ok.mp h
    have hoperand := codeWithin_exprCode operand hfirst
    cases op <;> simp [hoperand, unaryCode, pushResult]
  | binary _ op left right =>
    obtain ⟨_, hfirst, _, hsecond, ⟨⟩⟩ := bind₂_eq_ok.mp h
    have hleft := codeWithin_exprCode left hfirst
    have hright := codeWithin_exprCode right hsecond
    cases op <;> simp [hleft, hright, binaryCode, compareCode, pushResult]
  | ref => exact (refClosed_codeWithin _ _ _).valueCode h
  | index _ _ position =>
    obtain ⟨_, harray, _, hindex, ⟨⟩⟩ := bind₂_eq_ok.mp h
    have hposition := codeWithin_exprCode position hindex
    simp [(refClosed_codeWithin _ _ _).valueCode harray, hposition, elementAddress, pushResult]
  | call _ _ args =>
    obtain ⟨_, hcallee, _, hvalues, ⟨⟩⟩ := bind₂_eq_ok.mp h
    have hargs := codeWithin_argsCode args hvalues
    simp [codeWithin_call hcallee hargs, pushResult]
  | newArray _ _ size =>
    obtain ⟨_, hfirst, ⟨⟩⟩ := bind_eq_ok.mp h
    have hsize := codeWithin_exprCode size hfirst
    simp [hsize, Routine.allocate, pushResult]

theorem codeWithin_argsCode (es : List Expr) {code : LabelledCode}
    (h : site.argsCode slots es = .ok code) : CodeWithin site.table start stop code := by
  cases es with
  | nil => cases h; exact codeWithin_nil
  | cons e es =>
    obtain ⟨_, hfirst, _, hothers, ⟨⟩⟩ := bind₂_eq_ok.mp h
    exact codeWithin_append.mpr ⟨codeWithin_exprCode e hfirst, codeWithin_argsCode es hothers⟩

end

theorem codeWithin_conditionCode {test : Expr} (h : site.conditionCode slots test = .ok code) :
    CodeWithin site.table start stop code := by
  obtain ⟨_, hfirst, ⟨⟩⟩ := bind_eq_ok.mp h
  exact codeWithin_append.mpr ⟨codeWithin_exprCode test hfirst, codeWithin_ops _⟩

/-! ## Statements -/

mutual

/-- The labels in the code of a statement lead into that code or right behind it. -/
theorem codeWithin_stmtCode (st : Stmt) {start : Nat} {frame frame' : Frame}
    {code : LabelledCode} (h : site.stmtCode start frame st = .ok (code, frame')) :
    CodeWithin site.table start (start + code.length) code := by
  cases st with
  | block _ body =>
    obtain ⟨⟨_, _⟩, hinner, ⟨⟩⟩ := bind_eq_ok.mp h
    refine codeWithin_append.mpr ⟨?_, codeWithin_dropWords _⟩
    -- The words of the block are dropped behind its code, so the targets are still inside.
    refine codeWithin_mono (codeWithin_stmtsCode body hinner) (Nat.le_refl _) ?_
    rw [List.length_append]
    omega
  | declare _ _ _ init =>
    obtain ⟨_, hfirst, ⟨⟩⟩ := bind_eq_ok.mp h
    exact codeWithin_exprCode init hfirst
  | assign _ _ value =>
    obtain ⟨_, haddress, _, hfirst, ⟨⟩⟩ := bind₂_eq_ok.mp h
    simp [(refClosed_codeWithin _ _ _).targetCode haddress, codeWithin_exprCode value hfirst]
  | assignIndex _ _ position value =>
    obtain ⟨_, harray, _, hindex, _, hfirst, ⟨⟩⟩ := bind₃_eq_ok.mp h
    simp [(refClosed_codeWithin _ _ _).valueCode harray, codeWithin_exprCode position hindex,
      codeWithin_exprCode value hfirst, elementAddress]
  | call _ _ args =>
    obtain ⟨_, hfirst, ⟨⟩⟩ := bind_eq_ok.mp h
    obtain ⟨_, hcallee, _, hvalues, ⟨⟩⟩ := bind₂_eq_ok.mp hfirst
    exact codeWithin_call hcallee (codeWithin_argsCode args hvalues) _
  | ret _ value =>
    cases value with
    | none => cases h; exact codeWithin_leave
    | some value =>
      obtain ⟨_, hfirst, ⟨⟩⟩ := bind_eq_ok.mp h
      simp [codeWithin_exprCode value hfirst]
  | ifThen _ _ thenBranch =>
    obtain ⟨_, hcondition, ⟨_, _⟩, hinner, ⟨⟩⟩ := bind₂_eq_ok.mp h
    have hbranch := codeWithin_stmtCode thenBranch hinner
    simp only [codeWithin_append, codeWithin_cons, List.length_append, List.length_cons,
      List.length_nil]
    refine ⟨⟨codeWithin_conditionCode hcondition, ?_, codeWithin_nil⟩,
      codeWithin_mono hbranch (by omega) (by omega)⟩
    rintro label ⟨⟩
    exact ⟨by omega, by omega⟩
  | ifThenElse _ _ thenBranch elseBranch =>
    obtain ⟨_, hcondition, ⟨_, _⟩, hfirst, h⟩ := bind₂_eq_ok.mp h
    obtain ⟨⟨_, _⟩, hsecond, ⟨⟩⟩ := bind_eq_ok.mp h
    have hthen := codeWithin_stmtCode thenBranch hfirst
    have helse := codeWithin_stmtCode elseBranch hsecond
    simp only [codeWithin_append, codeWithin_cons, List.length_append, List.length_cons,
      List.length_nil]
    refine ⟨⟨⟨⟨codeWithin_conditionCode hcondition, ?_, codeWithin_nil⟩,
      codeWithin_mono hthen (by omega) (by omega)⟩, ?_, codeWithin_nil⟩,
      codeWithin_mono helse (by omega) (by omega)⟩
    · rintro label ⟨⟩
      exact ⟨by omega, by omega⟩
    · rintro label ⟨⟩
      exact ⟨by omega, by omega⟩
  | loop _ _ body =>
    obtain ⟨_, hcondition, ⟨_, _⟩, hinner, ⟨⟩⟩ := bind₂_eq_ok.mp h
    have hbody := codeWithin_stmtCode body hinner
    simp only [codeWithin_append, codeWithin_cons, List.length_append, List.length_cons,
      List.length_nil]
    -- One branch leads out of the loop, and the other one back to its condition.
    refine ⟨⟨⟨codeWithin_conditionCode hcondition, ?_, codeWithin_nil⟩,
      codeWithin_mono hbody (by omega) (by omega)⟩, ?_, codeWithin_nil⟩
    · rintro _ ⟨⟩
      exact ⟨by omega, by omega⟩
    · rintro _ ⟨⟩
      exact ⟨by omega, by omega⟩

theorem codeWithin_stmtsCode (ss : List Stmt) {start : Nat} {frame frame' : Frame}
    {code : LabelledCode} (h : site.stmtsCode start frame ss = .ok (code, frame')) :
    CodeWithin site.table start (start + code.length) code := by
  cases ss with
  | nil => cases h; exact codeWithin_nil
  | cons st ss =>
    obtain ⟨⟨_, _⟩, hfirst, h⟩ := bind_eq_ok.mp h
    obtain ⟨⟨_, _⟩, hothers, ⟨⟩⟩ := bind_eq_ok.mp h
    rw [codeWithin_append, List.length_append]
    exact ⟨codeWithin_mono (codeWithin_stmtCode st hfirst) (by omega) (by omega),
      codeWithin_mono (codeWithin_stmtsCode ss hothers) (by omega) (by omega)⟩

end

end Site

end Lowering

end MiniJava
