import MiniJava.Proofs.Lowering.Tracking
import MiniJava.Proofs.Typing.Calls

/-!
# The call instructions of a body

The calls that are written in a body and the call instructions of its code, side by side: lowering
makes one call instruction of each call, in the order in which the calls are carried out, and no
other.

What the code around a call instruction does to the stack is said by `Pushes` and `Drops`.
-/

namespace MiniJava

open List

/-- Where a call goes. -/
def Instr.callee? {α : Type} : Instr α → Option α
  | .call t => some t
  | _ => none

/-- The last name of a reference. -/
def Ref.lastName? : Ref → Option String
  | .this _ => none
  | .name _ text => some text
  | .member _ _ field => some field.value

namespace Lowering

/-! ## What code does to the stack -/

/-- Wherever the code stands, it is gone through from its beginning to its end, and then there is a
number of words on the stack above those that were there before, which it does not touch. -/
def Pushes (code : LabelledCode) (words : Nat) : Prop :=
  ∀ (start : Nat) (d : Int), Path start code (start, d) (start + code.length, d + words) ∧
    ∀ k e, Path start code (start, d) (k, e) → d ≤ e

/-- Wherever the code stands, it is gone through from its beginning to its end, and then a number of
words is gone from the stack. -/
def Drops (code : LabelledCode) (words : Nat) : Prop :=
  ∀ (start : Nat) (d : Int), Path start code (start, d + words) (start + code.length, d)

theorem pushes_of_straight {code : LabelledCode} {words : Nat}
    (h : ∀ d, Straight d code d (d + words)) : Pushes code words := by
  intro start d
  refine ⟨(h d).path start, ?_⟩
  intro k e hpath
  exact (h d).le_of_path (by omega) hpath

theorem drops_dropWords {words : Nat} (h : FitsImmediate words) : Drops (dropWords words) words :=
  fun start _ => (straight_dropWords h).path start

/-! ## Code without calls -/

/-- The code has no call instruction. -/
def Silent (code : LabelledCode) : Prop := ∀ i ∈ code, i.callee? = none

@[simp]
theorem silent_append {code others : LabelledCode} :
    Silent (code ++ others) ↔ Silent code ∧ Silent others := forall_mem_append

@[simp]
theorem silent_cons {i : Instr Label} {code : LabelledCode} :
    Silent (i :: code) ↔ i.callee? = none ∧ Silent code := forall_mem_cons

@[simp]
theorem silent_nil : Silent [] := nofun

@[simp]
theorem silent_ops (os : List Op) : Silent (Instr.ops os) := by
  intro i hi
  obtain ⟨_, -, rfl⟩ := mem_map.mp hi
  rfl

@[simp]
theorem silent_dropWords (n : Nat) : Silent (dropWords n) := by
  unfold dropWords
  split
  next => exact silent_nil
  next => exact silent_ops _

@[simp]
theorem silent_leave : Silent Routine.leave := by
  simp [Routine.leave, Instr.callee?]

variable {callee : Callee} {r : Ref} {className name : String} {start : Nat}

namespace Site

variable {site : Site} {slots : ScopeStack Slot}

theorem refClosed_silent : RefClosed Silent where
  receiver _ := silent_ops _
  address _ := silent_ops _
  field h _ := silent_append.mpr ⟨h, silent_ops _⟩
  read h := silent_append.mpr ⟨h, silent_ops _⟩

theorem silent_callee (h : site.callee slots r = .ok callee) : Silent callee.receiver := by
  obtain ⟨-, hnil⟩ | ⟨-, hreceiver⟩ := refClosed_silent.callee h
  · exact hnil ▸ silent_nil
  · exact hreceiver

/-- The code of arguments is the code of each, one behind the other. -/
theorem argsCode_eq_ok {es : List Expr} {code : LabelledCode}
    (h : site.argsCode slots es = .ok code) :
    ∃ values, List.Forall₂ (fun e own => site.exprCode slots e = .ok own) es values ∧
      code = values.flatten := by
  induction es generalizing code with
  | nil =>
    cases h
    exact ⟨[], .nil, rfl⟩
  | cons _ _ ih =>
    obtain ⟨first, hfirst, _, hothers, ⟨⟩⟩ := bind₂_eq_ok.mp h
    obtain ⟨values, hvalues, rfl⟩ := ih hothers
    exact ⟨first :: values, .cons hfirst hvalues, rfl⟩

end Site

/-! ## Calls -/

/-- The code of a call in parts. -/
structure CallParts where
  callee : Callee
  /-- The code of each argument. -/
  values : List LabelledCode

namespace CallParts

/-- What stands in front of the call instruction. -/
def front (parts : CallParts) : LabelledCode := parts.callee.receiver ++ parts.values.flatten

/-- The number of words that are there for the call. -/
def words (parts : CallParts) : Nat := parts.callee.receiverWords + parts.values.length

/-- All code of the call. -/
def code (parts : CallParts) : LabelledCode :=
  parts.front ++ [.call parts.callee.label] ++ dropWords parts.words

end CallParts

/-- These are the parts that lowering makes of a call, with the same variables in scope as
typing. -/
structure LowersCall (b : Body) (slots : ScopeStack Slot) (c : Typing.Call) (parts : CallParts) :
    Prop where
  types : slots.map (·.type) = c.types
  callee : b.lowering.callee slots c.method = .ok parts.callee
  /-- Typing and lowering have found the same method. -/
  same : ∃ className name entry, c.method.lastName? = some name ∧
    (b.typing.env c.types).entity? c.method = some (.method entry) ∧
    b.lowering.CallsMethod slots c.method className name entry
  values : List.Forall₂ (fun e own => b.lowering.exprCode slots e = .ok own) c.args parts.values
  fits : FitsImmediate (max c.args.length (Expr.mostArgsOf c.args) + 1)

/-- The parts of a call stand in code whose first instruction has index `start`, with the call
instruction at an index and with a label. -/
def CallParts.StandsIn (parts : CallParts) (start : Nat) (code : LabelledCode) (x : Nat × Label) :
    Prop :=
  ∃ front back, code = front ++ parts.code ++ back ∧
    x = (start + front.length + parts.front.length, parts.callee.label)

/-- The call instructions of code, each with its index and its label. -/
def callsFrom (start : Nat) (code : LabelledCode) : List (Nat × Label) :=
  (code.zipIdx start).filterMap fun (i, k) => i.callee?.map fun label => (k, label)

/-- The call instructions of the code belong to these calls. -/
def Emits (b : Body) (start : Nat) (code : LabelledCode) (calls : List Typing.Call) : Prop :=
  List.Forall₂ (fun x c => ∃ slots parts, LowersCall b slots c parts ∧ parts.StandsIn start code x)
    (callsFrom start code) calls

theorem callsFrom_append (start : Nat) (code others : LabelledCode) :
    callsFrom start (code ++ others) =
      callsFrom start code ++ callsFrom (start + code.length) others := by
  rw [callsFrom, zipIdx_append, filterMap_append]
  rfl

theorem callsFrom_of_silent {code : LabelledCode} (h : Silent code) (start : Nat) :
    callsFrom start code = [] := by
  rw [callsFrom, filterMap_eq_nil_iff]
  rintro ⟨i, k⟩ hi
  show i.callee?.map _ = none
  rw [h i (fst_mem_of_mem_zipIdx hi)]
  rfl

theorem CallParts.StandsIn.inside {parts : CallParts} {start' : Nat} {code whole : LabelledCode}
    {x : Nat × Label} (h : parts.StandsIn start' code x) (front back : LabelledCode)
    (hwhole : whole = front ++ code ++ back) (hstart : start' = start + front.length) :
    parts.StandsIn start whole x := by
  obtain ⟨before, behind, rfl, rfl⟩ := h
  refine ⟨front ++ before, behind ++ back, ?_, ?_⟩
  · rw [hwhole]
    simp only [append_assoc]
  · rw [hstart, length_append, Nat.add_assoc start]

namespace Emits

variable {b : Body} {start : Nat} {code others : LabelledCode} {calls otherCalls : List Typing.Call}

theorem append (h : Emits b start code calls)
    (h' : Emits b (start + code.length) others otherCalls) :
    Emits b start (code ++ others) (calls ++ otherCalls) := by
  rw [Emits, callsFrom_append]
  refine rel_append (h.imp ?_) (h'.imp ?_)
  · rintro x c ⟨slots, parts, hlowers, hstands⟩
    exact ⟨slots, parts, hlowers, hstands.inside [] others rfl rfl⟩
  · rintro x c ⟨slots, parts, hlowers, hstands⟩
    exact ⟨slots, parts, hlowers, hstands.inside code [] (append_nil _).symm rfl⟩

theorem of_silent (h : Silent code) : Emits b start code [] := by
  rw [Emits, callsFrom_of_silent h]
  exact .nil

theorem append_silent (h : Emits b start code calls) (h' : Silent others) :
    Emits b start (code ++ others) calls := by
  have hboth := h.append (of_silent h')
  rwa [append_nil] at hboth

theorem silent_append (h : Silent code) (h' : Emits b (start + code.length) others calls) :
    Emits b start (code ++ others) calls :=
  (of_silent h).append h'

/-- Code that is passed over if a condition holds. -/
theorem guarded {condition : LabelledCode}
    (hcondition : Emits b start condition calls) (cond : Cond)
    (target : Label) (hcode : Emits b (start + condition.length + 1) code otherCalls) :
    Emits b start (condition ++ [.jumpIf cond target] ++ code) (calls ++ otherCalls) := by
  refine (hcondition.append_silent (silent_cons.mpr ⟨rfl, silent_nil⟩)).append ?_
  rw [length_append, length_singleton, ← Nat.add_assoc]
  exact hcode

/-- A call comes behind those inside of its arguments. -/
theorem call {slots : ScopeStack Slot} {parts : CallParts} {c : Typing.Call}
    (hlowers : LowersCall b slots c parts)
    (hargs : Emits b (start + parts.callee.receiver.length) parts.values.flatten calls) :
    Emits b start parts.code (calls ++ [c]) := by
  have hfront : Emits b start parts.front calls :=
    silent_append (Site.silent_callee hlowers.callee) hargs
  -- Words are dropped without a call, so behind the arguments there is one call instruction.
  have hcalls : callsFrom start parts.code =
      callsFrom start parts.front ++ [(start + parts.front.length, parts.callee.label)] := by
    rw [CallParts.code, callsFrom_append, callsFrom_append,
      callsFrom_of_silent (silent_dropWords _), append_nil]
    rfl
  rw [Emits, hcalls]
  refine rel_append (hfront.imp ?_) (.cons ⟨slots, parts, hlowers, [], [], ?_, rfl⟩ .nil)
  · rintro x c ⟨slots, inner, hlowers, hstands⟩
    exact ⟨slots, inner, hlowers, hstands.inside [] _ (append_assoc _ _ _) rfl⟩
  · rw [append_nil, nil_append]

end Emits

/-! ## The stack around a call -/

section

variable {b : Body} {slots : ScopeStack Slot} {c : Typing.Call} {parts : CallParts}

theorem mostArgs_le_of_mem {e : Expr} {es : List Expr} (h : e ∈ es) :
    e.mostArgs ≤ Expr.mostArgsOf es := by
  induction es with
  | nil => cases h
  | cons _ _ ih =>
    rcases mem_cons.mp h with rfl | h
    · exact Nat.le_max_left _ _
    · exact (ih h).trans (Nat.le_max_right _ _)

theorem straight_values {values : List LabelledCode}
    (h : ∀ own ∈ values, ∀ d, Straight d own d (d + 1)) (d : Int) :
    Straight d values.flatten d (d + values.length) := by
  induction values generalizing d with
  | nil =>
    rw [length_nil, Nat.cast_zero, Int.add_zero]
    exact .nil
  | cons _ values ih =>
    obtain ⟨hfirst, hothers⟩ := forall_mem_cons.mp h
    rw [length_cons, Nat.cast_succ, Int.add_comm (values.length : Int), ← Int.add_assoc]
    exact (hfirst d).append_above (ih hothers (d + 1)) (by omega)

namespace LowersCall

variable (h : LowersCall b slots c parts)
include h

theorem length_values : parts.values.length = c.args.length := h.values.length_eq.symm

/-- Each argument leaves a word. -/
theorem straight_of_mem {own : LabelledCode} (hown : own ∈ parts.values) (d : Int) :
    Straight d own d (d + 1) := by
  obtain ⟨e, he, hcode⟩ : ∃ e ∈ c.args, b.lowering.exprCode slots e = .ok own := by
    obtain ⟨i, hi, rfl⟩ := mem_iff_getElem.mp hown
    have hi' : i < c.args.length := h.length_values ▸ hi
    exact ⟨c.args[i], getElem_mem hi', (forall₂_iff_get.mp h.values).2 i hi' hi⟩
  have hle : e.mostArgs ≤ Expr.mostArgsOf c.args := mostArgs_le_of_mem he
  exact Site.straight_exprCode e hcode
    (h.fits.mono (Nat.succ_le_succ (hle.trans (Nat.le_max_right _ _)))) d

theorem pushes_value {own : LabelledCode} (hown : own ∈ parts.values) : Pushes own 1 :=
  pushes_of_straight fun d => h.straight_of_mem hown d

theorem receiverWords_le : parts.callee.receiverWords ≤ 1 :=
  (Site.straight_callee (d := 0) h.callee).1

theorem pushes_receiver : Pushes parts.callee.receiver parts.callee.receiverWords :=
  pushes_of_straight fun _ => (Site.straight_callee h.callee).2

/-- In front of an argument there are the receiver and the arguments before it. -/
theorem pushes_take (i : Nat) (hi : i ≤ parts.values.length) :
    Pushes (parts.callee.receiver ++ (parts.values.take i).flatten)
      (parts.callee.receiverWords + i) := by
  refine pushes_of_straight fun d => ?_
  have hreceiver := (Site.straight_callee (d := d) h.callee).2
  have htaken : ∀ own ∈ parts.values.take i, ∀ d, Straight d own d (d + 1) :=
    fun own hown => h.straight_of_mem (mem_of_mem_take hown)
  have hvalues := straight_values htaken (d + parts.callee.receiverWords)
  rw [length_take, Nat.min_eq_left hi] at hvalues
  rw [Nat.cast_add, ← Int.add_assoc]
  exact hreceiver.append_above hvalues (by omega)

theorem pushes_front : Pushes parts.front parts.words := by
  have hall := h.pushes_take parts.values.length (Nat.le_refl _)
  rwa [take_length] at hall

theorem drops : Drops (dropWords parts.words) parts.words := by
  refine drops_dropWords (h.fits.mono ?_)
  have hreceiver := h.receiverWords_le
  have hlength := h.length_values
  have hmax := Nat.le_max_left c.args.length (Expr.mostArgsOf c.args)
  unfold CallParts.words
  omega

end LowersCall

end

/-! ## Expressions -/

section

variable {b : Body} {locals : ScopeStack LocalVar} {types : ScopeStack Ty} {slots : ScopeStack Slot}

/-- The name under which a member is looked for is the last one of the reference. -/
theorem lastName?_of_memberOf? {site : Identification.Site}
    (h : site.memberOf? locals r = some (className, name)) : r.lastName? = some name := by
  cases r with
  | this => cases h
  | name =>
    cases h
    rfl
  | member =>
    rw [Identification.Site.memberOf?] at h
    split at h
    next =>
      cases h
      rfl
    next => cases h

theorem lowersCall_of_checkCallee (hstatics : b.StaticsPlaced)
    (hsame : SameVariables locals types slots) (hslots : slots.map (·.type) = types) {method : Ref}
    {args : List Expr} (hmethod : b.naming.checkCallee locals method = .ok ())
    (hcallee : b.lowering.callee slots method = .ok callee) {values : List LabelledCode}
    (hvalues : List.Forall₂ (fun e own => b.lowering.exprCode slots e = .ok own) args values)
    (hfit : FitsImmediate (max args.length (Expr.mostArgsOf args) + 1)) :
    LowersCall b slots ⟨types, method, args⟩ ⟨callee, values⟩ := by
  refine ⟨hslots, hcallee, ?_, hvalues, hfit⟩
  -- What identification has resolved, typing and lowering find again.
  obtain ⟨referent, hresolve, hmethod⟩ := bind_eq_ok.mp hmethod
  have hdenotes := (denotes_of_resolve hstatics hsame hresolve).1
  cases referent with
  | method =>
    obtain ⟨className, name, entry, hmember, hentity, hcalls⟩ := hdenotes
    exact ⟨className, name, entry, lastName?_of_memberOf? hmember, hentity, hcalls⟩
  | this | «variable» | field | classNamed => cases hmethod

/-- A call, given the calls inside of its arguments. -/
theorem emits_call (hstatics : b.StaticsPlaced) (hsame : SameVariables locals types slots)
    (hslots : slots.map (·.type) = types) {method : Ref} {args : List Expr}
    (hmethod : b.naming.checkCallee locals method = .ok ())
    (hcallee : b.lowering.callee slots method = .ok callee) {values : LabelledCode}
    (hvalues : b.lowering.argsCode slots args = .ok values)
    (hfit : FitsImmediate (max args.length (Expr.mostArgsOf args) + 1))
    (hargs : Emits b (start + callee.receiver.length) values (Expr.allCalls types args)) :
    Emits b start (callee.call values args.length)
      (Expr.allCalls types args ++ [⟨types, method, args⟩]) := by
  obtain ⟨_, hparts, rfl⟩ := Site.argsCode_eq_ok hvalues
  rw [hparts.length_eq]
  exact Emits.call (lowersCall_of_checkCallee hstatics hsame hslots hmethod hcallee hparts hfit)
    hargs

mutual

/-- The call instructions of an expression are those of its calls. -/
theorem emits_exprCode (hstatics : b.StaticsPlaced)
    (hsame : SameVariables locals types slots) (hslots : slots.map (·.type) = types) (e : Expr)
    (hcheck : b.naming.checkExpr locals e = .ok ()) {code : LabelledCode}
    (hcode : b.lowering.exprCode slots e = .ok code) (hfit : FitsImmediate (e.mostArgs + 1))
    (start : Nat) : Emits b start code (e.calls types) := by
  cases e with
  | literal | newObject =>
    cases hcode
    exact .of_silent (by simp [Routine.allocate, pushResult])
  | unary _ op operand =>
    obtain ⟨_, hfirst, ⟨⟩⟩ := bind_eq_ok.mp hcode
    have hoperand := emits_exprCode hstatics hsame hslots operand hcheck hfirst hfit start
    have hoperator : Silent (unaryCode op) := by cases op <;> exact silent_ops _
    exact ((hoperand.append_silent (silent_ops _)).append_silent hoperator).append_silent
      (silent_ops _)
  | binary _ op left right =>
    obtain ⟨⟨⟩, hcheckLeft, hcheckRight⟩ := bind_eq_ok.mp hcheck
    obtain ⟨first, hfirst, _, hsecond, ⟨⟩⟩ := bind₂_eq_ok.mp hcode
    have hleft := emits_exprCode hstatics hsame hslots left hcheckLeft hfirst hfit.left start
    have hright := emits_exprCode hstatics hsame hslots right hcheckRight hsecond
      hfit.right (start + first.length)
    exact (((hleft.append hright).append_silent (silent_ops _)).append_silent
      (by cases op <;> exact silent_ops _)).append_silent (silent_ops _)
  | ref => exact .of_silent (Site.refClosed_silent.valueCode hcode)
  | index _ _ position =>
    obtain ⟨⟨⟩, -, hcheckPosition⟩ := bind_eq_ok.mp hcheck
    obtain ⟨array, harray, _, hindex, ⟨⟩⟩ := bind₂_eq_ok.mp hcode
    have hposition := emits_exprCode hstatics hsame hslots position hcheckPosition hindex hfit
      (start + array.length)
    exact ((((Emits.silent_append (Site.refClosed_silent.valueCode harray) hposition).append_silent
      (silent_ops _)).append_silent (silent_ops _)).append_silent (silent_ops _)).append_silent
      (silent_ops _)
  | call _ _ args =>
    obtain ⟨⟨⟩, hmethod, hcheckArgs⟩ := bind_eq_ok.mp hcheck
    obtain ⟨callee, hcallee, _, hvalues, ⟨⟩⟩ := bind₂_eq_ok.mp hcode
    have hargs := emits_argsCode hstatics hsame hslots args hcheckArgs hvalues
      hfit.right (start + callee.receiver.length)
    exact (emits_call hstatics hsame hslots hmethod hcallee hvalues hfit hargs).append_silent
      (silent_ops _)
  | newArray _ _ size =>
    obtain ⟨⟨⟩, -, hcheckSize⟩ := bind_eq_ok.mp hcheck
    obtain ⟨_, hfirst, ⟨⟩⟩ := bind_eq_ok.mp hcode
    have hsize := emits_exprCode hstatics hsame hslots size hcheckSize hfirst hfit start
    exact (((hsize.append_silent (silent_ops _)).append_silent (silent_ops _)).append_silent
      (silent_ops _)).append_silent (silent_ops _)

theorem emits_argsCode (hstatics : b.StaticsPlaced)
    (hsame : SameVariables locals types slots) (hslots : slots.map (·.type) = types)
    (es : List Expr) (hcheck : b.naming.checkExprs locals es = .ok ()) {code : LabelledCode}
    (hcode : b.lowering.argsCode slots es = .ok code)
    (hfit : FitsImmediate (Expr.mostArgsOf es + 1)) (start : Nat) :
    Emits b start code (Expr.allCalls types es) := by
  cases es with
  | nil =>
    cases hcode
    exact .of_silent silent_nil
  | cons e es =>
    obtain ⟨⟨⟩, hcheckFirst, hcheckOthers⟩ := bind_eq_ok.mp hcheck
    obtain ⟨first, hfirst, _, hothers, ⟨⟩⟩ := bind₂_eq_ok.mp hcode
    have hhead := emits_exprCode hstatics hsame hslots e hcheckFirst hfirst hfit.left start
    have htail := emits_argsCode hstatics hsame hslots es hcheckOthers hothers
      hfit.right (start + first.length)
    exact hhead.append htail

end

theorem emits_conditionCode (hstatics : b.StaticsPlaced)
    (hsame : SameVariables locals types slots) (hslots : slots.map (·.type) = types) {test : Expr}
    (hcheck : b.naming.checkExpr locals test = .ok ()) {code : LabelledCode}
    (hcode : b.lowering.conditionCode slots test = .ok code)
    (hfit : FitsImmediate (test.mostArgs + 1)) (start : Nat) :
    Emits b start code (test.calls types) := by
  obtain ⟨_, hfirst, ⟨⟩⟩ := bind_eq_ok.mp hcode
  exact (emits_exprCode hstatics hsame hslots test hcheck hfirst hfit start).append_silent
    (silent_ops _)

end

/-! ## Statements -/

section

variable {b : Body}

/-- The scopes behind a statement for which there is code are aligned. -/
theorem aligned_stmtCode (hstatics : b.StaticsPlaced) {s : Scopes} (hs : s.Aligned) {st : Stmt}
    {locals' : ScopeStack LocalVar} (hcheck : b.naming.checkStmt s.locals st = .ok locals')
    {code : LabelledCode} {frame' : Frame}
    (hcode : b.lowering.stmtCode start s.frame st = .ok (code, frame')) :
    Scopes.Aligned ⟨locals', (b.typing.checkStmt s.types st).1, frame'⟩ := by
  obtain ⟨_, _, hcode', haligned⟩ := exists_stmtCode hstatics hs st hcheck start
  -- The code that there is must be the given one.
  cases hcode'.symm.trans hcode
  exact haligned

mutual

/-- The call instructions of a statement are those of its calls. -/
theorem emits_stmtCode (hstatics : b.StaticsPlaced) {s : Scopes} (hs : s.Aligned) (st : Stmt)
    {locals' : ScopeStack LocalVar} (hcheck : b.naming.checkStmt s.locals st = .ok locals')
    {start : Nat} {code : LabelledCode} {frame' : Frame}
    (hcode : b.lowering.stmtCode start s.frame st = .ok (code, frame'))
    (hfit : FitsImmediate (st.mostArgs + 1)) : Emits b start code (b.typing.calls s.types st) := by
  have hsame := Scopes.sameVariables_of_aligned hs
  cases st with
  | block _ body =>
    obtain ⟨_, hinner, -⟩ := bind_eq_ok.mp hcheck
    obtain ⟨⟨_, _⟩, hbody, ⟨⟩⟩ := bind_eq_ok.mp hcode
    exact (emits_stmtsCode hstatics (Scopes.aligned_push hs) body hinner hbody hfit).append_silent
      (silent_dropWords _)
  | declare _ _ _ init =>
    obtain ⟨⟨⟩, -, _, hduring, ⟨⟩, hinit, -⟩ := bind₃_eq_ok.mp hcheck
    obtain ⟨_, hvalue, ⟨⟩⟩ := bind_eq_ok.mp hcode
    -- The initializer is checked with the variable in scope, but typed and lowered without it.
    exact emits_exprCode hstatics (Scopes.sameVariables_during hs hduring) hs.slots
      init hinit hvalue hfit start
  | assign _ _ value =>
    obtain ⟨⟨⟩, -, ⟨⟩, hcheckValue, -⟩ := bind₂_eq_ok.mp hcheck
    obtain ⟨address, haddress, _, hfirst, ⟨⟩⟩ := bind₂_eq_ok.mp hcode
    have hvalue := emits_exprCode hstatics hsame hs.slots value hcheckValue hfirst hfit
      (start + address.length)
    exact (Emits.silent_append (Site.refClosed_silent.targetCode haddress) hvalue).append_silent
      (silent_ops _)
  | assignIndex _ _ position value =>
    obtain ⟨⟨⟩, -, ⟨⟩, hcheckPosition, ⟨⟩, hcheckValue, -⟩ := bind₃_eq_ok.mp hcheck
    obtain ⟨array, harray, index, hindex, _, hfirst, ⟨⟩⟩ := bind₃_eq_ok.mp hcode
    have hposition := emits_exprCode hstatics hsame hs.slots position hcheckPosition hindex
      hfit.left (start + array.length)
    have hvalue := emits_exprCode hstatics hsame hs.slots value hcheckValue hfirst
      hfit.right (start + (array ++ index).length)
    exact ((((Emits.silent_append (Site.refClosed_silent.valueCode harray) hposition).append
      hvalue).append_silent (silent_ops _)).append_silent (silent_ops _)).append_silent
      (silent_ops _)
  | call _ _ args =>
    obtain ⟨⟨⟩, hmethod, ⟨⟩, hcheckArgs, -⟩ := bind₂_eq_ok.mp hcheck
    obtain ⟨_, hfirst, ⟨⟩⟩ := bind_eq_ok.mp hcode
    obtain ⟨callee, hcallee, _, hvalues, ⟨⟩⟩ := bind₂_eq_ok.mp hfirst
    have hargs := emits_argsCode hstatics hsame hs.slots args hcheckArgs hvalues
      hfit.right (start + callee.receiver.length)
    exact emits_call hstatics hsame hs.slots hmethod hcallee hvalues hfit hargs
  | ret _ value =>
    cases value with
    | none =>
      cases hcode
      exact .of_silent silent_leave
    | some value =>
      obtain ⟨⟨⟩, hcheckValue, -⟩ := bind_eq_ok.mp hcheck
      obtain ⟨_, hfirst, ⟨⟩⟩ := bind_eq_ok.mp hcode
      have hvalue := emits_exprCode hstatics hsame hs.slots value hcheckValue hfirst hfit start
      exact (hvalue.append_silent (silent_ops _)).append_silent silent_leave
  | ifThen _ _ thenBranch =>
    obtain ⟨⟨⟩, hcheckTest, ⟨⟩, -, hcheckThen⟩ := bind₂_eq_ok.mp hcheck
    obtain ⟨_, hcondition, ⟨_, _⟩, hthenCode, ⟨⟩⟩ := bind₂_eq_ok.mp hcode
    have htest := emits_conditionCode hstatics hsame hs.slots hcheckTest hcondition hfit.left start
    have hthen := emits_stmtCode hstatics hs thenBranch hcheckThen hthenCode hfit.right
    exact htest.guarded _ _ hthen
  | ifThenElse _ _ thenBranch elseBranch =>
    obtain ⟨⟨⟩, hcheckTest, ⟨⟩, -, _, hcheckThen, hcheck⟩ := bind₃_eq_ok.mp hcheck
    obtain ⟨⟨⟩, -, hcheckElse⟩ := bind_eq_ok.mp hcheck
    obtain ⟨_, hcondition, ⟨_, _⟩, hthenCode, hcode⟩ := bind₂_eq_ok.mp hcode
    obtain ⟨⟨_, _⟩, helseCode, ⟨⟩⟩ := bind_eq_ok.mp hcode
    have htest := emits_conditionCode hstatics hsame hs.slots hcheckTest hcondition hfit.left start
    have hthen := emits_stmtCode hstatics hs thenBranch hcheckThen hthenCode hfit.right.left
    have helse := emits_stmtCode hstatics (aligned_stmtCode hstatics hs hcheckThen hthenCode)
      elseBranch hcheckElse helseCode hfit.right.right
    refine ((htest.guarded _ _ hthen).append_silent (silent_cons.mpr ⟨rfl, silent_nil⟩)).append ?_
    simp only [length_append, length_singleton, ← Nat.add_assoc]
    exact helse
  | loop _ _ body =>
    obtain ⟨⟨⟩, hcheckTest, ⟨⟩, -, hcheckBody⟩ := bind₂_eq_ok.mp hcheck
    obtain ⟨_, hcondition, ⟨_, _⟩, hbodyCode, ⟨⟩⟩ := bind₂_eq_ok.mp hcode
    have htest := emits_conditionCode hstatics hsame hs.slots hcheckTest hcondition hfit.left start
    have hbody := emits_stmtCode hstatics hs body hcheckBody hbodyCode hfit.right
    exact (htest.guarded _ _ hbody).append_silent (silent_cons.mpr ⟨rfl, silent_nil⟩)

theorem emits_stmtsCode (hstatics : b.StaticsPlaced) {s : Scopes} (hs : s.Aligned) (ss : List Stmt)
    {locals' : ScopeStack LocalVar} (hcheck : b.naming.checkStmts s.locals ss = .ok locals')
    {start : Nat} {code : LabelledCode} {frame' : Frame}
    (hcode : b.lowering.stmtsCode start s.frame ss = .ok (code, frame'))
    (hfit : FitsImmediate (Stmt.mostArgsOf ss + 1)) :
    Emits b start code (b.typing.allCalls s.types ss) := by
  cases ss with
  | nil =>
    cases hcode
    exact .of_silent silent_nil
  | cons st ss =>
    obtain ⟨_, hcheckFirst, hcheckOthers⟩ := bind_eq_ok.mp hcheck
    obtain ⟨⟨_, _⟩, hfirst, hcode⟩ := bind_eq_ok.mp hcode
    obtain ⟨⟨_, _⟩, hothers, ⟨⟩⟩ := bind_eq_ok.mp hcode
    have hhead := emits_stmtCode hstatics hs st hcheckFirst hfirst hfit.left
    have htail := emits_stmtsCode hstatics (aligned_stmtCode hstatics hs hcheckFirst hfirst) ss
      hcheckOthers hothers hfit.right
    exact hhead.append htail

end

end

end Lowering

end MiniJava
