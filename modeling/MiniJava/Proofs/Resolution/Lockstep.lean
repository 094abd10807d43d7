import MiniJava.Identification.Body
import MiniJava.Lowering.Stmt
import MiniJava.Proofs.Resolution.Agreement

/-!
# Three phases in step

Identification, typing and lowering walk through a body one after the other. Seen side by side they
keep their scopes in step: `Scopes` is what the three hold at one point of the body, and `Aligned`
says that all three hold the same variables with the same types, all of them ready. A statement
keeps the scopes aligned (`exists_stmtCode`).

The one place where the three differ is the initializer of a variable: there only identification has
bound the variable (`sameVariables_during`).
-/

namespace MiniJava

open Identification (declare)

/-- What the three phases hold at one point of a body. -/
structure Scopes where
  locals : ScopeStack LocalVar
  types : ScopeStack Ty
  frame : Lowering.Frame

variable {s : Scopes} {locals : ScopeStack LocalVar} {table : ClassTable} {name : Ident}

namespace Scopes

/-- A variable that is ready. -/
def readyVar (type : Ty) : LocalVar := ⟨type, true⟩

/-- The three phases hold the same variables, all of which are ready. -/
structure Aligned (s : Scopes) : Prop where
  locals : s.locals = s.types.map readyVar
  slots : s.frame.slots.map (·.type) = s.types

/-- The scopes at the beginning of a block. -/
def push (s : Scopes) : Scopes :=
  ⟨s.locals.push, s.types.push, { s.frame with slots := s.frame.slots.push }⟩

theorem aligned_push (h : s.Aligned) : s.push.Aligned := by
  obtain ⟨_, _, _⟩ := s
  obtain ⟨hlocals, hslots⟩ := h
  simp only at hlocals hslots
  exact ⟨by simp [push, hlocals], by simp [push, hslots]⟩

theorem aligned_outer (h : s.Aligned) (count : Nat) :
    Aligned ⟨s.locals.outer, s.types.outer, ⟨s.frame.slots.outer, count⟩⟩ := by
  constructor
  · rw [h.locals, ScopeStack.map_outer]
  · rw [ScopeStack.map_outer, h.slots]

theorem sameVariables_of_aligned (h : s.Aligned) :
    SameVariables s.locals s.types s.frame.slots := by
  have hlocals : ∀ name, s.locals.lookup name = (s.types.lookup name).map readyVar := by
    intro name
    rw [h.locals, ScopeStack.lookup_map]
  have hslots : ∀ name, (s.frame.slots.lookup name).map (·.type) = s.types.lookup name := by
    intro name
    rw [← h.slots, ScopeStack.lookup_map]
  constructor
  · intro _ _ hv _
    rw [hlocals] at hv
    obtain ⟨_, htype, rfl⟩ := Option.map_eq_some_iff.mp hv
    refine ⟨htype, ?_⟩
    rw [← hslots] at htype
    exact Option.map_eq_some_iff.mp htype
  · intro _ hnone
    rw [hlocals, Option.map_eq_none_iff] at hnone
    refine ⟨hnone, ?_⟩
    rw [← hslots] at hnone
    exact Option.map_eq_none_iff.mp hnone

end Scopes

/-! ## Declarations -/

theorem define?_of_declare {locals' : ScopeStack LocalVar} {v : LocalVar}
    (h : declare locals name v = .ok locals') : locals.define? name.value v = some locals' := by
  unfold declare at h
  split at h
  next hdefined => cases h; exact hdefined
  next => cases h

/-- While a variable is initialized, it is unknown to typing and lowering, and not
ready for identification. -/
theorem Scopes.sameVariables_during (h : s.Aligned) {type : Ty} {during : ScopeStack LocalVar}
    (hd : declare s.locals name ⟨type, false⟩ = .ok during) :
    SameVariables during s.types s.frame.slots := by
  have hlookup := ScopeStack.lookup_define? (define?_of_declare hd)
  have hsame := sameVariables_of_aligned h
  constructor
  · intro other v hv hready
    rw [hlookup] at hv
    -- The variable that is being declared is not ready, so nothing is asked of it.
    split at hv
    next => cases hv; cases hready
    next => exact hsame.ready other v hv hready
  · intro other hnone
    rw [hlookup] at hnone
    split at hnone
    next => cases hnone
    next => exact hsame.absent other hnone

/-- A variable that is bound in one of the phases is bound in all. -/
theorem Scopes.aligned_define (h : s.Aligned) {name : String} {type : Ty}
    {locals' : ScopeStack LocalVar} (hd : s.locals.define? name (readyVar type) = some locals')
    (slot : Lowering.Slot) (hslot : slot.type = type) (count : Nat) :
    Aligned ⟨locals', s.types.defineNew name type, ⟨s.frame.slots.defineNew name slot, count⟩⟩ := by
  rw [h.locals, ScopeStack.define?_map] at hd
  obtain ⟨_, htypes, rfl⟩ := Option.map_eq_some_iff.mp hd
  have hslots := htypes
  rw [← h.slots, ← hslot, ScopeStack.define?_map] at hslots
  obtain ⟨_, hslots, hmap⟩ := Option.map_eq_some_iff.mp hslots
  constructor
  · simp [ScopeStack.defineNew, htypes]
  · simp [ScopeStack.defineNew, htypes, hslots, hmap]

theorem Scopes.aligned_declare (h : s.Aligned) {type : Ty} {during : ScopeStack LocalVar}
    (hd : declare s.locals name ⟨type, false⟩ = .ok during) :
    Aligned ⟨during.set name.value ⟨type, true⟩, s.types.defineNew name.value type,
      s.frame.declare name.value type⟩ :=
  aligned_define h (ScopeStack.define?_set (define?_of_declare hd) (readyVar type)) _ rfl _

/-! ## Parameters -/

namespace Scopes

/-- Binding parameters one after the other keeps the scopes aligned. -/
theorem aligned_foldl {params : List Param} (h : s.Aligned)
    (hd : params.foldlM (Identification.declareParam table) s.locals = .ok locals)
    (arity start : Nat) :
    Aligned ⟨locals,
      params.foldl (fun scopes p => scopes.defineNew p.name.value p.type.value) s.types,
      ⟨(params.zipIdx start).foldl (fun slots (p, i) => slots.defineNew p.name.value
        ⟨Lowering.paramOffset arity i, p.type.value⟩) s.frame.slots, s.frame.locals⟩⟩ := by
  induction params generalizing s start with
  | nil =>
    cases hd
    exact h
  | cons p _ ih =>
    rw [List.foldlM_cons] at hd
    obtain ⟨_, hnext, hrest⟩ := bind_eq_ok.mp hd
    obtain ⟨⟨⟩, -, hnext⟩ := bind_eq_ok.mp hnext
    have haligned := aligned_define h (define?_of_declare hnext)
      ⟨Lowering.paramOffset arity start, p.type.value⟩ rfl s.frame.locals
    exact ih haligned hrest (start + 1)

/-- The scopes at the beginning of a method. -/
def ofParams (locals : ScopeStack LocalVar) (params : List Param) : Scopes :=
  ⟨locals, Typing.paramScope params, Lowering.Frame.ofParams params⟩

theorem aligned_ofParams {params : List Param}
    (h : params.foldlM (Identification.declareParam table) ScopeStack.empty.push = .ok locals) :
    (ofParams locals params).Aligned := by
  have hempty : Aligned ⟨ScopeStack.empty.push, ScopeStack.empty.push,
      ⟨ScopeStack.empty.push, 0⟩⟩ := ⟨rfl, rfl⟩
  exact aligned_foldl hempty h params.length 0

end Scopes

/-! ## Expressions -/

section

variable {b : Body} {locals : ScopeStack LocalVar} {types : ScopeStack Ty}
  {slots : ScopeStack Lowering.Slot}

theorem exists_valueCode_of_checkValue (hstatics : b.StaticsPlaced)
    (hsame : SameVariables locals types slots) {r : Ref}
    (h : b.naming.checkValue locals r = .ok ()) :
    ∃ code, b.lowering.valueCode slots r = .ok code := by
  obtain ⟨ref, href, h⟩ := bind_eq_ok.mp h
  have hdenotes := (denotes_of_resolve hstatics hsame href).1
  apply exists_valueCode hdenotes
  cases ref with
  | this | «variable» | field => rfl
  | method | classNamed => cases h

theorem exists_targetCode_of_checkTarget (hstatics : b.StaticsPlaced)
    (hsame : SameVariables locals types slots) {r : Ref}
    (h : b.naming.checkTarget locals r = .ok ()) :
    ∃ code, b.lowering.targetCode slots r = .ok code := by
  obtain ⟨ref, href, h⟩ := bind_eq_ok.mp h
  have hdenotes := (denotes_of_resolve hstatics hsame href).1
  cases ref with
  | «variable» =>
    obtain ⟨-, _, ⟨-, hcode⟩, -⟩ := hdenotes
    exact ⟨_, bind_eq_ok.mpr ⟨_, hcode, rfl⟩⟩
  | field =>
    obtain ⟨-, _, _, _, -, -, -, _, _, -, hcode, -⟩ := hdenotes
    exact ⟨_, bind_eq_ok.mpr ⟨_, hcode, rfl⟩⟩
  | this | method | classNamed => cases h

theorem exists_callee_of_checkCallee (hstatics : b.StaticsPlaced)
    (hsame : SameVariables locals types slots) {r : Ref}
    (h : b.naming.checkCallee locals r = .ok ()) :
    ∃ callee, b.lowering.callee slots r = .ok callee := by
  obtain ⟨ref, href, h⟩ := bind_eq_ok.mp h
  have hdenotes := (denotes_of_resolve hstatics hsame href).1
  cases ref with
  | method =>
    obtain ⟨_, _, _, -, -, -, callee, hcallee, -⟩ := hdenotes
    exact ⟨callee, hcallee⟩
  | this | «variable» | field | classNamed => cases h

mutual

/-- Lowering gives code for every expression that identification accepts. -/
theorem exists_exprCode (hstatics : b.StaticsPlaced) (hsame : SameVariables locals types slots)
    (e : Expr) (h : b.naming.checkExpr locals e = .ok ()) :
    ∃ code, b.lowering.exprCode slots e = .ok code := by
  cases e with
  | literal | newObject => exact ⟨_, rfl⟩
  | unary _ _ operand =>
    obtain ⟨_, hcode⟩ := exists_exprCode hstatics hsame operand h
    exact ⟨_, bind_eq_ok.mpr ⟨_, hcode, rfl⟩⟩
  | binary _ _ left right =>
    obtain ⟨⟨⟩, hleft, hright⟩ := bind_eq_ok.mp h
    obtain ⟨_, hfirst⟩ := exists_exprCode hstatics hsame left hleft
    obtain ⟨_, hsecond⟩ := exists_exprCode hstatics hsame right hright
    exact ⟨_, bind₂_eq_ok.mpr ⟨_, hfirst, _, hsecond, rfl⟩⟩
  | ref => exact exists_valueCode_of_checkValue hstatics hsame h
  | index _ _ position =>
    obtain ⟨⟨⟩, htarget, hposition⟩ := bind_eq_ok.mp h
    obtain ⟨_, harray⟩ := exists_valueCode_of_checkValue hstatics hsame htarget
    obtain ⟨_, hcode⟩ := exists_exprCode hstatics hsame position hposition
    exact ⟨_, bind₂_eq_ok.mpr ⟨_, harray, _, hcode, rfl⟩⟩
  | call _ _ args =>
    obtain ⟨⟨⟩, hmethod, hargs⟩ := bind_eq_ok.mp h
    obtain ⟨_, hcallee⟩ := exists_callee_of_checkCallee hstatics hsame hmethod
    obtain ⟨_, hcode⟩ := exists_argsCode hstatics hsame args hargs
    exact ⟨_, bind₂_eq_ok.mpr ⟨_, hcallee, _, hcode, rfl⟩⟩
  | newArray _ _ size =>
    obtain ⟨⟨⟩, -, hsize⟩ := bind_eq_ok.mp h
    obtain ⟨_, hcode⟩ := exists_exprCode hstatics hsame size hsize
    exact ⟨_, bind_eq_ok.mpr ⟨_, hcode, rfl⟩⟩

theorem exists_argsCode (hstatics : b.StaticsPlaced) (hsame : SameVariables locals types slots)
    (es : List Expr) (h : b.naming.checkExprs locals es = .ok ()) :
    ∃ code, b.lowering.argsCode slots es = .ok code := by
  cases es with
  | nil => exact ⟨_, rfl⟩
  | cons e es =>
    obtain ⟨⟨⟩, he, hes⟩ := bind_eq_ok.mp h
    obtain ⟨_, hfirst⟩ := exists_exprCode hstatics hsame e he
    obtain ⟨_, hothers⟩ := exists_argsCode hstatics hsame es hes
    exact ⟨_, bind₂_eq_ok.mpr ⟨_, hfirst, _, hothers, rfl⟩⟩

end

end

/-! ## Statements -/

section

variable {b : Body}

theorem exists_conditionCode (hstatics : b.StaticsPlaced) (hs : s.Aligned) {test : Expr}
    (h : b.naming.checkExpr s.locals test = .ok ()) :
    ∃ code, b.lowering.conditionCode s.frame.slots test = .ok code := by
  obtain ⟨_, hcode⟩ := exists_exprCode hstatics (Scopes.sameVariables_of_aligned hs) test h
  exact ⟨_, bind_eq_ok.mpr ⟨_, hcode, rfl⟩⟩

theorem exists_callCode (hstatics : b.StaticsPlaced) (hs : s.Aligned) {method : Ref}
    {args : List Expr} (hmethod : b.naming.checkCallee s.locals method = .ok ())
    (hargs : b.naming.checkExprs s.locals args = .ok ()) :
    ∃ code, b.lowering.callCode s.frame.slots method args = .ok code := by
  have hsame := Scopes.sameVariables_of_aligned hs
  obtain ⟨_, hcallee⟩ := exists_callee_of_checkCallee hstatics hsame hmethod
  obtain ⟨_, hcode⟩ := exists_argsCode hstatics hsame args hargs
  exact ⟨_, bind₂_eq_ok.mpr ⟨_, hcallee, _, hcode, rfl⟩⟩

mutual

/-- Lowering gives code for every statement that identification accepts, and the
scopes behind the statement are aligned. -/
theorem exists_stmtCode (hstatics : b.StaticsPlaced) {s : Scopes} (hs : s.Aligned) (st : Stmt)
    {locals' : ScopeStack LocalVar} (h : b.naming.checkStmt s.locals st = .ok locals')
    (start : Nat) :
    ∃ code frame', b.lowering.stmtCode start s.frame st = .ok (code, frame') ∧
      Scopes.Aligned ⟨locals', (b.typing.checkStmt s.types st).1, frame'⟩ := by
  have hsame := Scopes.sameVariables_of_aligned hs
  cases st with
  | block _ body =>
    obtain ⟨_, hinner, ⟨⟩⟩ := bind_eq_ok.mp h
    obtain ⟨_, _, hcode, haligned⟩ :=
      exists_stmtsCode hstatics (Scopes.aligned_push hs) body hinner start
    exact ⟨_, _, bind_eq_ok.mpr ⟨_, hcode, rfl⟩, Scopes.aligned_outer haligned _⟩
  | declare _ _ _ init =>
    obtain ⟨⟨⟩, -, _, hduring, ⟨⟩, hinit, ⟨⟩⟩ := bind₃_eq_ok.mp h
    obtain ⟨_, hcode⟩ :=
      exists_exprCode hstatics (Scopes.sameVariables_during hs hduring) init hinit
    exact ⟨_, _, bind_eq_ok.mpr ⟨_, hcode, rfl⟩, Scopes.aligned_declare hs hduring⟩
  | assign _ _ value =>
    obtain ⟨⟨⟩, htarget, ⟨⟩, hvalue, ⟨⟩⟩ := bind₂_eq_ok.mp h
    obtain ⟨_, haddress⟩ := exists_targetCode_of_checkTarget hstatics hsame htarget
    obtain ⟨_, hcode⟩ := exists_exprCode hstatics hsame value hvalue
    exact ⟨_, _, bind₂_eq_ok.mpr ⟨_, haddress, _, hcode, rfl⟩, hs⟩
  | assignIndex _ _ position value =>
    obtain ⟨⟨⟩, htarget, ⟨⟩, hposition, ⟨⟩, hvalue, ⟨⟩⟩ := bind₃_eq_ok.mp h
    obtain ⟨_, harray⟩ := exists_valueCode_of_checkValue hstatics hsame htarget
    obtain ⟨_, hindex⟩ := exists_exprCode hstatics hsame position hposition
    obtain ⟨_, hcode⟩ := exists_exprCode hstatics hsame value hvalue
    exact ⟨_, _, bind₃_eq_ok.mpr ⟨_, harray, _, hindex, _, hcode, rfl⟩, hs⟩
  | call =>
    obtain ⟨⟨⟩, hmethod, ⟨⟩, hargs, ⟨⟩⟩ := bind₂_eq_ok.mp h
    obtain ⟨_, hcode⟩ := exists_callCode hstatics hs hmethod hargs
    exact ⟨_, _, bind_eq_ok.mpr ⟨_, hcode, rfl⟩, hs⟩
  | ret _ value =>
    cases value with
    | none =>
      cases h
      exact ⟨_, _, rfl, hs⟩
    | some value =>
      obtain ⟨⟨⟩, hvalue, ⟨⟩⟩ := bind_eq_ok.mp h
      obtain ⟨_, hcode⟩ := exists_exprCode hstatics hsame value hvalue
      exact ⟨_, _, bind_eq_ok.mpr ⟨_, hcode, rfl⟩, hs⟩
  | ifThen _ _ thenBranch =>
    obtain ⟨⟨⟩, htest, ⟨⟩, -, hthen⟩ := bind₂_eq_ok.mp h
    obtain ⟨condition, hcondition⟩ := exists_conditionCode hstatics hs htest
    obtain ⟨_, _, hcode, haligned⟩ :=
      exists_stmtCode hstatics hs thenBranch hthen (start + condition.length + 1)
    exact ⟨_, _, bind₂_eq_ok.mpr ⟨_, hcondition, _, hcode, rfl⟩, haligned⟩
  | ifThenElse _ _ thenBranch elseBranch =>
    obtain ⟨⟨⟩, htest, ⟨⟩, -, _, hthen, h⟩ := bind₃_eq_ok.mp h
    obtain ⟨⟨⟩, -, helse⟩ := bind_eq_ok.mp h
    -- The branches are lowered one behind the other, and so are their scopes.
    obtain ⟨condition, hcondition⟩ := exists_conditionCode hstatics hs htest
    obtain ⟨thenCode, _, hthenCode, haligned₁⟩ :=
      exists_stmtCode hstatics hs thenBranch hthen (start + condition.length + 1)
    obtain ⟨_, _, helseCode, haligned₂⟩ :=
      exists_stmtCode hstatics haligned₁ elseBranch helse
        (start + condition.length + 1 + thenCode.length + 1)
    exact ⟨_, _, bind₃_eq_ok.mpr ⟨_, hcondition, _, hthenCode, _, helseCode, rfl⟩, haligned₂⟩
  | loop _ _ body =>
    obtain ⟨⟨⟩, htest, ⟨⟩, -, hbody⟩ := bind₂_eq_ok.mp h
    obtain ⟨condition, hcondition⟩ := exists_conditionCode hstatics hs htest
    obtain ⟨_, _, hcode, haligned⟩ :=
      exists_stmtCode hstatics hs body hbody (start + condition.length + 1)
    exact ⟨_, _, bind₂_eq_ok.mpr ⟨_, hcondition, _, hcode, rfl⟩, haligned⟩

theorem exists_stmtsCode (hstatics : b.StaticsPlaced) {s : Scopes} (hs : s.Aligned)
    (ss : List Stmt) {locals' : ScopeStack LocalVar}
    (h : b.naming.checkStmts s.locals ss = .ok locals') (start : Nat) :
    ∃ code frame', b.lowering.stmtsCode start s.frame ss = .ok (code, frame') ∧
      Scopes.Aligned ⟨locals', (b.typing.checkStmts s.types ss).1, frame'⟩ := by
  cases ss with
  | nil =>
    cases h
    exact ⟨_, _, rfl, hs⟩
  | cons st ss =>
    obtain ⟨_, hst, hss⟩ := bind_eq_ok.mp h
    obtain ⟨first, _, hfirst, haligned₁⟩ := exists_stmtCode hstatics hs st hst start
    obtain ⟨_, _, hothers, haligned₂⟩ :=
      exists_stmtsCode hstatics haligned₁ ss hss (start + first.length)
    exact ⟨_, _, bind₂_eq_ok.mpr ⟨_, hfirst, _, hothers, rfl⟩, haligned₂⟩

end

end

/-! ## Programs -/

namespace Lowering.StaticArea

theorem exists_displacement {area : StaticArea} {className field : String}
    (h : (className, field) ∈ area.fields) :
    ∃ disp, area.displacement? className field = some disp := by
  obtain ⟨i, hi, hget⟩ := List.mem_iff_getElem.mp h
  have hmem : ((className, field), i) ∈ area.fields.zipIdx.reverse := by
    rw [List.mem_reverse, List.mem_zipIdx_iff_getElem?, List.getElem?_eq_getElem hi, hget]
  cases hl : area.fields.zipIdx.reverse.lookup (className, field) with
  | none => simpa using List.lookup_eq_none_iff.mp hl _ hmem
  | some _ => exact ⟨_, by rw [displacement?, hl]; rfl⟩

end Lowering.StaticArea

/-- The static fields that the table of a program holds are those that have a word. -/
theorem staticsPlaced_ofMethod {p : Program} (h : table.IsTableOf p) (className : String)
    (m : MethodDecl) : (Body.ofMethod table p className m).StaticsPlaced := by
  intro owner name _ hf hs
  have hmem : (owner, name) ∈ (Lowering.StaticArea.ofProgram p).fields := by
    rcases h.field?_cases hf with ⟨rfl, rfl, -⟩ | ⟨c, hc, rfl, d, hd, rfl, rfl⟩
    · exact List.mem_cons_self
    · refine List.mem_cons_of_mem _ (List.mem_flatMap.mpr ⟨c, hc, ?_⟩)
      exact List.mem_map.mpr ⟨d, List.mem_filter.mpr ⟨hd, hs⟩, rfl⟩
  exact Lowering.StaticArea.exists_displacement hmem

section

variable {p : Program} {table : ClassTable} (h : identify p = .ok table)
include h

theorem isTableOf_of_identify : table.IsTableOf p := by
  obtain ⟨_, ht, ⟨⟩, -, ⟨⟩⟩ := bind₂_eq_ok.mp h
  exact ClassTable.isTableOf_of_ofProgram ht

variable {c : ClassDecl} (hc : c ∈ p.classes) {m : MethodDecl} (hm : m ∈ c.methods)
include hc hm

/-- What identification of a program says of the body of each of its methods. -/
theorem checkStmts_of_identify :
    ∃ locals locals', m.params.foldlM (Identification.declareParam table) ScopeStack.empty.push =
        .ok locals ∧
      (Scopes.ofParams locals m.params).Aligned ∧
      (Body.ofMethod table p c.name.value m).naming.checkStmts locals m.body = .ok locals' := by
  obtain ⟨_, -, ⟨⟩, hclasses, ⟨⟩⟩ := bind₂_eq_ok.mp h
  obtain ⟨⟨⟩, -, hmethods⟩ := bind_eq_ok.mp (forM_eq_ok hclasses c hc)
  obtain ⟨⟨⟩, -, hmethod⟩ := bind_eq_ok.mp (forM_eq_ok hmethods m hm)
  obtain ⟨locals, hparams, locals', hbody, -⟩ := bind₂_eq_ok.mp hmethod
  exact ⟨locals, locals', hparams, Scopes.aligned_ofParams hparams, hbody⟩

end

end MiniJava
