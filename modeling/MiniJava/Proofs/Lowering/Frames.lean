import MiniJava.Proofs.Resolution.Lockstep

/-!
# The frame behind a statement

Lowering hands a frame from one statement to the next, and counts the locals of a block by
the size of its innermost scope when it ends. What it counts is right because of what
identification refuses: a second variable of one name in a scope, and a declaration that is
itself a branch.

> `frame_stmtCode`: a statement that is no declaration leaves the frame as it was.

Statements in turn only add to the innermost scope, one local for each new name
(`Frame.Extends`).
-/

namespace MiniJava

theorem ScopeStack.innerSize_define? {α : Type} {s t : ScopeStack α} {name : String} {value : α}
    (h : s.define? name value = some t) : t.innerSize = s.innerSize + 1 := by
  obtain ⟨_ | ⟨_, _⟩⟩ := s
  · cases h
  · simp only [define?] at h
    split at h
    next => cases h
    next => cases h; rfl

namespace Lowering

variable {locals : ScopeStack LocalVar} {frame frame' : Frame}

namespace Frame

/-- The variables of identification are those of the frame, and all of them are ready. -/
def Ready (frame : Frame) (locals : ScopeStack LocalVar) : Prop :=
  locals = (frame.slots.map (·.type)).map Scopes.readyVar

/-- A frame with more variables in its innermost scope, each with a word of its own. -/
structure Extends (frame frame' : Frame) : Prop where
  outer : frame'.slots.outer = frame.slots.outer
  locals : frame'.locals + frame.slots.innerSize = frame.locals + frame'.slots.innerSize

theorem Extends.refl (frame : Frame) : frame.Extends frame := ⟨rfl, rfl⟩

theorem Extends.trans {frame'' : Frame} (h : frame.Extends frame') (h' : frame'.Extends frame'') :
    frame.Extends frame'' := by
  have hfirst := h.locals
  have hsecond := h'.locals
  exact ⟨h'.outer.trans h.outer, by omega⟩

theorem ready_of_aligned {s : Scopes} (h : s.Aligned) : s.frame.Ready s.locals := by
  rw [Ready, h.slots, h.locals]

theorem Ready.push (h : frame.Ready locals) :
    Ready { frame with slots := frame.slots.push } locals.push := by
  rw [Ready] at h
  rw [h]
  rfl

/-- A name that identification binds is new in the frame, too. -/
theorem Ready.declare {during : ScopeStack LocalVar} (h : frame.Ready locals) {name : Ident}
    {type : Ty} (hd : Identification.declare locals name ⟨type, false⟩ = .ok during) (slot : Slot)
    (hslot : slot.type = type) :
    ∃ slots, frame.slots.define? name.value slot = some slots ∧
      during.set name.value ⟨type, true⟩ = (slots.map (·.type)).map Scopes.readyVar := by
  have hdefine := ScopeStack.define?_set (define?_of_declare hd) (Scopes.readyVar type)
  rw [show locals = _ from h, ScopeStack.define?_map, ← hslot, ScopeStack.define?_map] at hdefine
  obtain ⟨_, htypes, hduring⟩ := Option.map_eq_some_iff.mp hdefine
  obtain ⟨slots, hslots, rfl⟩ := Option.map_eq_some_iff.mp htypes
  subst hslot
  exact ⟨slots, hslots, hduring.symm⟩

end Frame

variable {naming : Identification.Site} {lowering : Site}

/-- A declaration adds its variable to the innermost scope. -/
theorem extends_declare {locals' : ScopeStack LocalVar} (hready : frame.Ready locals) {span : Span}
    {type : Located Ty} {name : Ident} {init : Expr}
    (hcheck : naming.checkStmt locals (.declare span type name init) = .ok locals') {start : Nat}
    {code : LabelledCode}
    (hcode : lowering.stmtCode start frame (.declare span type name init) = .ok (code, frame')) :
    frame'.Ready locals' ∧ frame.Extends frame' ∧ frame'.locals = frame.locals + 1 := by
  obtain ⟨⟨⟩, -, _, hduring, ⟨⟩, -, ⟨⟩⟩ := bind₃_eq_ok.mp hcheck
  obtain ⟨value, -, ⟨⟩⟩ := bind_eq_ok.mp hcode
  obtain ⟨slots, hslots, hlocals⟩ := hready.declare hduring
    ⟨-(wordSize * (frame.locals + 1) : Nat), type.value⟩ rfl
  have hdeclare : frame.declare name.value type.value = ⟨slots, frame.locals + 1⟩ := by
    rw [Frame.declare, ScopeStack.defineNew, hslots]
    rfl
  have hsize := ScopeStack.innerSize_define? hslots
  rw [hdeclare]
  refine ⟨hlocals, ⟨ScopeStack.outer_define? hslots, ?_⟩, rfl⟩
  show frame.locals + 1 + frame.slots.innerSize = frame.locals + slots.innerSize
  omega

/-- A statement adds a variable at most, given that only a declaration adds one. -/
theorem extends_stmtCode {locals' : ScopeStack LocalVar} (hready : frame.Ready locals) {s : Stmt}
    (hcheck : naming.checkStmt locals s = .ok locals') {start : Nat} {code : LabelledCode}
    (hcode : lowering.stmtCode start frame s = .ok (code, frame'))
    (hother : Identification.checkBranch s = .ok () → frame' = frame ∧ locals' = locals) :
    frame'.Ready locals' ∧ frame.Extends frame' ∧ frame'.locals ≤ frame.locals + 1 := by
  cases hbranch : Identification.checkBranch s with
  | ok =>
    obtain ⟨rfl, rfl⟩ := hother hbranch
    exact ⟨hready, .refl _, Nat.le_succ _⟩
  | error _ =>
    cases s with
    | declare =>
      obtain ⟨hready', hextends, hlocals⟩ := extends_declare hready hcheck hcode
      exact ⟨hready', hextends, Nat.le_of_eq hlocals⟩
    | _ => cases hbranch

mutual

/-- Behind a statement that is no declaration, the frame is the one in front of it. -/
theorem frame_stmtCode {frame frame' : Frame} {locals locals' : ScopeStack LocalVar}
    (hready : frame.Ready locals) (s : Stmt) (hbranch : Identification.checkBranch s = .ok ())
    (hcheck : naming.checkStmt locals s = .ok locals') {start : Nat} {code : LabelledCode}
    (hcode : lowering.stmtCode start frame s = .ok (code, frame')) :
    frame' = frame ∧ locals' = locals := by
  cases s with
  | block _ body =>
    obtain ⟨inner, hinner, ⟨⟩⟩ := bind_eq_ok.mp hcheck
    obtain ⟨⟨_, bodyFrame⟩, hbody, ⟨⟩⟩ := bind_eq_ok.mp hcode
    obtain ⟨hready', hextends, -⟩ := extends_stmtsCode hready.push body hinner hbody
    -- Leaving the block gives back the slots of its own variables.
    have hlocals : bodyFrame.locals + 0 = frame.locals + bodyFrame.slots.innerSize :=
      hextends.locals
    have houter : bodyFrame.slots.outer = frame.slots := hextends.outer
    constructor
    · rw [houter, show bodyFrame.locals - bodyFrame.slots.innerSize = frame.locals by omega]
    · rw [show inner = _ from hready', ← ScopeStack.map_outer, ← ScopeStack.map_outer, houter]
      exact hready.symm
  | declare => cases hbranch
  | assign =>
    obtain ⟨⟨⟩, -, ⟨⟩, -, ⟨⟩⟩ := bind₂_eq_ok.mp hcheck
    obtain ⟨_, -, _, -, ⟨⟩⟩ := bind₂_eq_ok.mp hcode
    exact ⟨rfl, rfl⟩
  | assignIndex =>
    obtain ⟨⟨⟩, -, ⟨⟩, -, ⟨⟩, -, ⟨⟩⟩ := bind₃_eq_ok.mp hcheck
    obtain ⟨_, -, _, -, _, -, ⟨⟩⟩ := bind₃_eq_ok.mp hcode
    exact ⟨rfl, rfl⟩
  | call =>
    obtain ⟨⟨⟩, -, ⟨⟩, -, ⟨⟩⟩ := bind₂_eq_ok.mp hcheck
    obtain ⟨_, -, ⟨⟩⟩ := bind_eq_ok.mp hcode
    exact ⟨rfl, rfl⟩
  | ret _ value =>
    cases value with
    | none =>
      cases hcheck
      cases hcode
      exact ⟨rfl, rfl⟩
    | some =>
      obtain ⟨⟨⟩, -, ⟨⟩⟩ := bind_eq_ok.mp hcheck
      obtain ⟨_, -, ⟨⟩⟩ := bind_eq_ok.mp hcode
      exact ⟨rfl, rfl⟩
  | ifThen _ _ thenBranch =>
    obtain ⟨⟨⟩, -, ⟨⟩, hthen, hcheck⟩ := bind₂_eq_ok.mp hcheck
    obtain ⟨_, -, ⟨_, _⟩, hthenCode, ⟨⟩⟩ := bind₂_eq_ok.mp hcode
    exact frame_stmtCode hready thenBranch hthen hcheck hthenCode
  | ifThenElse _ _ thenBranch elseBranch =>
    obtain ⟨⟨⟩, -, ⟨⟩, hthen, _, hthenCheck, hcheck⟩ := bind₃_eq_ok.mp hcheck
    obtain ⟨⟨⟩, helse, helseCheck⟩ := bind_eq_ok.mp hcheck
    obtain ⟨_, -, ⟨_, _⟩, hthenCode, hcode⟩ := bind₂_eq_ok.mp hcode
    obtain ⟨⟨_, _⟩, helseCode, ⟨⟩⟩ := bind_eq_ok.mp hcode
    obtain ⟨rfl, rfl⟩ := frame_stmtCode hready thenBranch hthen hthenCheck hthenCode
    exact frame_stmtCode hready elseBranch helse helseCheck helseCode
  | loop _ _ body =>
    obtain ⟨⟨⟩, -, ⟨⟩, hbody, hcheck⟩ := bind₂_eq_ok.mp hcheck
    obtain ⟨_, -, ⟨_, _⟩, hbodyCode, ⟨⟩⟩ := bind₂_eq_ok.mp hcode
    exact frame_stmtCode hready body hbody hcheck hbodyCode

/-- Statements in turn add variables to the innermost scope, no more than there are statements. -/
theorem extends_stmtsCode {frame frame' : Frame} {locals locals' : ScopeStack LocalVar}
    (hready : frame.Ready locals) (ss : List Stmt)
    (hcheck : naming.checkStmts locals ss = .ok locals') {start : Nat} {code : LabelledCode}
    (hcode : lowering.stmtsCode start frame ss = .ok (code, frame')) :
    frame'.Ready locals' ∧ frame.Extends frame' ∧ frame'.locals ≤ frame.locals + ss.length := by
  cases ss with
  | nil =>
    cases hcheck
    cases hcode
    exact ⟨hready, .refl frame, Nat.le_refl _⟩
  | cons s ss =>
    obtain ⟨_, hfirst, hothers⟩ := bind_eq_ok.mp hcheck
    obtain ⟨⟨_, _⟩, hfirstCode, hcode⟩ := bind_eq_ok.mp hcode
    obtain ⟨⟨_, _⟩, hothersCode, ⟨⟩⟩ := bind_eq_ok.mp hcode
    obtain ⟨hready₁, hextends₁, _⟩ := extends_stmtCode hready hfirst hfirstCode
      fun hbranch => frame_stmtCode hready s hbranch hfirst hfirstCode
    obtain ⟨hready', hextends, _⟩ := extends_stmtsCode hready₁ ss hothers hothersCode
    refine ⟨hready', hextends₁.trans hextends, ?_⟩
    rw [List.length_cons]
    omega

end

end Lowering

end MiniJava
