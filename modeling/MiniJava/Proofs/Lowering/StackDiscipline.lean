import MiniJava.Proofs.Lowering.Linking
import MiniJava.Proofs.Lowering.Tracking

/-!
# Stack discipline

The depth in front of each statement of a method is the number of locals that lowering counts there,
and the offset that it records for a local is the place where the value of the local comes to lie
(`stack_discipline`).

What a statement leaves on the stack is in `Tracking`. Here the statements inside of a body are
followed to their places in its code (`InStmts`), together with the frame that lowering has in front
of each.
-/

namespace MiniJava

open List

namespace Lowering

/-! ## Offsets -/

variable {locals locals' : ScopeStack LocalVar} {frame : Frame} {slots : ScopeStack Slot}
  {code : LabelledCode} {s : Stmt} {start : Nat}

namespace Frame

/-- The variables of a frame, hidden ones included, lie in words of their own: the parameters above
the base and the locals below it. -/
structure Laid (arity : Nat) (frame : Frame) : Prop where
  nodup : (frame.slots.values.map Slot.offset).Nodup
  place : ∀ slot ∈ frame.slots.values, (∃ i < arity, slot.offset = paramOffset arity i) ∨
    ∃ i < frame.locals, slot.offset = -(wordSize * (i + 1) : Nat)

/-- The offsets of a frame are all different, and each is the displacement in the code that uses
it. -/
structure OffsetsApart (frame : Frame) : Prop where
  nodup : (frame.slots.values.map Slot.offset).Nodup
  displacement : ∀ slot ∈ frame.slots.values, (memAt .rbp slot.offset).disp.toInt = slot.offset

theorem Laid.offsetsApart {arity : Nat} (h : frame.Laid arity) (harity : FitsImmediate (arity + 2))
    (hlocals : FitsImmediate frame.locals) :
    frame.OffsetsApart := by
  refine ⟨h.nodup, ?_⟩
  intro slot hslot
  unfold FitsImmediate wordSize at harity hlocals
  have hbounds : -2 ^ 31 ≤ slot.offset ∧ slot.offset < 2 ^ 31 := by
    rcases h.place slot hslot with ⟨_, _, hoffset⟩ | ⟨_, _, hoffset⟩
    · rw [hoffset, paramOffset, argumentBase, wordSize]
      omega
    · rw [hoffset, wordSize]
      omega
  exact Int32.toInt_ofInt_of_le hbounds.1 hbounds.2

/-- A slot with a new offset. -/
theorem nodup_defineNew (h : (slots.values.map Slot.offset).Nodup) (name : String) (slot : Slot)
    (hnew : ∀ s ∈ slots.values, s.offset ≠ slot.offset) :
    ((slots.defineNew name slot).values.map Slot.offset).Nodup ∧
      ∀ s ∈ (slots.defineNew name slot).values, s = slot ∨ s ∈ slots.values := by
  unfold ScopeStack.defineNew
  cases hdefine : slots.define? name slot with
  | none => exact ⟨h, fun s hs => .inr hs⟩
  | some _ =>
    rw [Option.getD_some, ScopeStack.values_define hdefine]
    refine ⟨nodup_cons.mpr ⟨?_, h⟩, fun s hs => mem_cons.mp hs⟩
    intro hmem
    obtain ⟨s, hs, heq⟩ := mem_map.mp hmem
    exact hnew s hs heq

/-- A declaration takes the next word. -/
theorem Laid.declare {arity : Nat} (h : frame.Laid arity) (name : String) (type : Ty) :
    (frame.declare name type).Laid arity := by
  -- The new word is below all words that are taken.
  have hnew : ∀ s ∈ frame.slots.values, s.offset ≠ -(wordSize * (frame.locals + 1) : Nat) := by
    intro s hs heq
    rcases h.place s hs with ⟨i, hi, hoffset⟩ | ⟨i, hi, hoffset⟩
    · rw [hoffset, paramOffset, argumentBase, wordSize] at heq
      omega
    · rw [hoffset, wordSize] at heq
      omega
  obtain ⟨hnodup, hmem⟩ := nodup_defineNew h.nodup name
    ⟨-(wordSize * (frame.locals + 1) : Nat), type⟩ hnew
  refine ⟨hnodup, ?_⟩
  intro s hs
  rcases hmem s hs with rfl | hs
  · exact .inr ⟨frame.locals, Nat.lt_succ_self _, rfl⟩
  · rcases h.place s hs with hparam | ⟨i, hi, hoffset⟩
    · exact .inl hparam
    · exact .inr ⟨i, Nat.lt_succ_of_lt hi, hoffset⟩

/-- Parameters are laid one by one, each with an offset of its own. -/
theorem laid_params (arity : Nat) (params : List Param) (k : Nat) (hk : k + params.length ≤ arity)
    (hnodup : (slots.values.map Slot.offset).Nodup)
    (hplace : ∀ slot ∈ slots.values, ∃ i < k, slot.offset = paramOffset arity i) :
    Laid arity ⟨(params.zipIdx k).foldl
      (fun slots (p, i) => slots.defineNew p.name.value ⟨paramOffset arity i, p.type.value⟩) slots,
      0⟩ := by
  induction params generalizing k slots with
  | nil =>
    refine ⟨hnodup, ?_⟩
    intro slot hslot
    obtain ⟨i, hi, hoffset⟩ := hplace slot hslot
    exact .inl ⟨i, Nat.lt_of_lt_of_le hi hk, hoffset⟩
  | cons p _ ih =>
    rw [length_cons] at hk
    have hnew : ∀ s ∈ slots.values, s.offset ≠ paramOffset arity k := by
      intro s hs heq
      obtain ⟨_, _, hoffset⟩ := hplace s hs
      rw [hoffset, paramOffset, paramOffset, wordSize] at heq
      omega
    obtain ⟨hnodup', hmem⟩ := nodup_defineNew hnodup p.name.value
      ⟨paramOffset arity k, p.type.value⟩ hnew
    rw [zipIdx_cons, foldl_cons]
    refine ih (k + 1) (by omega) hnodup' ?_
    intro s hs
    rcases hmem s hs with rfl | hs
    · exact ⟨k, Nat.lt_succ_self k, rfl⟩
    · obtain ⟨i, hi, hoffset⟩ := hplace s hs
      exact ⟨i, Nat.lt_succ_of_lt hi, hoffset⟩

theorem laid_ofParams (params : List Param) : (ofParams params).Laid params.length :=
  laid_params params.length params 0 (by omega) nodup_nil fun _ hslot => by cases hslot

end Frame

/-! ## Statements inside of a body -/

mutual

/-- Lowering comes to a statement inside of another one, with an index and a frame. -/
inductive InStmt (site : Site) : Nat → Frame → Stmt → Nat → Frame → Stmt → Prop
  | self {start : Nat} {frame : Frame} {s : Stmt} : InStmt site start frame s start frame s
  | block {start k : Nat} {frame f : Frame} {span : Span} {body : List Stmt} {s : Stmt}
      (h : InStmts site start { frame with slots := frame.slots.push } body k f s) :
      InStmt site start frame (.block span body) k f s
  | ifThen {start k : Nat} {frame f : Frame} {span : Span} {test : Expr} {thenBranch s : Stmt}
      {condition : LabelledCode} (hc : site.conditionCode frame.slots test = .ok condition)
      (h : InStmt site (start + condition.length + 1) frame thenBranch k f s) :
      InStmt site start frame (.ifThen span test thenBranch) k f s
  | thenBranch {start k : Nat} {frame f : Frame} {span : Span} {test : Expr}
      {thenBranch elseBranch s : Stmt} {condition : LabelledCode}
      (hc : site.conditionCode frame.slots test = .ok condition)
      (h : InStmt site (start + condition.length + 1) frame thenBranch k f s) :
      InStmt site start frame (.ifThenElse span test thenBranch elseBranch) k f s
  | elseBranch {start k : Nat} {frame frame' f : Frame} {span : Span} {test : Expr}
      {thenBranch elseBranch s : Stmt} {condition code : LabelledCode}
      (hc : site.conditionCode frame.slots test = .ok condition)
      (ht : site.stmtCode (start + condition.length + 1) frame thenBranch = .ok (code, frame'))
      (h : InStmt site (start + condition.length + 1 + code.length + 1) frame' elseBranch k f s) :
      InStmt site start frame (.ifThenElse span test thenBranch elseBranch) k f s
  | loop {start k : Nat} {frame f : Frame} {span : Span} {test : Expr} {body s : Stmt}
      {condition : LabelledCode} (hc : site.conditionCode frame.slots test = .ok condition)
      (h : InStmt site (start + condition.length + 1) frame body k f s) :
      InStmt site start frame (.loop span test body) k f s

/-- Lowering comes to a statement inside of several ones, with an index and a frame. -/
inductive InStmts (site : Site) : Nat → Frame → List Stmt → Nat → Frame → Stmt → Prop
  | head {start k : Nat} {frame f : Frame} {t s : Stmt} {ss : List Stmt}
      (h : InStmt site start frame t k f s) : InStmts site start frame (t :: ss) k f s
  | tail {start k : Nat} {frame frame' f : Frame} {t s : Stmt} {ss : List Stmt}
      {code : LabelledCode} (ht : site.stmtCode start frame t = .ok (code, frame'))
      (h : InStmts site (start + code.length) frame' ss k f s) :
      InStmts site start frame (t :: ss) k f s

end

/-- A statement has its place in code that begins with some depth: its own code stands there, and
the depth that is reached there is the number of locals. Everything that has been found out about
its surroundings still holds of it. -/
structure Placed (naming : Identification.Site) (site : Site) (arity start : Nat)
    (code : LabelledCode) (depth : Int) (k : Nat) (f : Frame) (s : Stmt) : Prop where
  code : ∃ front own back f', code = front ++ own ++ back ∧ k = start + front.length ∧
    Level.after depth front = ⟨f.locals, f.locals⟩ ∧ site.stmtCode k f s = .ok (own, f')
  scopes : ∃ locals locals', f.Ready locals ∧ naming.checkStmt locals s = .ok locals'
  laid : f.Laid arity
  args : FitsImmediate (s.mostArgs + 1)
  words : FitsImmediate (f.locals + s.mostLocals)

variable {naming : Identification.Site} {lowering : Site} {arity : Nat}

/-- What has its place in a part of the code has it in the whole. -/
theorem Placed.inside {start' : Nat} {back whole : LabelledCode} {d d' : Int} {k : Nat} {f : Frame}
    (h : Placed naming lowering arity start' code d' k f s) (front : LabelledCode)
    (hwhole : whole = front ++ code ++ back) (hstart : start' = start + front.length)
    (hlevel : Level.after d front = ⟨d', d'⟩) :
    Placed naming lowering arity start whole d k f s := by
  obtain ⟨before, own, behind, f', rfl, rfl, hdepth, hown⟩ := h.code
  refine ⟨⟨front ++ before, own, behind ++ back, f', ?_, ?_, ?_, hown⟩, h.scopes, h.laid, h.args,
    h.words⟩
  · rw [hwhole]
    simp only [append_assoc]
  · rw [hstart, length_append, Nat.add_assoc]
  · rw [Level.after_append hlevel, hdepth]

/-- The frame behind a statement is laid as well. -/
theorem laid_stmtCode {frame' : Frame} (hready : frame.Ready locals)
    (hcheck : naming.checkStmt locals s = .ok locals')
    (hcode : lowering.stmtCode start frame s = .ok (code, frame')) (hlaid : frame.Laid arity) :
    frame'.Laid arity := by
  cases hbranch : Identification.checkBranch s with
  | ok =>
    obtain ⟨rfl, -⟩ := frame_stmtCode hready s hbranch hcheck hcode
    exact hlaid
  | error _ =>
    cases s with
    | declare =>
      obtain ⟨_, -, ⟨⟩⟩ := bind_eq_ok.mp hcode
      exact hlaid.declare _ _
    | _ => cases hbranch

theorem Placed.of_stmtCode {frame' : Frame} (hready : frame.Ready locals)
    (hcheck : naming.checkStmt locals s = .ok locals')
    (hcode : lowering.stmtCode start frame s = .ok (code, frame')) (hlaid : frame.Laid arity)
    (hargs : FitsImmediate (s.mostArgs + 1))
    (hwords : FitsImmediate (frame.locals + s.mostLocals)) :
    Placed naming lowering arity start code frame.locals start frame s :=
  ⟨⟨[], code, [], frame', (append_nil _).symm, rfl, rfl, hcode⟩,
    ⟨locals, locals', hready, hcheck⟩, hlaid, hargs, hwords⟩

theorem start_guarded (start : Nat) (condition : LabelledCode) (i : Instr Label) :
    start + condition.length + 1 = start + (condition ++ [i]).length := by
  rw [length_append, length_singleton, Nat.add_assoc]

/-- Behind a condition and the branch that looks at it, the depth is the one in front of them. -/
theorem after_guard {test : Expr} {condition : LabelledCode}
    (hcondition : lowering.conditionCode slots test = .ok condition)
    (hargs : FitsImmediate (test.mostArgs + 1)) {d : Int} (target : Label) :
    Level.after d (condition ++ [.jumpIf .equal target]) = ⟨d, d⟩ := by
  rw [Level.after_append ((Site.straight_conditionCode hcondition hargs).tracks [] 0).level]
  rfl

mutual

/-- A statement inside of another one has its place in the code of that one. -/
theorem placed_of_inStmt {frame frame' : Frame} {locals locals' : ScopeStack LocalVar}
    (hready : frame.Ready locals) (s : Stmt) (hcheck : naming.checkStmt locals s = .ok locals')
    {start : Nat} {code : LabelledCode}
      (hcode : lowering.stmtCode start frame s = .ok (code, frame'))
    (hlaid : frame.Laid arity) (hargs : FitsImmediate (s.mostArgs + 1))
    (hwords : FitsImmediate (frame.locals + s.mostLocals)) {k : Nat} {f : Frame} {t : Stmt}
    (hin : InStmt lowering start frame s k f t) :
    Placed naming lowering arity start code frame.locals k f t := by
  cases s with
  | declare | assign | assignIndex | call | ret =>
    cases hin
    exact .of_stmtCode hready hcheck hcode hlaid hargs hwords
  | block _ body =>
    cases hin with
    | self => exact .of_stmtCode hready hcheck hcode hlaid hargs hwords
    | block hin =>
      obtain ⟨_, hinner, ⟨⟩⟩ := bind_eq_ok.mp hcheck
      obtain ⟨⟨_, _⟩, hbody, ⟨⟩⟩ := bind_eq_ok.mp hcode
      have hplaced := placed_of_inStmts hready.push body hinner hbody
        ⟨hlaid.nodup, hlaid.place⟩ hargs hwords hin
      exact hplaced.inside [] rfl rfl rfl
  | ifThen _ _ thenBranch =>
    cases hin with
    | self => exact .of_stmtCode hready hcheck hcode hlaid hargs hwords
    | @ifThen _ _ _ _ _ _ _ _ condition hcondition hin =>
      obtain ⟨⟨⟩, -, ⟨⟩, _, hcheck⟩ := bind₂_eq_ok.mp hcheck
      obtain ⟨_, hcondition', hcode⟩ := bind_eq_ok.mp hcode
      cases hcondition.symm.trans hcondition'
      obtain ⟨⟨_, _⟩, hthenCode, ⟨⟩⟩ := bind_eq_ok.mp hcode
      have hplaced := placed_of_inStmt hready thenBranch hcheck hthenCode hlaid
        hargs.right hwords hin
      exact hplaced.inside _ (append_nil _).symm (start_guarded _ _ _)
        (after_guard hcondition hargs.left _)
  | ifThenElse _ _ thenBranch elseBranch =>
    cases hin with
    | self => exact .of_stmtCode hready hcheck hcode hlaid hargs hwords
    | @thenBranch _ _ _ _ _ _ _ _ _ condition hcondition hin =>
      obtain ⟨⟨⟩, -, ⟨⟩, _, _, hthenCheck, _⟩ := bind₃_eq_ok.mp hcheck
      obtain ⟨_, hcondition', hcode⟩ := bind_eq_ok.mp hcode
      cases hcondition.symm.trans hcondition'
      obtain ⟨⟨_, _⟩, hthenCode, hcode⟩ := bind_eq_ok.mp hcode
      obtain ⟨⟨_, _⟩, _, ⟨⟩⟩ := bind_eq_ok.mp hcode
      have hplaced := placed_of_inStmt hready thenBranch hthenCheck hthenCode hlaid hargs.right.left
        (hwords.mono (Nat.add_le_add_left (Nat.le_max_left _ _) _)) hin
      exact hplaced.inside _ (append_assoc _ _ _) (start_guarded _ _ _)
        (after_guard hcondition hargs.left _)
    | @elseBranch _ _ _ _ _ _ _ _ _ _ condition thenCode hcondition hthen' hin =>
      -- In front of this branch stand the condition and the other branch, which leaves nothing
      -- behind.
      obtain ⟨⟨⟩, -, ⟨⟩, hthen, _, hthenCheck, hcheck⟩ := bind₃_eq_ok.mp hcheck
      obtain ⟨⟨⟩, _, helseCheck⟩ := bind_eq_ok.mp hcheck
      obtain ⟨_, hcondition', hcode⟩ := bind_eq_ok.mp hcode
      cases hcondition.symm.trans hcondition'
      obtain ⟨⟨_, _⟩, hthenCode, hcode⟩ := bind_eq_ok.mp hcode
      cases hthen'.symm.trans hthenCode
      obtain ⟨⟨_, _⟩, helseCode, ⟨⟩⟩ := bind_eq_ok.mp hcode
      obtain ⟨rfl, rfl⟩ := frame_stmtCode hready thenBranch hthen hthenCheck hthenCode
      have hplaced := placed_of_inStmt hready elseBranch helseCheck helseCode hlaid
        hargs.right.right
        (hwords.mono (Nat.add_le_add_left (Nat.le_max_right _ _) _)) hin
      have hthenTracks := tracks_branchCode [] hready thenBranch hthen hthenCheck hthenCode
        hargs.right.left
        (hwords.mono ((Nat.le_max_left _ _).trans (Nat.le_add_left _ _)))
      refine hplaced.inside _ (append_nil _).symm ?_ ?_
      · simp only [length_append, length_singleton]
        omega
      · rw [append_assoc, Level.after_append (after_guard hcondition hargs.left _),
          Level.after_append (hthenTracks _).level]
        rfl
  | loop _ _ body =>
    cases hin with
    | self => exact .of_stmtCode hready hcheck hcode hlaid hargs hwords
    | @loop _ _ _ _ _ _ _ _ condition hcondition hin =>
      obtain ⟨⟨⟩, -, ⟨⟩, _, hcheck⟩ := bind₂_eq_ok.mp hcheck
      obtain ⟨_, hcondition', hcode⟩ := bind_eq_ok.mp hcode
      cases hcondition.symm.trans hcondition'
      obtain ⟨⟨_, _⟩, hbodyCode, ⟨⟩⟩ := bind_eq_ok.mp hcode
      have hplaced := placed_of_inStmt hready body hcheck hbodyCode hlaid hargs.right hwords hin
      exact hplaced.inside _ rfl (start_guarded _ _ _) (after_guard hcondition hargs.left _)

/-- A statement inside of several ones has its place in their code. -/
theorem placed_of_inStmts {frame frame' : Frame} {locals locals' : ScopeStack LocalVar}
    (hready : frame.Ready locals) (ss : List Stmt)
    (hcheck : naming.checkStmts locals ss = .ok locals') {start : Nat} {code : LabelledCode}
    (hcode : lowering.stmtsCode start frame ss = .ok (code, frame'))
    (hlaid : frame.Laid arity) (hargs : FitsImmediate (Stmt.mostArgsOf ss + 1))
    (hwords : FitsImmediate (frame.locals + Stmt.mostLocalsOf ss)) {k : Nat} {f : Frame} {t : Stmt}
    (hin : InStmts lowering start frame ss k f t) :
    Placed naming lowering arity start code frame.locals k f t := by
  cases ss with
  | nil => cases hin
  | cons s ss =>
    obtain ⟨_, hfirst, hothers⟩ := bind_eq_ok.mp hcheck
    obtain ⟨⟨first, _⟩, hfirstCode, hcode⟩ := bind_eq_ok.mp hcode
    obtain ⟨⟨_, _⟩, hothersCode, ⟨⟩⟩ := bind_eq_ok.mp hcode
    have hargs₁ := hargs.mono (Nat.succ_le_succ (Nat.le_max_left _ _))
    cases hin with
    | head hin =>
      have hplaced := placed_of_inStmt hready s hfirst hfirstCode hlaid hargs₁
        (hwords.mono (Nat.add_le_add_left (Nat.le_max_left _ _) _)) hin
      exact hplaced.inside [] rfl rfl rfl
    | tail hfirstCode' hin =>
      -- The first statement may have declared a variable, so the others begin with its frame.
      cases hfirstCode'.symm.trans hfirstCode
      obtain ⟨hready₁, -, -⟩ := extends_stmtCode hready hfirst hfirstCode
        fun hbranch => frame_stmtCode hready s hbranch hfirst hfirstCode
      obtain ⟨hcount, htracks⟩ := tracks_stmtCode_of [] frame.locals hready hfirst hfirstCode hargs₁
        fun hbranch => tracks_branchCode [] hready s hbranch hfirst hfirstCode hargs₁
          (hwords.mono ((Nat.le_max_left _ _).trans (Nat.le_add_left _ _))) frame.locals
      have hplaced := placed_of_inStmts hready₁ ss hothers hothersCode
        (laid_stmtCode hready hfirst hfirstCode hlaid) hargs.right
        (hwords.mono (by
          rw [hcount, Nat.add_assoc]
          exact Nat.add_le_add_left (Nat.le_max_right _ _) _)) hin
      rw [hcount, Nat.cast_add] at hplaced
      exact hplaced.inside first (append_nil _).symm rfl htracks.level

end

/-! ## Methods -/

/-- What holds of a statement inside of a body whose code begins behind the entry of its method: its
code stands at its index; entered with any depth, it leaves a word if it declares a variable and
nothing otherwise; on every path from the beginning of the body the depth in front of it and behind
it is what lowering counts; the offsets of the variables are apart; and a variable that it declares
has the offset of the word that has been added. -/
structure StmtDisciplined (site : Site) (first : Nat) (rest : LabelledCode) (k : Nat) (f f' : Frame)
    (s : Stmt) (own : LabelledCode) : Prop where
  lowered : site.stmtCode k f s = .ok (own, f')
  stands : ∃ front back, rest = front ++ own ++ back ∧ k = first + front.length
  disciplined : ∀ d, Disciplined k own d (d + s.declared)
  front : ∀ d, Path first rest (first, 0) (k, d) → d = f.locals
  behind : ∀ d, Path first rest (first, 0) (k + own.length, d) → d = f'.locals
  counted : f'.locals = f.locals + s.declared
  offsets : f.OffsetsApart
  offsets' : f'.OffsetsApart
  declared : ∀ span type name init, s = .declare span type name init →
    site.exprCode f.slots init = .ok own ∧
      f'.slots.lookup name.value = some ⟨-(wordSize * f'.locals : Nat), type.value⟩

/-- The offset that is recorded for a variable is that of the last word. -/
theorem lookup_declare (hready : frame.Ready locals) {span : Span} {type : Located Ty}
    {name : Ident} {init : Expr}
    (hcheck : naming.checkStmt locals (.declare span type name init) = .ok locals') :
    (frame.declare name.value type.value).slots.lookup name.value =
      some ⟨-(wordSize * (frame.locals + 1) : Nat), type.value⟩ := by
  obtain ⟨⟨⟩, -, _, hduring, -⟩ := bind₂_eq_ok.mp hcheck
  obtain ⟨_, hslots, -⟩ := hready.declare hduring
    ⟨-(wordSize * (frame.locals + 1) : Nat), type.value⟩ rfl
  rw [Frame.declare, ScopeStack.defineNew, hslots, Option.getD_some,
    ScopeStack.lookup_define? hslots, if_pos rfl]

/-- A statement that has its place in a body keeps the discipline. -/
theorem Placed.stmtDisciplined {first : Nat} {body : LabelledCode} {n : Int} {k : Nat} {f : Frame}
    (h : Placed naming lowering arity first body 0 k f s)
    (htracks : Tracks [] 0 first (body ++ Routine.leave) 0 n) (harity : FitsImmediate (arity + 2)) :
    ∃ own f', StmtDisciplined lowering first (body ++ Routine.leave) k f f' s own := by
  obtain ⟨front, own, back, f', rfl, rfl, hlevel, hown⟩ := h.code
  obtain ⟨locals, _, hready, hcheck⟩ := h.scopes
  have hall : ∀ d, f'.locals = f.locals + s.declared ∧
      Tracks [] d (first + front.length) own d (d + s.declared) := fun d =>
    tracks_stmtCode_of [] d hready hcheck hown h.args fun hbranch =>
      tracks_branchCode [] hready s hbranch hcheck hown h.args
        (h.words.mono (Nat.le_add_left _ _)) d
  have hcount := (hall 0).1
  have hdeclared : s.declared ≤ s.mostLocals := by
    cases s with
    | declare => exact Nat.le_refl 1
    | _ => exact Nat.zero_le _
  have hbehind : Level.after 0 (front ++ own) = ⟨f'.locals, f'.locals⟩ := by
    rw [Level.after_append hlevel, (hall f.locals).2.level, hcount, Nat.cast_add]
  refine ⟨own, f', hown, ⟨front, back ++ Routine.leave, ?_, rfl⟩, ?_, ?_, ?_, hcount, ?_, ?_, ?_⟩
  · simp only [append_assoc]
  · intro d
    exact (hall d).2.disciplined (by omega)
  · intro d hpath
    have hcode : front ++ own ++ back ++ Routine.leave = front ++
        (own ++ back ++ Routine.leave) := by
      simp only [append_assoc]
    exact htracks.depth_of_path hcode hlevel hpath
  · intro _ hpath
    rw [Nat.add_assoc, ← length_append] at hpath
    exact htracks.depth_of_path (append_assoc _ _ _) hbehind hpath
  · exact h.laid.offsetsApart harity (h.words.mono (Nat.le_add_right _ _))
  · refine (laid_stmtCode hready hcheck hown h.laid).offsetsApart harity (h.words.mono ?_)
    rw [hcount]
    exact Nat.add_le_add_left hdeclared _
  · rintro _ _ _ _ rfl
    obtain ⟨_, hvalue, heq⟩ := bind_eq_ok.mp hown
    cases heq
    exact ⟨hvalue, lookup_declare hready hcheck⟩

end Lowering

open Lowering

/-- The code of every method of an identified program keeps the discipline of the stack. Behind the
entry, where the depth is zero, paths through the code only end at a return, and two of them that
meet have the same depth. The code of an expression, entered with any depth, is gone through to its
end, leaves one word more than there was, and never goes below that depth. Each statement of the
body keeps the discipline in its place. -/
theorem stack_discipline {p : Program} {table : ClassTable} (h : identify p = .ok table)
    {c : ClassDecl} (hc : c ∈ p.classes) {m : MethodDecl} (hm : m ∈ c.methods)
    (hfit : FitsImmediate m.frameWords) (start : Nat) :
    ∃ first rest, first = start + (Routine.enter : LabelledCode).length ∧
      methodCode table (.ofProgram p) c.name.value start m = .ok (Routine.enter ++ rest) ∧
      (∃ n, Disciplined first rest 0 n) ∧
      (∀ k d, Path first rest (first, 0) (k, d) → k < first + rest.length) ∧
      (∀ slots e own, (Body.ofMethod table p c.name.value m).lowering.exprCode slots e = .ok own →
        e.mostArgs ≤ Stmt.mostArgsOf m.body → ∀ k d, Disciplined k own d (d + 1) ∧
          Path k own (k, d) (k + own.length, d + 1) ∧
          ∀ j d', Path k own (k, d) (j, d') → d ≤ d') ∧
      ∀ k f s, InStmts (Body.ofMethod table p c.name.value m).lowering first
          (Frame.ofParams m.params) m.body k f s →
        ∃ own f', StmtDisciplined (Body.ofMethod table p c.name.value m).lowering
          first rest k f f' s own := by
  obtain ⟨locals, _, -, haligned, hbody⟩ := checkStmts_of_identify h hc hm
  obtain ⟨_, hcode⟩ := exists_methodCode h hc hm start
  obtain ⟨⟨body, frame⟩, hlowered, ⟨⟩⟩ := bind_eq_ok.mp hcode
  have hready := Frame.ready_of_aligned haligned
  have hlocals : FitsImmediate (Stmt.mostLocalsOf m.body) := hfit.mono (Nat.le_max_left _ _)
  have harity : FitsImmediate (m.params.length + 2) :=
    hfit.mono ((Nat.le_max_left _ _).trans (Nat.le_max_right _ _))
  have hargs : FitsImmediate (Stmt.mostArgsOf m.body + 1) :=
    hfit.mono ((Nat.le_max_right _ _).trans (Nat.le_max_right _ _))
  obtain ⟨n, -, -, htracks⟩ := tracks_stmtsCode [] hready m.body hbody hlowered hargs hlocals 0
  have hwhole := htracks.append (.leave (show (0 : Int) ≤ 0 + n by omega))
  refine ⟨_, body ++ Routine.leave, rfl, ?_, ⟨_, hwhole.disciplined (by omega)⟩, ?_, ?_, ?_⟩
  · rw [hcode, append_assoc]
  · intro k d hpath
    exact htracks.lt_of_path hpath
  · intro _ e _ hown hle k d
    have hstraight := Site.straight_exprCode e hown (hargs.mono (Nat.succ_le_succ hle)) d
    -- An expression is straight code, so there is a path through it.
    refine ⟨(hstraight.tracks [] k).disciplined (by omega), hstraight.path k, ?_⟩
    intro _ _ hpath
    exact hstraight.le_of_path (by omega) hpath
  · intro _ _ _ hin
    have hplaced := placed_of_inStmts hready m.body hbody hlowered
      (Frame.laid_ofParams m.params) hargs (by
        rw [show (Scopes.ofParams locals m.params).frame.locals = 0 from rfl, Nat.zero_add]
        exact hlocals) hin
    exact Placed.stmtDisciplined hplaced hwhole harity

/-- A method that declares variables in nested blocks of a loop. -/
def nestingMethod : MethodDecl where
  span := Span.builtin
  isPrivate := false
  isStatic := false
  returns := ⟨.int, Span.builtin⟩
  name := ⟨"last", Span.builtin⟩
  owner := "Counter"
  params := [⟨Span.builtin, ⟨.int, Span.builtin⟩, ⟨"n", Span.builtin⟩⟩]
  body :=
    [.loop Span.builtin
      (.binary Span.builtin .less (.literal Span.builtin (.int 0)) (.ref (.name Span.builtin "n")))
      (.block Span.builtin
        [.declare Span.builtin ⟨.int, Span.builtin⟩ ⟨"k", Span.builtin⟩
          (.binary Span.builtin .sub (.ref (.name Span.builtin "n"))
          (.literal Span.builtin (.int 1))),
         .block Span.builtin
          [.declare Span.builtin ⟨.int, Span.builtin⟩ ⟨"j", Span.builtin⟩
            (.ref (.name Span.builtin "k")),
           .assign Span.builtin (.name Span.builtin "n") (.ref (.name Span.builtin "j"))]]),
     .ret Span.builtin (some (.ref (.name Span.builtin "n")))]

/-- The program with `nestingMethod` only. -/
def nestingProgram : Program where
  classes := [⟨Span.builtin, ⟨"Counter", Span.builtin⟩, [], [nestingMethod]⟩]

theorem stack_discipline_nestingMethod :
    ∃ table, identify nestingProgram = .ok table ∧ FitsImmediate nestingMethod.frameWords ∧
      ∃ first rest, methodCode table (.ofProgram nestingProgram) "Counter" 7 nestingMethod =
          .ok (Routine.enter ++ rest) ∧ (∃ n, Disciplined first rest 0 n) ∧
        ∃ k f f' own,
          StmtDisciplined (Body.ofMethod table nestingProgram "Counter" nestingMethod).lowering
            first rest k f f' (.declare Span.builtin ⟨.int, Span.builtin⟩ ⟨"j", Span.builtin⟩
              (.ref (.name Span.builtin "k"))) own ∧ f'.locals = 2 := by
  have hfit : FitsImmediate nestingMethod.frameWords := by
    unfold FitsImmediate
    decide
  refine ⟨_, rfl, hfit, ?_⟩
  obtain ⟨_, rest, rfl, hcode, hwhole, -, -, hstmts⟩ :=
    stack_discipline (p := nestingProgram) rfl mem_cons_self mem_cons_self hfit 7
  refine ⟨_, rest, hcode, hwhole, ?_⟩
  obtain ⟨own, f', hown⟩ := hstmts _ _ _ (.head (.loop rfl (.block (.tail rfl (.head (.block
    (.head .self)))))))
  exact ⟨_, _, f', own, hown, hown.counted⟩

end MiniJava
