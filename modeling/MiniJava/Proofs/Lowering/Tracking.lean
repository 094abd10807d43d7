import MiniJava.Proofs.Lowering.Depth
import MiniJava.Proofs.Lowering.Frames
import MiniJava.Proofs.Lowering.Targets

/-!
# Depths of expressions and statements

The code of an expression leaves one word on the stack (`tracks_exprCode`) and that of a
statement none (`tracks_branchCode`), except for a declaration, whose word stays
(`tracks_stmtsCode`).

The counter of lowering goes by the sizes of scopes and the stack by what the code pushes.
They agree since a scope of an identified program has one name for each declaration, which
is what `Frame.Extends` says.

Numbers of words are written into the code with 32 bits, so they must not be too large
(`FitsImmediate`). `MethodDecl.frameWords` is the largest one that the code of a method needs.
-/

namespace MiniJava

open List

/-! ## Words of a frame -/

mutual

/-- The largest number of arguments of a call inside of an expression. -/
def Expr.mostArgs : Expr → Nat
  | .literal _ _ | .ref _ | .newObject _ _ => 0
  | .unary _ _ operand => operand.mostArgs
  | .binary _ _ left right => max left.mostArgs right.mostArgs
  | .index _ _ position => position.mostArgs
  | .call _ _ args => max args.length (Expr.mostArgsOf args)
  | .newArray _ _ size => size.mostArgs

/-- The largest number of arguments of a call inside of several expressions. -/
def Expr.mostArgsOf : List Expr → Nat
  | [] => 0
  | e :: es => max e.mostArgs (Expr.mostArgsOf es)

end

mutual

/-- The largest number of arguments of a call inside of a statement. -/
def Stmt.mostArgs : Stmt → Nat
  | .block _ body => Stmt.mostArgsOf body
  | .declare _ _ _ init => init.mostArgs
  | .assign _ _ value => value.mostArgs
  | .assignIndex _ _ position value => max position.mostArgs value.mostArgs
  | .call _ _ args => max args.length (Expr.mostArgsOf args)
  | .ret _ none => 0
  | .ret _ (some value) => value.mostArgs
  | .ifThen _ test thenBranch => max test.mostArgs thenBranch.mostArgs
  | .ifThenElse _ test thenBranch elseBranch =>
    max test.mostArgs (max thenBranch.mostArgs elseBranch.mostArgs)
  | .loop _ test body => max test.mostArgs body.mostArgs

/-- The largest number of arguments of a call inside of several statements. -/
def Stmt.mostArgsOf : List Stmt → Nat
  | [] => 0
  | s :: ss => max s.mostArgs (Stmt.mostArgsOf ss)

end

/-- The number of words that a statement leaves on the stack. -/
def Stmt.declared : Stmt → Nat
  | .declare _ _ _ _ => 1
  | _ => 0

mutual

/-- The largest number of locals of a statement that are alive at one time. -/
def Stmt.mostLocals : Stmt → Nat
  | .block _ body => Stmt.mostLocalsOf body
  | .declare _ _ _ _ => 1
  | .assign _ _ _ | .assignIndex _ _ _ _ | .call _ _ _ | .ret _ _ => 0
  | .ifThen _ _ thenBranch => thenBranch.mostLocals
  | .ifThenElse _ _ thenBranch elseBranch => max thenBranch.mostLocals elseBranch.mostLocals
  | .loop _ _ body => body.mostLocals

/-- The largest number of locals of several statements that are alive at one time. -/
def Stmt.mostLocalsOf : List Stmt → Nat
  | [] => 0
  | s :: ss => max s.mostLocals (s.declared + Stmt.mostLocalsOf ss)

end

/-- The largest number of words that the code of a method counts: its locals, its parameters with
the saved base and the return address, or the arguments of a call with the receiver. -/
def MethodDecl.frameWords (m : MethodDecl) : Nat :=
  max (Stmt.mostLocalsOf m.body) (max (m.params.length + 2) (Stmt.mostArgsOf m.body + 1))

/-- A number of words for which 32 bits are enough. -/
def FitsImmediate (words : Nat) : Prop := wordSize * words < 2 ^ 31

theorem FitsImmediate.mono {n n' : Nat} (h : FitsImmediate n') (hle : n ≤ n') : FitsImmediate n :=
  Nat.lt_of_le_of_lt (Nat.mul_le_mul_left _ hle) h

theorem FitsImmediate.left {m n : Nat} (h : FitsImmediate (max m n + 1)) : FitsImmediate (m + 1) :=
  h.mono (Nat.succ_le_succ (Nat.le_max_left m n))

theorem FitsImmediate.right {m n : Nat} (h : FitsImmediate (max m n + 1)) : FitsImmediate (n + 1) :=
  h.mono (Nat.succ_le_succ (Nat.le_max_right m n))

namespace Lowering

variable {d : Int}

/-- Taking words off the stack. -/
theorem straight_dropWords {n : Nat} (h : FitsImmediate n) :
    Straight d (dropWords n) (d + n) d := by
  unfold dropWords
  split
  next hzero =>
    rw [hzero, Nat.cast_zero, Int.add_zero]
    exact .nil
  next =>
    have himm : (Int32.ofNat (wordSize * n)).toInt = wordSize * n := by
      rw [Int32.toInt_ofNat_of_lt h]
      exact Nat.cast_mul _ _
    have hchange : Op.depthChange? (.aluImm .add .rsp (Int32.ofNat (wordSize * n))) =
        some (-(n : Int)) := by
      rw [Op.depthChange?, himm, if_pos (Int.mul_emod_right _ _),
        Int.mul_ediv_cancel_left _ (by decide)]
    refine .ops n 0 ?_ rfl (Int.add_zero d).symm
    rw [Op.walk?, if_pos ⟨Int.natCast_nonneg n, rfl⟩, hchange]
    exact congrArg some (Int.add_right_neg _)

variable {code : LabelledCode}

namespace Site

variable {site : Site} {slots : ScopeStack Slot}

/-! ## References -/

theorem refClosed_straight : RefClosed fun code => ∀ d, Straight d code d (d + 1) where
  receiver _ d := .ops 0 1 rfl (Int.add_zero d).symm rfl
  address _ d := .ops 0 1 rfl (Int.add_zero d).symm rfl
  field h _ d := (h d).append (.ops 1 1 rfl rfl rfl)
  read h d := (h d).append (.ops 1 1 rfl rfl rfl)

variable {r : Ref} {callee : Callee}

theorem straight_valueCode (h : site.valueCode slots r = .ok code) : Straight d code d (d + 1) :=
  refClosed_straight.valueCode h d

theorem straight_targetCode (h : site.targetCode slots r = .ok code) : Straight d code d (d + 1) :=
  refClosed_straight.targetCode h d

/-! ## Calls and expressions -/

theorem straight_callee (h : site.callee slots r = .ok callee) :
    callee.receiverWords ≤ 1 ∧ Straight d callee.receiver d (d + callee.receiverWords) := by
  obtain ⟨hwords, hnil⟩ | ⟨hwords, hreceiver⟩ := refClosed_straight.callee h <;> rw [hwords]
  · rw [hnil, Nat.cast_zero, Int.add_zero]
    exact ⟨Nat.zero_le 1, .nil⟩
  · exact ⟨Nat.le_refl 1, hreceiver d⟩

/-- A call takes its receiver and its arguments off the stack again. -/
theorem straight_call (hcallee : site.callee slots r = .ok callee) {args : LabelledCode}
    {count : Nat} (hargs : ∀ d, Straight d args d (d + count)) (hfit : FitsImmediate (count + 1)) :
    Straight d (callee.call args count) d d := by
  have hreceiver : callee.receiverWords ≤ 1 ∧
      Straight d callee.receiver d (d + callee.receiverWords) := straight_callee hcallee
  have hdrop : Straight d (dropWords (callee.receiverWords + count))
      (d + (callee.receiverWords + count : Nat)) d := straight_dropWords (hfit.mono (by omega))
  rw [Nat.cast_add, ← Int.add_assoc] at hdrop
  refine Straight.append (Straight.append ?_ (.call _ ?_)) hdrop
  · exact hreceiver.2.append_above (hargs _) (by omega)
  · omega

mutual

/-- The code of an expression leaves one word. -/
theorem straight_exprCode (e : Expr) {code : LabelledCode}
    (h : site.exprCode slots e = .ok code) (hfit : FitsImmediate (e.mostArgs + 1)) (d : Int) :
    Straight d code d (d + 1) := by
  cases e with
  | literal =>
    cases h
    exact .ops 0 1 rfl (Int.add_zero d).symm rfl
  | unary _ op operand =>
    obtain ⟨_, hfirst, ⟨⟩⟩ := bind_eq_ok.mp h
    have hoperand := straight_exprCode operand hfirst hfit d
    cases op with
    | neg | not =>
      exact ((hoperand.append (.ops 1 0 rfl rfl rfl)).append (.ops 0 0 rfl rfl rfl)).append
        (.ops 0 1 rfl rfl rfl)
  | binary _ op left right =>
    obtain ⟨_, hfirst, _, hsecond, ⟨⟩⟩ := bind₂_eq_ok.mp h
    have hleft := straight_exprCode left hfirst hfit.left d
    have hright := straight_exprCode right hsecond hfit.right (d + 1)
    -- The word of the left operand stays below all that the right one does.
    have hboth := hleft.append_above hright (by omega)
    have hcode : Straight d (binaryCode op) (d + 0) (d + 0) := by
      cases op <;> exact .ops 0 0 rfl rfl rfl
    exact ((hboth.append (.ops 2 0 rfl (by omega) rfl)).append hcode).append (.ops 0 1 rfl rfl rfl)
  | ref => exact straight_valueCode h
  | index _ _ position =>
    obtain ⟨_, harray, _, hindex, ⟨⟩⟩ := bind₂_eq_ok.mp h
    have hposition := straight_exprCode position hindex hfit (d + 1)
    have hboth := Straight.append_above (straight_valueCode harray) hposition (by omega)
    exact (((hboth.append (.ops 2 0 rfl (by omega) rfl)).append (.ops 0 0 rfl rfl rfl)).append
      (.ops 0 0 rfl rfl rfl)).append (.ops 0 1 rfl rfl rfl)
  | call _ _ args =>
    obtain ⟨callee, hcallee, code, hcode, ⟨⟩⟩ := bind₂_eq_ok.mp h
    have hargs := straight_argsCode args hcode hfit.right
    have hcall : Straight d (callee.call code args.length) d d :=
      straight_call hcallee hargs hfit.left
    exact hcall.append (.ops 0 1 rfl (Int.add_zero d).symm rfl)
  | newObject =>
    cases h
    exact (Straight.append (.ops 0 0 rfl (Int.add_zero d).symm rfl) (.ops 0 0 rfl rfl rfl)).append
      (.ops 0 1 rfl rfl rfl)
  | newArray _ _ size =>
    obtain ⟨_, hcount, ⟨⟩⟩ := bind_eq_ok.mp h
    have hsize := straight_exprCode size hcount hfit d
    exact (((hsize.append (.ops 1 1 rfl rfl rfl)).append (.ops 1 1 rfl rfl rfl)).append
      (.ops 1 0 rfl rfl rfl)).append (.ops 0 1 rfl rfl rfl)

/-- The code of arguments leaves a word for each. -/
theorem straight_argsCode (es : List Expr) {code : LabelledCode}
    (h : site.argsCode slots es = .ok code)
    (hfit : FitsImmediate (Expr.mostArgsOf es + 1)) (d : Int) :
    Straight d code d (d + es.length) := by
  cases es with
  | nil =>
    cases h
    rw [length_nil, Nat.cast_zero, Int.add_zero]
    exact .nil
  | cons e es =>
    obtain ⟨_, hfirst, _, hothers, ⟨⟩⟩ := bind₂_eq_ok.mp h
    have hhead := straight_exprCode e hfirst hfit.left d
    have htail := straight_argsCode es hothers hfit.right (d + 1)
    rw [length_cons, Nat.cast_succ, Int.add_comm (es.length : Int), ← Int.add_assoc]
    exact hhead.append_above htail (by omega)

end

/-- A condition leaves nothing but flags. -/
theorem straight_conditionCode {test : Expr} (h : site.conditionCode slots test = .ok code)
    (hfit : FitsImmediate (test.mostArgs + 1)) :
    Straight d code d d := by
  obtain ⟨_, hvalue, ⟨⟩⟩ := bind_eq_ok.mp h
  exact (straight_exprCode test hvalue hfit d).append (.ops 1 0 rfl rfl (Int.add_zero d).symm)

end Site

/-! ## Statements -/

variable {naming : Identification.Site} {lowering : Site}

theorem declared_of_checkBranch {s : Stmt} (h : Identification.checkBranch s = .ok ()) :
    s.declared = 0 := by
  cases s with
  | declare => cases h
  | _ => rfl

/-- A statement leaves the word of its variable, if it declares one, given that any other statement
leaves nothing. -/
theorem tracks_stmtCode_of (marks : List (Nat × Int)) (d : Int) {frame frame' : Frame}
    {locals locals' : ScopeStack LocalVar} (hready : frame.Ready locals) {s : Stmt}
    (hcheck : naming.checkStmt locals s = .ok locals')
    (hcode : lowering.stmtCode start frame s = .ok (code, frame'))
    (hargs : FitsImmediate (s.mostArgs + 1))
    (hother : Identification.checkBranch s = .ok () → Tracks marks d start code d d) :
    frame'.locals = frame.locals + s.declared ∧ Tracks marks d start code d (d + s.declared) := by
  cases hbranch : Identification.checkBranch s with
  | ok =>
    rw [declared_of_checkBranch hbranch, Nat.cast_zero, Int.add_zero]
    obtain ⟨rfl, -⟩ := frame_stmtCode hready s hbranch hcheck hcode
    exact ⟨rfl, hother hbranch⟩
  | error _ =>
    cases s with
    | declare _ _ _ init =>
      obtain ⟨-, -, hlocals⟩ := extends_declare hready hcheck hcode
      obtain ⟨_, hvalue, ⟨⟩⟩ := bind_eq_ok.mp hcode
      exact ⟨hlocals, (Site.straight_exprCode init hvalue hargs d).tracks marks start⟩
    | _ => cases hbranch

mutual

/-- The code of a statement that is no declaration leaves the stack as it was. -/
theorem tracks_branchCode (marks : List (Nat × Int)) {frame frame' : Frame}
    {locals locals' : ScopeStack LocalVar} (hready : frame.Ready locals) (s : Stmt)
    (hbranch : Identification.checkBranch s = .ok ())
    (hcheck : naming.checkStmt locals s = .ok locals') {start : Nat} {code : LabelledCode}
    (hcode : lowering.stmtCode start frame s = .ok (code, frame'))
    (hargs : FitsImmediate (s.mostArgs + 1)) (hlocals : FitsImmediate s.mostLocals) (d : Int) :
    Tracks marks d start code d d := by
  cases s with
  | block _ body =>
    obtain ⟨_, hinner, ⟨⟩⟩ := bind_eq_ok.mp hcheck
    obtain ⟨⟨_, bodyFrame⟩, hbody, ⟨⟩⟩ := bind_eq_ok.mp hcode
    obtain ⟨n, hn, hcount, htracks⟩ :=
      tracks_stmtsCode marks hready.push body hinner hbody hargs hlocals d
    -- The scope of the block begins empty, so it has a name for each word.
    have hsize : bodyFrame.slots.innerSize = n := by
      obtain ⟨-, hextends, -⟩ := extends_stmtsCode hready.push body hinner hbody
      have hadded : bodyFrame.locals + 0 = frame.locals + bodyFrame.slots.innerSize :=
        hextends.locals
      have hframe : bodyFrame.locals = frame.locals + n := hcount
      omega
    rw [hsize]
    exact htracks.append ((straight_dropWords (hlocals.mono hn)).tracks marks _)
  | declare => cases hbranch
  | assign _ _ value =>
    obtain ⟨_, haddress, _, hword, ⟨⟩⟩ := bind₂_eq_ok.mp hcode
    have hvalue := Site.straight_exprCode value hword hargs (d + 1)
    have hboth := Straight.append_above (Site.straight_targetCode haddress) hvalue (by omega)
    exact (hboth.append (.ops 2 0 rfl (by omega) (Int.add_zero d).symm)).tracks marks start
  | assignIndex _ _ position value =>
    obtain ⟨_, harray, _, hindex, _, hword, ⟨⟩⟩ := bind₃_eq_ok.mp hcode
    have hposition := Site.straight_exprCode position hindex hargs.left (d + 1)
    have hvalue := Site.straight_exprCode value hword hargs.right (d + 1 + 1)
    have hthree := (Straight.append_above (Site.straight_valueCode harray) hposition
      (show d ≤ d + 1 by omega)).append_above hvalue (by omega)
    exact (((hthree.append (.ops 3 0 rfl (by omega) rfl)).append (.ops 0 0 rfl rfl rfl)).append
      (.ops 0 0 rfl rfl (Int.add_zero d).symm)).tracks marks start
  | call _ _ args =>
    obtain ⟨call, hcall, ⟨⟩⟩ := bind_eq_ok.mp hcode
    obtain ⟨callee, hcallee, words, hwords, ⟨⟩⟩ := bind₂_eq_ok.mp hcall
    have hcall : Straight d (callee.call words args.length) d d := Site.straight_call hcallee
      (Site.straight_argsCode args hwords hargs.right) hargs.left
    exact hcall.tracks marks start
  | ret _ value =>
    cases value with
    | none =>
      cases hcode
      exact .leave (Int.le_refl d)
    | some value =>
      obtain ⟨word, hword, ⟨⟩⟩ := bind_eq_ok.mp hcode
      have hvalue : Straight d (word ++ Instr.ops [.popReg .rax]) d d :=
        (Site.straight_exprCode value hword hargs d).append
          (.ops 1 0 rfl rfl (Int.add_zero d).symm)
      exact (hvalue.tracks marks start).append (.leave (Int.le_refl d))
  | ifThen _ _ thenBranch =>
    obtain ⟨⟨⟩, -, ⟨⟩, hthen, hcheck⟩ := bind₂_eq_ok.mp hcheck
    obtain ⟨condition, hcondition, ⟨thenCode, _⟩, hthenCode, ⟨⟩⟩ := bind₂_eq_ok.mp hcode
    have hfirst : Tracks ((start + condition.length + 1 + thenCode.length, d) :: marks) d start
        condition d d :=
      (Site.straight_conditionCode hcondition hargs.left).tracks _ start
    have hbranchCode := tracks_branchCode
      ((start + condition.length + 1 + thenCode.length, d) :: marks) hready thenBranch hthen hcheck
      hthenCode hargs.right hlocals d
    -- The only mark of the statement is its own end, where the depth is the one at its start.
    have hwhole := hfirst.guarded .equal hbranchCode mem_cons_self
    refine hwhole.resolve (append_nil _).symm ?_ hwhole.level
    simp only [length_append, length_singleton]
    omega
  | ifThenElse _ _ thenBranch elseBranch =>
    obtain ⟨⟨⟩, -, ⟨⟩, hthen, _, hthenCheck, hcheck⟩ := bind₃_eq_ok.mp hcheck
    obtain ⟨⟨⟩, helse, helseCheck⟩ := bind_eq_ok.mp hcheck
    obtain ⟨condition, hcondition, ⟨thenCode, _⟩, hthenCode, hcode⟩ := bind₂_eq_ok.mp hcode
    obtain ⟨⟨elseCode, _⟩, helseCode, ⟨⟩⟩ := bind_eq_ok.mp hcode
    obtain ⟨rfl, rfl⟩ := frame_stmtCode hready thenBranch hthen hthenCheck hthenCode
    -- Two marks: where the second branch begins, and where the statement ends.
    generalize helseStart : start + condition.length + 1 + thenCode.length + 1 = elseStart at *
    generalize hstop : elseStart + elseCode.length = stop at *
    have hfirst : Tracks ((elseStart, d) :: (stop, d) :: marks) d start condition d d :=
      (Site.straight_conditionCode hcondition hargs.left).tracks _ start
    have hthenTracks := tracks_branchCode ((elseStart, d) :: (stop, d) :: marks) hready thenBranch
      hthen hthenCheck hthenCode hargs.right.left
      (hlocals.mono (Nat.le_max_left _ _)) d
    have helseTracks := tracks_branchCode ((elseStart, d) :: (stop, d) :: marks) hready elseBranch
      helse helseCheck helseCode hargs.right.right
      (hlocals.mono (Nat.le_max_right _ _)) d
    have hfront := (hfirst.guarded .equal hthenTracks mem_cons_self).append
      (.jump (Int.le_refl d) (mem_cons_of_mem _ mem_cons_self))
    have hplace : elseStart = start + (condition ++ [Instr.jumpIf .equal (Label.index elseStart)] ++
        thenCode ++ [Instr.jump (Label.index stop)]).length := by
      simp only [length_append, length_singleton]
      omega
    have hwhole := hfront.append (by rw [← hplace]; exact helseTracks)
    refine (hwhole.resolve rfl hplace hfront.level).resolve (append_nil _).symm ?_ hwhole.level
    rw [length_append, ← Nat.add_assoc, ← hplace, hstop]
  | loop _ _ body =>
    obtain ⟨⟨⟩, -, ⟨⟩, hbody, hcheck⟩ := bind₂_eq_ok.mp hcheck
    obtain ⟨condition, hcondition, ⟨bodyCode, _⟩, hbodyCode, ⟨⟩⟩ := bind₂_eq_ok.mp hcode
    generalize hstop : start + condition.length + 1 + bodyCode.length + 1 = stop at *
    have hfirst : Tracks ((start, d) :: (stop, d) :: marks) d start condition d d :=
      (Site.straight_conditionCode hcondition hargs.left).tracks _ start
    have hbodyTracks := tracks_branchCode ((start, d) :: (stop, d) :: marks) hready
      body hbody hcheck hbodyCode hargs.right hlocals d
    have hwhole := (hfirst.guarded .equal hbodyTracks
      (mem_cons_of_mem _ mem_cons_self)).append (.jump (Int.le_refl d) mem_cons_self)
    -- The jump back leads to the first instruction, the other one behind the last.
    refine (hwhole.resolve (nil_append _).symm rfl rfl).resolve (append_nil _).symm ?_
      hwhole.level
    simp only [length_append, length_singleton]
    omega

/-- The code of statements in turn leaves a word for each declaration. -/
theorem tracks_stmtsCode (marks : List (Nat × Int)) {frame frame' : Frame}
    {locals locals' : ScopeStack LocalVar} (hready : frame.Ready locals) (ss : List Stmt)
    (hcheck : naming.checkStmts locals ss = .ok locals') {start : Nat} {code : LabelledCode}
    (hcode : lowering.stmtsCode start frame ss = .ok (code, frame'))
    (hargs : FitsImmediate (Stmt.mostArgsOf ss + 1))
    (hlocals : FitsImmediate (Stmt.mostLocalsOf ss)) (d : Int) :
    ∃ n ≤ Stmt.mostLocalsOf ss, frame'.locals = frame.locals + n ∧
      Tracks marks d start code d (d + n) := by
  cases ss with
  | nil =>
    cases hcode
    refine ⟨0, Nat.le_refl 0, rfl, ?_⟩
    rw [Nat.cast_zero, Int.add_zero]
    exact .nil
  | cons s ss =>
    obtain ⟨_, hfirst, hothers⟩ := bind_eq_ok.mp hcheck
    obtain ⟨⟨_, _⟩, hfirstCode, hcode⟩ := bind_eq_ok.mp hcode
    obtain ⟨⟨_, _⟩, hothersCode, ⟨⟩⟩ := bind_eq_ok.mp hcode
    have hargs₁ := hargs.mono (Nat.succ_le_succ (Nat.le_max_left _ _))
    obtain ⟨hready₁, -, -⟩ := extends_stmtCode hready hfirst hfirstCode
      fun hbranch => frame_stmtCode hready s hbranch hfirst hfirstCode
    obtain ⟨hcount₁, htracks₁⟩ := tracks_stmtCode_of marks d hready hfirst
      hfirstCode hargs₁ fun hbranch => tracks_branchCode marks hready s hbranch hfirst hfirstCode
        hargs₁ (hlocals.mono (Nat.le_max_left _ _)) d
    obtain ⟨n, hn, hcount, htracks⟩ := tracks_stmtsCode marks hready₁ ss hothers hothersCode
      hargs.right
      (hlocals.mono ((Nat.le_add_left _ _).trans (Nat.le_max_right _ _))) (d + s.declared)
    refine ⟨s.declared + n, ?_, ?_, ?_⟩
    · exact (Nat.add_le_add_left hn _).trans (Nat.le_max_right _ _)
    · rw [hcount, hcount₁, Nat.add_assoc]
    · rw [Nat.cast_add, ← Int.add_assoc]
      exact htracks₁.append_above htracks (by omega)

end

end Lowering

end MiniJava
