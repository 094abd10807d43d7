import MiniJava.Proofs.Preservation.Expr

/-!
# Statements in memory

A statement ends in one of two ways, and so does its code (`ends_stmtCode`). Either control is
behind the code, and the cells of the frame hold the variables that are left, or the frame is closed
and control is behind the call (`Ends`).

The proof follows the statement, and a loop the rounds that it takes (`ends_loop`). The frame is
that of lowering, so that its size is known without looking at the words.
-/

namespace MiniJava

open List

namespace Preservation

open Semantics Execution

section

variable {S : Setting} {a : Activation} {invoke : Invoke} {spare rounds : Nat}
  {frame frame' : Lowering.Frame} {bound : ScopeStack Cell} {cells : List Word} {st st' : State}
  {v : View} {k : Nat}

/-! ## Ends -/

/-- How code ends in front of an index: there, with variables in the cells of a frame, or behind
the call of the body. -/
def Ends (S : Setting) (a : Activation) (frame : Lowering.Frame) (k : Nat) (v : View) (stop : Nat)
    (st' : State) : Outcome → Prop
  | .next vars => ∃ bound cells v', S.loaded.Runs k v stop v' ∧
      S.Matches (a.rbp S) st' (a.words S cells) v' ∧ Holds S.layout a.arity frame bound cells ∧
      vars = bound.map Cell.var
  | .returned result => S.ComesBack a.saved (a.outside S.layout) a.arity k v a.back st' result

variable {outcome : Outcome} {code : LabelledCode} {span : Span} {stop : Nat}

theorem Ends.of_runs {k' : Nat} {v' : View} (hruns : S.loaded.Runs k v k' v')
    (h : Ends S a frame k' v' stop st' outcome) :
    Ends S a frame k v stop st' outcome := by
  cases outcome with
  | next =>
    obtain ⟨bound, cells, v'', hruns', hrest⟩ := h
    exact ⟨bound, cells, v'', hruns.trans hruns', hrest⟩
  | returned => exact Setting.ComesBack.of_runs hruns h

/-- Behind code that falls through there may be a jump. -/
theorem Ends.before_jump {stop' : Nat} (h : Ends S a frame k v stop st' outcome)
    (hjump : ∀ v', S.loaded.Runs stop v' stop' v') :
    Ends S a frame k v stop' st' outcome := by
  cases outcome with
  | next =>
    obtain ⟨bound, cells, v', hruns, hrest⟩ := h
    exact ⟨bound, cells, v', hruns.trans (hjump v'), hrest⟩
  | returned => exact h

/-- Code that changes no variable. -/
theorem Ends.of_moves (hholds : Holds S.layout a.arity frame bound cells)
    (h : S.Moves (a.rbp S) k code st (a.words S cells) st' (a.words S cells))
    (hat : S.loaded.CodeAt k code) (hv : S.Matches (a.rbp S) st (a.words S cells) v) :
    Ends S a frame k v (k + code.length) st' (.next (bound.map Cell.var)) := by
  obtain ⟨v', hruns, hv'⟩ := h hat v hv
  exact ⟨bound, cells, v', hruns, hv', hholds, rfl⟩

/-- Behind code that falls through there may be more. -/
theorem Ends.andThen {stop' : Nat} {done : Outcome × State}
    {f : ScopeStack Var → State → Result (Outcome × State)}
    (hdone : Ends S a frame k v stop done.2 done.1)
    (h : Outcome.andThen f done = .ok (outcome, st'))
    (hf : ∀ bound cells v', Holds S.layout a.arity frame bound cells →
      S.Matches (a.rbp S) done.2 (a.words S cells) v' →
      done.1 = .next (bound.map Cell.var) → f (bound.map Cell.var) done.2 = .ok (outcome, st') →
      Ends S a frame' stop v' stop' st' outcome) :
    Ends S a frame' k v stop' st' outcome := by
  obtain ⟨_ | _, _⟩ := done
  · obtain ⟨bound, cells, v', hruns, hv', hholds, rfl⟩ := hdone
    exact .of_runs hruns (hf bound cells v' hholds hv' rfl h)
  · cases h
    exact hdone

/-- The end of a body: the frame is closed and the call comes back. -/
theorem comesBack_leave (harity : a.arity ≤ cells.length)
    (hat : S.loaded.CodeAt k Routine.leave) (hv : S.Matches (a.rbp S) st (a.words S cells) v)
    {result : Option Value} (hresult : ∀ x, result = some x → v.regs .rax = encode S.layout x) :
    S.ComesBack a.saved (a.outside S.layout) a.arity k v a.back st result := by
  obtain ⟨args, rest, hwords, hargs⟩ := Activation.words_eq (S := S) harity
  let back : Word := BitVec.ofNat 64 (S.loaded.addr a.back)
  let outer : List Word := staticWords S.layout S.area st ++ (a.outside S.layout ++ args)
  -- From the bottom: what the caller has, the address to go back to, the saved base, the frame.
  have hstack : v.stack = (outer ++ [back] ++ [a.saved]) ++ rest := by
    rw [hv.stack, hwords]
    simp only [outer, back, append_assoc, cons_append, nil_append]
  have hlength : (outer ++ [back] ++ [a.saved]).length = S.statics + a.base S.layout + 1 := by
    have hstatics : (staticWords S.layout S.area st).length = S.statics := length_staticWords _ _ _
    simp only [outer, length_append, length_singleton, hstatics, hargs, Activation.base]
    omega
  have hrbp : v.regs .rbp =
      BitVec.ofNat 64 (S.layout.top - 8 * (outer ++ [back] ++ [a.saved]).length) := by
    rw [hv.rbp, hlength]
    rfl
  obtain ⟨hops, hret⟩ := Loaded.codeAt_append.mp hat
  have hcut : Does S.loaded.sys S.loaded.layout (.movReg .rsp .rbp) v
      { v with stack := outer ++ [back] ++ [a.saved] } := does_rsp_movReg (by decide) hstack hrbp
  obtain ⟨v₂, hpop, hstack₂, hsaved, hregs, hheap, houtput⟩ :=
    exists_popReg S.loaded.sys (v := { v with stack := outer ++ [back] ++ [a.saved] })
      (w := a.saved) hv.fits_view rfl (r := .rbp) (by decide)
  have hfit₂ : S.loaded.layout.Fits v₂.sizes := by
    rw [View.sizes, hheap]
    exact hv.fits_view
  have hruns := (Loaded.runs_ops (.cons hcut (.cons hpop (.nil _))) hops).trans
    (Loaded.runs_ret (Loaded.codeAt_cons.mp hret).1 hfit₂ hstack₂)
  refine ⟨args, _, hruns, ⟨rfl, hheap.trans hv.heap, houtput.trans hv.output, hsaved, ?_, hv.fits⟩,
    hargs, ?_⟩
  · exact (hregs .r15 (by decide)).trans hv.r15
  · intro x hx
    exact (hregs .rax (by decide)).trans (hresult x hx)

/-! ## Conditions -/

/-- The branch behind a condition is taken if it is false. -/
theorem runs_condition (hs : Surroundings S a invoke spare)
    (hholds : Holds S.layout a.arity frame bound cells) {test : Expr}
    (hsafe : (a.site S).Safe (bound.map Cell.var) st)
    (hsize : a.arity + frame.locals + test.nodes ≤ S.program.nodes) {condition : LabelledCode}
    (hcode : (a.lowering S).conditionCode frame.slots test = .ok condition) {b : Bool}
    (htest : (a.site S).evalTest invoke (bound.map Cell.var) test st = .ok (b, st'))
    (hfit : S.layout.Fits (st'.sizes S.table)) {target : Nat}
    (hat : S.loaded.CodeAt k (condition ++ [.jumpIf .equal (.index target)]))
    (hv : S.Matches (a.rbp S) st (a.words S cells) v) :
    ∃ v', S.loaded.Runs k v (if b then k + condition.length + 1 else target) v' ∧
      S.Matches (a.rbp S) st' (a.words S cells) v' := by
  obtain ⟨_, hexpr, ⟨⟩⟩ := bind_eq_ok.mp hcode
  rw [hholds.slots] at hexpr
  rw [← hholds.length] at hsize
  obtain ⟨hcondition, hjump⟩ := Loaded.codeAt_append.mp hat
  obtain ⟨hfirst, hops⟩ := Loaded.codeAt_append.mp hcondition
  have hmoves := moves_exprCode hs hholds test [] hsafe hsize (k := k) hexpr
    (evalTest_eq_ok htest) hfit
  rw [append_nil] at hmoves
  obtain ⟨_, hruns₁, hv₁⟩ := hmoves hfirst v hv
  obtain ⟨v₂, hpop, hv₂, hrax, -⟩ := hv₁.pop (r := .rax) (by decide)
  let v₃ : View := v₂.setResult .rax (arith .cmp (v₂.regs .rax) 0)
  have hv₃ : S.Matches (a.rbp S) st' (a.words S cells) v₃ := hv₂.of_eq hv₂.stack rfl rfl rfl rfl
  have hcompare : Does S.loaded.sys S.loaded.layout (.aluImm .cmp .rax 0) v₂ v₃ :=
    does_aluImm (by decide) 0
  have hruns₂ := Loaded.runs_ops (.cons hpop (.cons hcompare (.nil _))) hops
  have hjump := Loaded.runs_jumpIf (Loaded.codeAt_cons.mp hjump).1 (v := v₃) rfl
  -- The jump is taken when the test has left zero, the word of `false`.
  have hholds : holds (arith .cmp (v₂.regs .rax) 0).2 .equal = !b := by
    rw [hrax]
    refine (holds_subFlags (boolWord b) 0 .equal).trans ?_
    cases b <;> decide
  rw [hholds, S.loaded.index_index] at hjump
  refine ⟨v₃, ?_, hv₃⟩
  have hruns := hruns₁.trans hruns₂
  rw [length_append, ← Nat.add_assoc] at hjump ⊢
  cases b with
  | true | false => exact hruns.trans hjump

/-! ## Loops -/

/-- A loop goes back to its condition behind each round. -/
theorem ends_loop (hs : Surroundings S a invoke spare) {test : Expr} {body : Stmt}
    (hsize : a.arity + frame.locals + test.nodes ≤ S.program.nodes)
    {condition bodyCode : LabelledCode}
    (hcondition : (a.lowering S).conditionCode frame.slots test = .ok condition)
    (hat : S.loaded.CodeAt k (condition ++ [.jumpIf .equal
        (.index (k + condition.length + 1 + bodyCode.length + 1))] ++ bodyCode ++
      [.jump (.index k)]))
    (hbody : ∀ (bound : ScopeStack Cell) (cells : List Word) (st st' : State) (v : View)
      (outcome : Outcome), Holds S.layout a.arity frame bound cells →
      (a.site S).Safe (bound.map Cell.var) st →
      (a.site S).execStmt invoke rounds body (bound.map Cell.var) st = .ok (outcome, st') →
      S.layout.Fits (st'.sizes S.table) → S.Matches (a.rbp S) st (a.words S cells) v →
      Ends S a frame (k + condition.length + 1) v (k + condition.length + 1 + bodyCode.length) st'
        outcome) {n : Nat} (hholds : Holds S.layout a.arity frame bound cells)
    (hsafe : (a.site S).Safe (bound.map Cell.var) st)
    (hexec : iterate (fun vars st => (a.site S).evalTest invoke vars test st)
      (fun vars st => (a.site S).execStmt invoke rounds body vars st) n (bound.map Cell.var) st =
        .ok (outcome, st')) (hfit : S.layout.Fits (st'.sizes S.table))
    (hv : S.Matches (a.rbp S) st (a.words S cells) v) :
    Ends S a frame k v (k + condition.length + 1 + bodyCode.length + 1) st' outcome := by
  obtain ⟨hround, hback⟩ := Loaded.codeAt_append.mp hat
  obtain ⟨hfront, -⟩ := Loaded.codeAt_append.mp hround
  have hback := Loaded.runs_jump (Loaded.codeAt_cons.mp hback).1
  rw [S.loaded.index_index, length_append, length_append, length_singleton,
    ← Nat.add_assoc, ← Nat.add_assoc] at hback
  induction n generalizing bound cells st v outcome with
  | zero => cases hexec
  | succ _ ih =>
    obtain ⟨⟨b, st₁⟩, htest, hexec⟩ := bind_eq_ok.mp hexec
    have hgrow₁ := (keeps_evalExpr hs.keeps test hsafe (evalTest_eq_ok htest)).1
    have hsafe₁ := hsafe.grow hgrow₁
    cases b with
    | false =>
      cases hexec
      obtain ⟨v₁, hruns₁, hv₁⟩ := runs_condition hs hholds hsafe hsize hcondition htest
        hfit hfront hv
      exact ⟨bound, cells, v₁, hruns₁, hv₁, hholds, rfl⟩
    | true =>
      obtain ⟨done, hdone, hexec⟩ := bind_eq_ok.mp hexec
      obtain ⟨hgrow₂, hwithin⟩ := keeps_execStmt hs.keeps body hsafe₁ hdone
      have hsafe₂ := hsafe₁.grow hgrow₂
      -- Later rounds only let the heap grow, so it fits in front of them.
      have hfit₂ : S.layout.Fits (done.2.sizes S.table) := by
        refine hfit.of_prefix (keeps_andThen (.refl hgrow₂.closed) hwithin ?_ hexec).1.sizes
        intro vars _ _ hvars hnext
        refine keeps_iterate ?_ ?_ ⟨hsafe₂.closed, hvars, hsafe₂.receiver⟩ hnext
        · intro _ _ _ _ hsafe hb
          exact (keeps_evalExpr hs.keeps test hsafe (evalTest_eq_ok hb)).1
        · intro _ _ _ _ hsafe hb
          exact keeps_execStmt hs.keeps body hsafe hb
      obtain ⟨v₁, hruns₁, hv₁⟩ := runs_condition hs hholds hsafe hsize hcondition htest
        (hfit₂.of_prefix hgrow₂.sizes) hfront hv
      have hbody := hbody bound cells st₁ done.2 v₁ done.1 hholds hsafe₁ hdone hfit₂ hv₁
      refine (Ends.of_runs hruns₁ hbody).andThen hexec ?_
      intro _ _ v₂ hholds' hv₂ hnext hexec
      rw [hnext] at hwithin
      refine Ends.of_runs (hback v₂) ?_
      exact ih hholds' ⟨hsafe₂.closed, hwithin, hsafe₂.receiver⟩ hexec hv₂

/-! ## Assignments and declarations -/

section

variable (hs : Surroundings S a invoke spare) (hholds : Holds S.layout a.arity frame bound cells)
  (hsafe : (a.site S).Safe (bound.map Cell.var) st) (hfit : S.layout.Fits (st'.sizes S.table))
  (hat : S.loaded.CodeAt k code) (hv : S.Matches (a.rbp S) st (a.words S cells) v)
include hs hholds hsafe hfit hat hv

theorem ends_assign {target : Ref} {value : Expr}
    (hsize : a.arity + frame.locals + (Stmt.assign span target value).nodes ≤ S.program.nodes)
    (hcode : (a.lowering S).stmtCode k frame (.assign span target value) = .ok (code, frame'))
    (hexec : (a.site S).execStmt invoke rounds (.assign span target value) (bound.map Cell.var) st =
      .ok (outcome, st')) :
    Ends S a frame' k v (k + code.length) st' outcome := by
  obtain ⟨address, haddress, _, hvalueCode, ⟨⟩⟩ := bind₂_eq_ok.mp hcode
  obtain ⟨_, hplace, ⟨_, st₁⟩, hx, hexec⟩ := bind₂_eq_ok.mp hexec
  obtain ⟨⟨_, _⟩, hwrite, ⟨⟩⟩ := bind_eq_ok.mp hexec
  rw [hholds.slots] at haddress hvalueCode
  rw [Stmt.nodes, ← hholds.length] at hsize
  obtain ⟨hgrow₁, hwithin⟩ := keeps_evalExpr hs.keeps value hsafe hx
  -- Writing changes no size, so the heap has fitted before it.
  have hgrow₂ : Grows S.table st₁ st' := (grows_write (hsafe.grow hgrow₁) hwithin hwrite).1
  have hpos := value.nodes_pos
  have hfew : cells.length + ([] : List Word).length < S.program.nodes := by
    rw [length_nil]
    omega
  obtain ⟨word, hword, htarget⟩ := moves_target hs.room hholds hfew (k := k) haddress hplace
  have hvalue := moves_exprCode hs hholds value [BitVec.ofNat 64 word] hsafe
    (by rw [length_singleton]; omega) (k := k + address.length) hvalueCode hx
    (hfit.of_prefix hgrow₂.sizes)
  rw [Activation.Pushes, append_nil] at htarget
  obtain ⟨hfront, hops⟩ := Loaded.codeAt_append.mp hat
  obtain ⟨_, hruns₁, hv₁⟩ := htarget.append hvalue hfront v hv
  obtain ⟨_, hpop₂, hv₂, hrcx₂, -⟩ := hv₁.pop (r := .rcx) (by decide)
  obtain ⟨_, hpop₃, hv₃, hrax₃, hregs₃⟩ := hv₂.pop (r := .rax) (by decide)
  rw [← append_nil (a.words S cells)] at hv₃
  -- The address is still below the value, and both are popped in front of the store.
  obtain ⟨bound', cells', v₄, hstore, hv₄, rfl, hholds'⟩ := hv₃.store hholds hword hwrite hfit hrax₃
    ((hregs₃ .rcx (by decide)).trans hrcx₂)
  have hruns₂ := Loaded.runs_ops (.cons hpop₂ (.cons hpop₃ (.cons hstore (.nil _)))) hops
  rw [append_nil] at hv₄
  refine ⟨bound', cells', v₄, ?_, hv₄, hholds', rfl⟩
  rw [length_append, ← Nat.add_assoc]
  exact hruns₁.trans hruns₂

theorem ends_assignIndex {target : Ref} {position value : Expr}
    (hsize : a.arity + frame.locals + (Stmt.assignIndex span target position value).nodes ≤
      S.program.nodes)
    (hcode : (a.lowering S).stmtCode k frame (.assignIndex span target position value) =
      .ok (code, frame'))
    (hexec : (a.site S).execStmt invoke rounds (.assignIndex span target position value)
      (bound.map Cell.var) st = .ok (outcome, st')) :
    Ends S a frame' k v (k + code.length) st' outcome := by
  obtain ⟨array, harray, index, hindex, valueCode, hvalueCode, ⟨⟩⟩ := bind₃_eq_ok.mp hcode
  obtain ⟨x, hx, ⟨i, _⟩, hi, hexec⟩ := bind₂_eq_ok.mp hexec
  obtain ⟨⟨_, st₂⟩, hy, hexec⟩ := bind_eq_ok.mp hexec
  obtain ⟨_, hwrite, ⟨⟩⟩ := bind_eq_ok.mp hexec
  rw [hholds.slots] at harray hindex hvalueCode
  rw [Stmt.nodes, ← hholds.length] at hsize
  have hgrow₁ := (keeps_evalExpr hs.keeps position hsafe hi).1
  obtain ⟨hgrow₂, hwithin⟩ := keeps_evalExpr hs.keeps value (hsafe.grow hgrow₁) hy
  have hgrow₃ : Grows S.table st₂ st' := grows_writeElement hgrow₂.closed hwithin hwrite
  have hfit₂ := hfit.of_prefix hgrow₃.sizes
  have hpos := value.nodes_pos
  have hfew : cells.length + ([] : List Word).length < S.program.nodes := by
    rw [length_nil]
    omega
  have h₁ := moves_value hs.room hholds hfew target (k := k) harray hx
  have h₂ := moves_exprCode hs hholds position [encode S.layout x] hsafe
    (by rw [length_singleton]; omega) (k := k + array.length) hindex hi
    (hfit₂.of_prefix hgrow₂.sizes)
  have h₃ := moves_exprCode hs hholds value ([encode S.layout x] ++ [encode S.layout i])
    (hsafe.grow hgrow₁) (by
      rw [length_append, length_singleton, length_singleton]
      have := position.nodes_pos
      omega) (k := k + (array ++ index).length) hvalueCode hy hfit₂
  -- Now the array, the position and the value are on the stack, in this order.
  have h₄ : S.Moves (a.rbp S) (k + (array ++ index ++ valueCode).length) _ st₂ _ st'
      (a.words S cells) := Setting.moves_writeElement hwrite hfit
  rw [Activation.Pushes, append_nil] at h₁
  rw [← append_assoc] at h₃
  have hmoves := ((h₁.append h₂).append h₃).append h₄
  rw [append_assoc, append_assoc] at hat ⊢
  rw [← append_assoc (Instr.ops _) Lowering.elementAddress] at hat ⊢
  exact Ends.of_moves hholds hmoves hat hv

/-- The value of a new variable stays on the stack as its cell. -/
theorem ends_declare {type : Located Ty} {name : Ident} {init : Expr}
    (hsize : a.arity + frame.locals + (Stmt.declare span type name init).nodes ≤ S.program.nodes)
    (hcode : (a.lowering S).stmtCode k frame (.declare span type name init) = .ok (code, frame'))
    (hexec : (a.site S).execStmt invoke rounds (.declare span type name init)
      (bound.map Cell.var) st = .ok (outcome, st')) :
    Ends S a frame' k v (k + code.length) st' outcome := by
  obtain ⟨_, hinitCode, ⟨⟩⟩ := bind_eq_ok.mp hcode
  obtain ⟨⟨x, _⟩, hx, hexec⟩ := bind_eq_ok.mp hexec
  dsimp only at hexec
  split at hexec
  next hdefine =>
    cases hexec
    rw [hholds.slots] at hinitCode
    rw [Stmt.nodes, ← hholds.length] at hsize
    have hmoves := moves_exprCode hs hholds init [] hsafe (by rw [length_nil]; omega) (k := k)
      hinitCode hx hfit
    rw [append_nil, Activation.words_concat hholds.arity_le] at hmoves
    obtain ⟨v₁, hruns₁, hv₁⟩ := hmoves hat v hv
    let c : Cell := ⟨cells.length, type.value, x⟩
    rw [show (⟨type.value, x⟩ : Var) = c.var from rfl, ScopeStack.define?_map] at hdefine
    obtain ⟨bound', hbound', rfl⟩ := Option.map_eq_some_iff.mp hdefine
    exact ⟨bound', _, v₁, hruns₁, hv₁, hholds.declare hbound', rfl⟩
  next => cases hexec

end

/-! ## Blocks -/

/-- Behind a block, the cells of its variables are taken off. -/
theorem ends_block {inner : Lowering.Frame} {bound' : ScopeStack Cell} {cells' : List Word}
    (hholds : Holds S.layout a.arity frame bound cells)
    (hinner : Holds S.layout a.arity inner bound' cells')
    (hextends : Lowering.Frame.Extends { frame with slots := frame.slots.push } inner)
    (hsize : a.arity + inner.locals ≤ S.program.nodes)
    (hat : S.loaded.CodeAt k (Lowering.dropWords inner.slots.innerSize))
    (hv : S.Matches (a.rbp S) st (a.words S cells') v) :
    Ends S a frame k v (k + (Lowering.dropWords inner.slots.innerSize).length) st
      (.next (bound'.map Cell.var).outer) := by
  have hlocals : inner.locals + 0 = frame.locals + inner.slots.innerSize := hextends.locals
  have hlength := hinner.length
  have hdropped : (cells'.drop (a.arity + frame.locals)).length = inner.slots.innerSize := by
    rw [length_drop]
    omega
  have hsmall := S.small
  rw [← hdropped] at hat ⊢
  -- What the block has added is on top of the frame.
  rw [Activation.words_take (n := a.arity + frame.locals) (by omega) (by omega)] at hv
  obtain ⟨v', hruns, hv', -⟩ := Setting.runs_dropWords hat (by omega) hv
  refine ⟨bound'.outer, _, v', hruns, hv', hholds.outer hinner hextends.outer (by omega), ?_⟩
  exact (ScopeStack.map_outer _ _).symm

/-! ## Statements -/

variable {naming : Identification.Site}

mutual

/-- The code of a statement ends in the way in which the statement ends. -/
theorem ends_stmtCode (hs : Surroundings S a invoke spare) (s : Stmt)
    {frame frame' : Lowering.Frame} {locals locals' : ScopeStack LocalVar}
    (hready : frame.Ready locals) (hcheck : naming.checkStmt locals s = .ok locals')
    {bound : ScopeStack Cell} {cells : List Word}
    (hholds : Holds S.layout a.arity frame bound cells) {st st' : State}
    (hsafe : (a.site S).Safe (bound.map Cell.var) st)
    (hsize : a.arity + frame.locals + s.nodes ≤ S.program.nodes) {k : Nat} {code : LabelledCode}
    (hcode : (a.lowering S).stmtCode k frame s = .ok (code, frame')) {outcome : Outcome}
    (hexec : (a.site S).execStmt invoke rounds s (bound.map Cell.var) st = .ok (outcome, st'))
    (hfit : S.layout.Fits (st'.sizes S.table)) (hat : S.loaded.CodeAt k code) {v : View}
    (hv : S.Matches (a.rbp S) st (a.words S cells) v) :
    Ends S a frame' k v (k + code.length) st' outcome := by
  cases s with
  | block span body =>
    have hframe := (Lowering.frame_stmtCode hready (.block span body) rfl hcheck hcode).1
    obtain ⟨_, hinner, ⟨⟩⟩ := bind_eq_ok.mp hcheck
    obtain ⟨⟨_, bodyFrame⟩, hbody, ⟨⟩⟩ := bind_eq_ok.mp hcode
    obtain ⟨done, hdone, hexec⟩ := bind_eq_ok.mp hexec
    -- Leaving the block changes the variables, not the state.
    have hst : done.2 = st' := by
      obtain ⟨_ | _, _⟩ := done <;> cases hexec <;> rfl
    subst hst
    obtain ⟨-, hextends, hlocals⟩ := Lowering.extends_stmtsCode hready.push body hinner hbody
    have hlocals : bodyFrame.locals ≤ frame.locals + body.length := hlocals
    have hlength := Stmt.length_le_nodesOf body
    rw [Stmt.nodes] at hsize
    obtain ⟨hfront, hdrop⟩ := Loaded.codeAt_append.mp hat
    have hends := ends_stmtsCode hs body hready.push hinner hholds.push
      ⟨hsafe.closed, ScopeStack.All.push hsafe.vars, hsafe.receiver⟩
      (show a.arity + frame.locals + Stmt.nodesOf body ≤ _ by omega) hbody hdone hfit hfront hv
    refine hends.andThen hexec ?_
    rintro _ _ v₁ hholds' hv₁ - ⟨⟩
    rw [hframe, length_append, ← Nat.add_assoc]
    exact ends_block hholds hholds' hextends (by omega) hdrop hv₁
  | declare =>
    exact ends_declare hs hholds hsafe hfit hat hv hsize hcode hexec
  | assign =>
    exact ends_assign hs hholds hsafe hfit hat hv hsize hcode hexec
  | assignIndex =>
    exact ends_assignIndex hs hholds hsafe hfit hat hv hsize hcode hexec
  | call _ _ args =>
    obtain ⟨_, hcall, ⟨⟩⟩ := bind_eq_ok.mp hcode
    obtain ⟨_, hcallee, ⟨_, _⟩, hvalues, hexec⟩ := bind₂_eq_ok.mp hexec
    obtain ⟨⟨_, _⟩, hrun, ⟨⟩⟩ := bind_eq_ok.mp hexec
    obtain ⟨_, hlow, _, hargsCode, ⟨⟩⟩ := bind₂_eq_ok.mp hcall
    rw [hholds.slots] at hlow hargsCode
    rw [Stmt.nodes, ← hholds.length] at hsize
    rw [← append_nil (a.words S cells)] at hv
    obtain ⟨v₁, hruns, hv₁, -⟩ := runs_call hs hholds hsafe hcallee hlow hvalues
      (fun temps k hsize hfit => moves_argsCode hs hholds args temps hsafe hsize
      hargsCode hvalues hfit) (by rw [length_nil]; omega) hrun hfit hat hv
    rw [append_nil] at hv₁
    exact ⟨bound, cells, v₁, hruns, hv₁, hholds, rfl⟩
  | ret _ value =>
    cases value with
    | none =>
      cases hcode
      cases hexec
      exact comesBack_leave hholds.arity_le hat hv fun x hx => by cases hx
    | some value =>
      obtain ⟨_, hvalueCode, ⟨⟩⟩ := bind_eq_ok.mp hcode
      obtain ⟨⟨_, _⟩, hx, ⟨⟩⟩ := bind_eq_ok.mp hexec
      rw [hholds.slots] at hvalueCode
      rw [Stmt.nodes, ← hholds.length] at hsize
      obtain ⟨hfront, hleave⟩ := Loaded.codeAt_append.mp hat
      obtain ⟨hfirst, hops⟩ := Loaded.codeAt_append.mp hfront
      have hmoves := moves_exprCode hs hholds value [] hsafe
          (by rw [length_nil]; omega) (k := k)
        hvalueCode hx hfit
      rw [append_nil] at hmoves
      obtain ⟨_, hruns₁, hv₁⟩ := hmoves hfirst v hv
      obtain ⟨_, hpop, hv₂, hrax, -⟩ := hv₁.pop (r := .rax) (by decide)
      have hruns₂ := Loaded.runs_ops (.cons hpop (.nil _)) hops
      rw [length_append, ← Nat.add_assoc] at hleave
      refine Setting.ComesBack.of_runs (hruns₁.trans hruns₂) ?_
      exact comesBack_leave hholds.arity_le hleave hv₂ fun y hy => by cases hy; exact hrax
  | ifThen _ test thenBranch =>
    obtain ⟨⟨⟩, -, ⟨⟩, hthen, hcheck⟩ := bind₂_eq_ok.mp hcheck
    obtain ⟨_, hcondition, ⟨_, _⟩, hthenCode, ⟨⟩⟩ := bind₂_eq_ok.mp hcode
    obtain ⟨rfl, rfl⟩ := Lowering.frame_stmtCode hready thenBranch hthen hcheck hthenCode
    obtain ⟨⟨b, _⟩, htest, hexec⟩ := bind_eq_ok.mp hexec
    have hsafe₁ := hsafe.grow (keeps_evalExpr hs.keeps test hsafe (evalTest_eq_ok htest)).1
    rw [Stmt.nodes] at hsize
    obtain ⟨hfront, hthenAt⟩ := Loaded.codeAt_append.mp hat
    rw [length_append, length_append, ← Nat.add_assoc, ← Nat.add_assoc]
    rw [length_append, ← Nat.add_assoc] at hthenAt
    cases b with
    | false =>
      -- The jump leads behind the branch, where the statement ends.
      cases hexec
      obtain ⟨v₁, hruns, hv₁⟩ := runs_condition hs hholds hsafe (by omega) hcondition htest hfit
        hfront hv
      exact ⟨bound, cells, v₁, hruns, hv₁, hholds, rfl⟩
    | true =>
      have hgrow := (keeps_execStmt hs.keeps thenBranch hsafe₁ hexec).1
      obtain ⟨_, hruns, hv₁⟩ := runs_condition hs hholds hsafe (by omega) hcondition htest
        (hfit.of_prefix hgrow.sizes) hfront hv
      exact .of_runs hruns (ends_stmtCode hs thenBranch hready hcheck hholds hsafe₁
        (by omega) hthenCode hexec hfit hthenAt hv₁)
  | ifThenElse _ test thenBranch elseBranch =>
    obtain ⟨⟨⟩, -, ⟨⟩, hthen, _, hthenCheck, hcheck⟩ := bind₃_eq_ok.mp hcheck
    obtain ⟨⟨⟩, helse, helseCheck⟩ := bind_eq_ok.mp hcheck
    obtain ⟨_, hcondition, ⟨_, _⟩, hthenCode, hcode⟩ := bind₂_eq_ok.mp hcode
    obtain ⟨⟨_, _⟩, helseCode, ⟨⟩⟩ := bind_eq_ok.mp hcode
    obtain ⟨rfl, rfl⟩ := Lowering.frame_stmtCode hready thenBranch hthen hthenCheck hthenCode
    obtain ⟨rfl, rfl⟩ := Lowering.frame_stmtCode hready elseBranch helse helseCheck helseCode
    obtain ⟨⟨b, _⟩, htest, hexec⟩ := bind_eq_ok.mp hexec
    have hsafe₁ := hsafe.grow (keeps_evalExpr hs.keeps test hsafe (evalTest_eq_ok htest)).1
    rw [Stmt.nodes] at hsize
    obtain ⟨hfront, helseAt⟩ := Loaded.codeAt_append.mp hat
    obtain ⟨hfront, hjump⟩ := Loaded.codeAt_append.mp hfront
    obtain ⟨hfront, hthenAt⟩ := Loaded.codeAt_append.mp hfront
    have hjump := Loaded.runs_jump (Loaded.codeAt_cons.mp hjump).1
    rw [S.loaded.index_index] at hjump
    simp only [length_append, length_singleton, ← Nat.add_assoc] at hthenAt hjump helseAt ⊢
    cases b with
    | false =>
      have hgrow := (keeps_execStmt hs.keeps elseBranch hsafe₁ hexec).1
      obtain ⟨_, hruns, hv₁⟩ := runs_condition hs hholds hsafe (by omega) hcondition htest
        (hfit.of_prefix hgrow.sizes) hfront hv
      exact .of_runs hruns (ends_stmtCode hs elseBranch hready helseCheck hholds hsafe₁ (by omega)
        helseCode hexec hfit helseAt hv₁)
    | true =>
      have hgrow := (keeps_execStmt hs.keeps thenBranch hsafe₁ hexec).1
      obtain ⟨_, hruns, hv₁⟩ := runs_condition hs hholds hsafe (by omega) hcondition htest
        (hfit.of_prefix hgrow.sizes) hfront hv
      have hends := ends_stmtCode hs thenBranch hready hthenCheck hholds hsafe₁ (by omega) hthenCode
        hexec hfit hthenAt hv₁
      -- The first branch is left by a jump over the second.
      exact (Ends.of_runs hruns hends).before_jump hjump
  | loop _ _ body =>
    obtain ⟨⟨⟩, -, ⟨⟩, hbranch, hcheck⟩ := bind₂_eq_ok.mp hcheck
    obtain ⟨_, hcondition, ⟨_, _⟩, hbodyCode, ⟨⟩⟩ := bind₂_eq_ok.mp hcode
    obtain ⟨rfl, rfl⟩ := Lowering.frame_stmtCode hready body hbranch hcheck hbodyCode
    rw [Stmt.nodes] at hsize
    have hbodyAt := (Loaded.codeAt_append.mp (Loaded.codeAt_append.mp hat).1).2
    rw [length_append, ← Nat.add_assoc] at hbodyAt
    have hends := ends_loop hs (by omega) hcondition hat
      (fun bound cells st st' v outcome hholds hsafe
      hexec hfit hv => ends_stmtCode hs body hready hcheck hholds hsafe
      (by omega) hbodyCode hexec hfit
        hbodyAt hv) hholds hsafe hexec hfit hv
    simpa only [length_append, length_singleton, Nat.add_assoc] using hends

/-- The code of statements in turn ends in the way in which they end. -/
theorem ends_stmtsCode (hs : Surroundings S a invoke spare) (ss : List Stmt)
    {frame frame' : Lowering.Frame} {locals locals' : ScopeStack LocalVar}
    (hready : frame.Ready locals) (hcheck : naming.checkStmts locals ss = .ok locals')
    {bound : ScopeStack Cell} {cells : List Word}
    (hholds : Holds S.layout a.arity frame bound cells) {st st' : State}
    (hsafe : (a.site S).Safe (bound.map Cell.var) st)
    (hsize : a.arity + frame.locals + Stmt.nodesOf ss ≤ S.program.nodes) {k : Nat}
    {code : LabelledCode}
    (hcode : (a.lowering S).stmtsCode k frame ss = .ok (code, frame')) {outcome : Outcome}
    (hexec : (a.site S).execStmts invoke rounds ss (bound.map Cell.var) st = .ok (outcome, st'))
    (hfit : S.layout.Fits (st'.sizes S.table)) (hat : S.loaded.CodeAt k code) {v : View}
    (hv : S.Matches (a.rbp S) st (a.words S cells) v) :
    Ends S a frame' k v (k + code.length) st' outcome := by
  cases ss with
  | nil =>
    cases hcode
    cases hexec
    exact .of_moves hholds Setting.moves_nil hat hv
  | cons s ss =>
    obtain ⟨_, hfirstCheck, hcheck⟩ := bind_eq_ok.mp hcheck
    obtain ⟨⟨_, _⟩, hfirst, hcode⟩ := bind_eq_ok.mp hcode
    obtain ⟨⟨_, _⟩, hothers, ⟨⟩⟩ := bind_eq_ok.mp hcode
    obtain ⟨done, hdone, hexec⟩ := bind_eq_ok.mp hexec
    obtain ⟨hready₁, -, _⟩ := Lowering.extends_stmtCode hready hfirstCheck hfirst
      fun hbranch => Lowering.frame_stmtCode hready s hbranch hfirstCheck hfirst
    obtain ⟨hgrow, hwithin⟩ := keeps_execStmt hs.keeps s hsafe hdone
    have hsafe₁ := hsafe.grow hgrow
    -- The heap grows until the end, so it fits in between.
    have hfit₁ : S.layout.Fits (done.2.sizes S.table) := by
      refine hfit.of_prefix (keeps_andThen (.refl hgrow.closed) hwithin ?_ hexec).1.sizes
      intro _ _ _ hvars hnext
      exact keeps_execStmts hs.keeps ss ⟨hsafe₁.closed, hvars, hsafe₁.receiver⟩ hnext
    have hpos := s.nodes_pos
    rw [Stmt.nodesOf] at hsize
    obtain ⟨hfirstAt, hothersAt⟩ := Loaded.codeAt_append.mp hat
    have hends := ends_stmtCode hs s hready hfirstCheck hholds hsafe (by omega) hfirst hdone hfit₁
      hfirstAt hv
    refine hends.andThen hexec ?_
    intro _ _ _ hholds' hv₁ hnext hexec
    rw [hnext] at hwithin
    rw [length_append, ← Nat.add_assoc]
    exact ends_stmtsCode hs ss hready₁ hcheck hholds' ⟨hsafe₁.closed, hwithin, hsafe₁.receiver⟩
      (by omega) hothers hexec hfit hothersAt hv₁

end

end

end Preservation

end MiniJava
