import MiniJava.Proofs.Results
import MiniJava.Proofs.Semantics.Eval

/-!
# What running keeps

A block that is on the heap stays there, with as many words as it had, and no value
leads to a place where there is no block. `Grows` says both of two states, one of which
is reached from the other. Every part of a program keeps it, given that what it calls
does (`Invoke.Keeps`), and so do calls of any depth, by induction on the depth.

> `keeps_invoke`: a call leads to a state that has grown, and so do its result and all
> variables.
-/

namespace MiniJava

open List

namespace Semantics

/-! ## Places that are in use -/

/-- A value leads to one of the first places of the heap, if it leads anywhere. -/
def Value.Within (n : Nat) : Value → Prop
  | .ref place => place < n
  | _ => True

/-- All values of a block lead to one of the first places of the heap. -/
def Block.Within (n : Nat) : Block → Prop
  | .object _ fields => ∀ name, (fields name).Within n
  | .array elements => ∀ v ∈ elements, v.Within n

/-- All values of variables lead to one of the first places of the heap. -/
def VarsWithin (n : Nat) (vars : ScopeStack Var) : Prop := vars.All (·.value.Within n)

/-- No value of a state leads to a place where there is no block. -/
structure State.Closed (st : State) : Prop where
  heap : ∀ block ∈ st.heap, block.Within st.heap.length
  statics : ∀ className name, (st.statics className name).Within st.heap.length

/-- The number of words of a block. An object has at least one, and the length of an array takes
up another one. -/
def Block.size (table : ClassTable) : Block → Nat
  | .object className _ =>
    max ((table.class? className).elim 0 (·.instanceFields.length)) 1
  | .array elements => elements.length + 1

/-- The numbers of words of all blocks. -/
def State.sizes (table : ClassTable) (st : State) : List Nat := st.heap.map (Block.size table)

/-- A state that can be reached from another one. -/
structure Grows (table : ClassTable) (st st' : State) : Prop where
  sizes : st.sizes table <+: st'.sizes table
  closed : st'.Closed

/-- The surroundings of a body, its variables and the state lead to no place without a block. -/
structure Site.Safe (site : Site) (vars : ScopeStack Var) (st : State) : Prop where
  closed : st.Closed
  vars : VarsWithin st.heap.length vars
  receiver : ∀ place, site.receiver? = some place → place < st.heap.length

section

variable {table : ClassTable} {st st' st'' : State} {n n' : Nat} {vars : ScopeStack Var} {v : Value}
  {site : Site} {block : Block}

theorem Value.Within.mono (h : v.Within n) (hn : n ≤ n') : v.Within n' := by
  cases v with
  | ref => exact Nat.lt_of_lt_of_le h hn
  | int | bool | null => trivial

theorem VarsWithin.mono (h : VarsWithin n vars) (hn : n ≤ n') :
    VarsWithin n' vars := ScopeStack.All.mono h fun _ hv => hv.mono hn

theorem Block.Within.mono (h : block.Within n) (hn : n ≤ n') : block.Within n' := by
  cases block with
  | object => exact fun name => (h name).mono hn
  | array => exact fun v hv => (h v hv).mono hn

theorem Grows.length_le (h : Grows table st st') : st.heap.length ≤ st'.heap.length := by
  have hle := h.sizes.length_le
  rwa [State.sizes, State.sizes, length_map, length_map] at hle

theorem Grows.refl (h : st.Closed) : Grows table st st := ⟨prefix_refl _, h⟩

theorem Grows.trans (h : Grows table st st') (h' : Grows table st' st'') : Grows table st st'' :=
  ⟨h.sizes.trans h'.sizes, h'.closed⟩

theorem Site.Safe.grow (h : site.Safe vars st) (hgrow : Grows table st st') : site.Safe vars st' :=
  ⟨hgrow.closed, h.vars.mono hgrow.length_le,
    fun place hp => Nat.lt_of_lt_of_le (h.receiver place hp) hgrow.length_le⟩

theorem within_initialValue (type : Ty) : (initialValue type).Within n := by
  cases type <;> trivial

theorem within_initialFields (className name : String) :
    (initialFields table className name).Within n := by
  rw [initialFields]
  cases table.field? className name with
  | none => trivial
  | some f => exact within_initialValue f.type

/-! ## Changes of a state -/

/-- Blocks are put on the heap behind the others. -/
theorem grows_allocate (h : st.Closed) (hblock : block.Within st.heap.length) :
    Grows table st (st.allocate block).2 := by
  refine ⟨?_, ?_, ?_⟩
  · rw [State.allocate, State.sizes, State.sizes, map_append]
    exact prefix_append _ _
  · intro b hb
    rw [State.allocate, length_append]
    rcases mem_append.mp hb with hb | hb
    · exact (h.heap b hb).mono (Nat.le_add_right _ _)
    · cases mem_singleton.mp hb
      exact hblock.mono (Nat.le_add_right _ _)
  · intro className name
    exact (h.statics className name).mono (by simp [State.allocate])

/-- A block is replaced by one with as many words. -/
theorem grows_setBlock (h : st.Closed) {place : Nat} {old : Block}
    (hold : st.heap[place]? = some old) (hsize : block.size table = old.size table)
    (hblock : block.Within st.heap.length) : Grows table st (st.setBlock place block) := by
  refine ⟨?_, ?_, ?_⟩
  · have hget : (st.sizes table)[place]? = some (old.size table) := by
      rw [State.sizes, getElem?_map, hold]
      rfl
    obtain ⟨hlt, hget⟩ := List.getElem?_eq_some_iff.mp hget
    -- The block has kept its size, so the sizes are the same list.
    have hsame : (st.setBlock place block).sizes table = st.sizes table := by
      rw [State.setBlock, State.sizes, List.map_set, hsize, ← hget]
      exact set_getElem_self hlt
    exact hsame.symm ▸ prefix_refl _
  · intro b hb
    rw [State.setBlock, length_set]
    rcases mem_or_eq_of_mem_set hb with hb | rfl
    · exact h.heap b hb
    · exact hblock
  · intro className name
    rw [State.setBlock, length_set]
    exact h.statics className name

theorem grows_setStatic (h : st.Closed) (hv : v.Within st.heap.length) (className name : String) :
    Grows table st (st.setStatic className name v) := by
  refine ⟨prefix_refl _, h.heap, ?_⟩
  intro className' name'
  dsimp only [State.setStatic]
  split
  next =>
    rw [setField]
    split
    next => exact hv
    next => exact h.statics className' name'
  next => exact h.statics className' name'

theorem grows_output (h : st.Closed) (output : List Int64) :
    Grows table st { st with output := output } := ⟨prefix_refl _, h.heap, h.statics⟩

/-! ## References -/

/-- What is read leads to a block, if it leads anywhere. -/
theorem within_read (h : site.Safe vars st) {place : Place} (hv : site.read vars st place = .ok v) :
    v.Within st.heap.length := by
  cases place with
  | receiver =>
    rw [Site.read, Site.receiver] at hv
    split at hv
    next r hr => cases hv; exact h.receiver r hr
    next => cases hv
  | «variable» =>
    rw [Site.read] at hv
    split at hv
    next hvar => cases hv; exact ScopeStack.All.lookup h.vars hvar
    next => cases hv
  | static className name =>
    cases hv
    exact h.closed.statics className name
  | field _ _ name =>
    rw [Site.read] at hv
    split at hv
    next hblock =>
      split at hv
      next => cases hv; exact h.closed.heap _ (mem_of_getElem? hblock) name
      next => cases hv
    next => cases hv

theorem within_readRef (h : site.Safe vars st) {r : Ref} (hv : site.readRef vars st r = .ok v) :
    v.Within st.heap.length := by
  obtain ⟨_, -, hread⟩ := bind_eq_ok.mp hv
  exact within_read h hread

/-- Writing keeps everything in order if the value is. -/
theorem grows_write {vars' : ScopeStack Var} (h : site.Safe vars st) {place : Place}
    (hv : v.Within st.heap.length) (hw : Site.write vars st v place = .ok (vars', st')) :
    Grows table st st' ∧ VarsWithin st'.heap.length vars' := by
  cases place with
  | receiver => cases hw
  | «variable» =>
    rw [Site.write] at hw
    split at hw
    next hvar =>
      cases hw
      exact ⟨.refl h.closed, ScopeStack.All.set h.vars hvar hv⟩
    next => cases hw
  | static className name =>
    cases hw
    exact ⟨grows_setStatic h.closed hv className name, h.vars⟩
  | field place _ name =>
    rw [Site.write] at hw
    split at hw
    next found fields hblock =>
      split at hw
      next heq =>
        cases hw
        subst heq
        have hfields := h.closed.heap _ (mem_of_getElem? hblock)
        have hgrow : Grows table st (st.setBlock place
            (.object found (setField fields name v))) := by
          refine grows_setBlock h.closed hblock rfl ?_
          intro other
          rw [setField]
          split
          next => exact hv
          next => exact hfields other
        exact ⟨hgrow, h.vars.mono hgrow.length_le⟩
      next => cases hw
    next => cases hw

/-! ## Elements -/

theorem within_readElement (h : st.Closed) {array position : Value}
    (hv : readElement st array position = .ok v) : v.Within st.heap.length := by
  obtain ⟨_, _, _, hat, hget⟩ := readElement_eq_ok hv
  obtain ⟨-, hblock, -, -⟩ := elementAt_eq_ok hat
  exact h.heap _ (mem_of_getElem? hblock) v (mem_of_getElem? hget)

theorem grows_writeElement (h : st.Closed) {array position : Value} (hv : v.Within st.heap.length)
    (hw : writeElement st array position v = .ok st') :
    Grows table st st' := by
  obtain ⟨⟨_, _, _⟩, hat, ⟨⟩⟩ := bind_eq_ok.mp hw
  obtain ⟨-, hblock, -, -⟩ := elementAt_eq_ok hat
  refine grows_setBlock h hblock (by simp [Block.size]) ?_
  intro w hw
  rcases mem_or_eq_of_mem_set hw with hw | rfl
  · exact h.heap _ (mem_of_getElem? hblock) w hw
  · exact hv

/-! ## Expressions -/

theorem within_unaryValue {op : UnaryOp} {a : Value} (h : unaryValue op a = .ok v) :
    v.Within n := by
  unfold unaryValue at h
  split at h <;> cases h <;> trivial

theorem within_binaryValue {op : BinaryOp} {a b : Value} (h : binaryValue op a b = .ok v) :
    v.Within n := by
  unfold binaryValue at h
  split at h
  case h_4 | h_11 | h_12 => obtain ⟨_, -, ⟨⟩⟩ := bind_eq_ok.mp h; trivial
  all_goals cases h; try trivial

/-- Calls lead to states that have grown. -/
def Invoke.Keeps (table : ClassTable) (invoke : Invoke) : Prop :=
  ∀ className name receiver? args st result st',
    invoke className name receiver? args st = .ok (result, st') → st.Closed →
    (∀ v ∈ args, v.Within st.heap.length) →
    (∀ place, receiver? = some place → place < st.heap.length) →
    Grows table st st' ∧ ∀ v, result = some v → v.Within st'.heap.length

/-- The receiver of a call is an object. -/
theorem receiver_of_callee (h : site.Safe vars st) {r : Ref} {className name : String}
    {receiver? : Option Nat} (hc : site.callee vars st r = .ok (.method className name receiver?)) :
    ∀ place, receiver? = some place → place < st.heap.length := by
  have hobject : ∀ {c n : String} {object : Result Value},
      site.calleeIn c n object = .ok (.method className name receiver?) →
      (∀ v, object = .ok v → v.Within st.heap.length) →
      ∀ place, receiver? = some place → place < st.heap.length := by
    intro _ _ object hcallee hwithin _ hplace
    obtain ⟨_, -, ⟨-, ⟨⟩⟩ | ⟨-, ⟨-, ⟨⟩⟩ | ⟨-, _, ho, ⟨⟩⟩⟩⟩ := Site.calleeIn_eq_ok hcallee
    · cases hplace
    · cases hplace
      exact hwithin _ ho
  -- The object is the receiver of the method itself or the value of a reference.
  cases r with
  | this => cases hc
  | name =>
    refine hobject hc fun v hv => ?_
    exact within_read h (show site.read vars st .receiver = .ok v from hv)
  | member =>
    rw [Site.callee] at hc
    split at hc
    next => cases hc
    next => exact hobject hc fun v hv => within_readRef h hv

theorem receiver_lt (h : site.Safe vars st) {r : Ref} {callee : Callee}
    (hc : site.callee vars st r = .ok callee) (hgrow : Grows table st st') (className name : String)
    (place : Nat) (heq : callee = .method className name (some place)) :
    place < st'.heap.length := by
  subst heq
  exact Nat.lt_of_lt_of_le (receiver_of_callee h hc place rfl) hgrow.length_le

theorem keeps_newArray (h : st.Closed) {element : Ty} {size : Value}
    (hv : newArray st element size = .ok (v, st')) :
    Grows table st st' ∧ v.Within st'.heap.length := by
  obtain ⟨_, _, -, -, ⟨⟩⟩ := newArray_eq_ok hv
  refine ⟨grows_allocate h ?_, by simp [Value.Within]⟩
  intro _ hw
  rw [eq_of_mem_replicate hw]
  exact within_initialValue element

/-- Printing and calls keep everything in order. -/
theorem keeps_run {invoke : Invoke} (hinvoke : invoke.Keeps table) (h : st.Closed) {callee : Callee}
    (hreceiver : ∀ className name place, callee = .method className name (some place) →
      place < st.heap.length)
    {args : List Value} (hargs : ∀ v ∈ args, v.Within st.heap.length) {result : Option Value}
    (hr : callee.run invoke args st = .ok (result, st')) :
    Grows table st st' ∧ ∀ v, result = some v → v.Within st'.heap.length := by
  cases callee with
  | print =>
    simp only [Callee.run] at hr
    split at hr
    next =>
      cases hr
      exact ⟨grows_output h _, nofun⟩
    next => cases hr
  | method className name receiver? =>
    refine hinvoke _ _ _ _ _ _ _ hr h hargs ?_
    rintro _ rfl
    exact hreceiver _ _ _ rfl

mutual

/-- Evaluation keeps everything in order, and so does its value. -/
theorem keeps_evalExpr {site : Site} {invoke : Invoke} (hinvoke : invoke.Keeps table)
    {vars : ScopeStack Var} (e : Expr) {st st' : State} (h : site.Safe vars st) {v : Value}
    (hv : site.evalExpr invoke vars e st = .ok (v, st')) :
    Grows table st st' ∧ v.Within st'.heap.length := by
  cases e with
  | literal _ value =>
    cases hv
    refine ⟨.refl h.closed, ?_⟩
    cases value <;> trivial
  | unary _ _ operand =>
    obtain ⟨⟨_, _⟩, ha, hv⟩ := bind_eq_ok.mp hv
    obtain ⟨_, hw, ⟨⟩⟩ := bind_eq_ok.mp hv
    exact ⟨(keeps_evalExpr hinvoke operand h ha).1, within_unaryValue hw⟩
  | binary _ _ left right =>
    obtain ⟨⟨_, _⟩, ha, hv⟩ := bind_eq_ok.mp hv
    obtain ⟨⟨_, _⟩, hb, hv⟩ := bind_eq_ok.mp hv
    obtain ⟨_, hw, ⟨⟩⟩ := bind_eq_ok.mp hv
    -- The right operand is evaluated in the state that the left one leaves.
    have hleft := (keeps_evalExpr hinvoke left h ha).1
    have hright := (keeps_evalExpr hinvoke right (h.grow hleft) hb).1
    exact ⟨hleft.trans hright, within_binaryValue hw⟩
  | ref =>
    obtain ⟨_, hw, ⟨⟩⟩ := bind_eq_ok.mp hv
    exact ⟨.refl h.closed, within_readRef h hw⟩
  | index _ _ position =>
    obtain ⟨_, _, ⟨_, _⟩, hi, hv⟩ := bind₂_eq_ok.mp hv
    obtain ⟨_, hw, ⟨⟩⟩ := bind_eq_ok.mp hv
    have hposition := (keeps_evalExpr hinvoke position h hi).1
    exact ⟨hposition, within_readElement hposition.closed hw⟩
  | call _ _ args =>
    obtain ⟨_, hcallee, ⟨_, _⟩, hvalues, hv⟩ := bind₂_eq_ok.mp hv
    obtain ⟨⟨result, _⟩, hrun, hv⟩ := bind_eq_ok.mp hv
    obtain ⟨_, hw, ⟨⟩⟩ := bind_eq_ok.mp hv
    obtain ⟨hargs, hwithin⟩ := keeps_evalArgs hinvoke args h hvalues
    obtain ⟨hcall, hresult⟩ := keeps_run hinvoke hargs.closed
      (receiver_lt h hcallee hargs) hwithin hrun
    refine ⟨hargs.trans hcall, hresult v ?_⟩
    cases result <;> cases hw
    rfl
  | newObject =>
    cases hv
    refine ⟨grows_allocate h.closed fun name => within_initialFields _ _, ?_⟩
    simp [Value.Within]
  | newArray _ _ size =>
    obtain ⟨⟨_, _⟩, hn, hv⟩ := bind_eq_ok.mp hv
    have hsize := (keeps_evalExpr hinvoke size h hn).1
    obtain ⟨hgrow, hwithin⟩ := keeps_newArray hsize.closed hv
    exact ⟨hsize.trans hgrow, hwithin⟩

theorem keeps_evalArgs {site : Site} {invoke : Invoke} (hinvoke : invoke.Keeps table)
    {vars : ScopeStack Var} (es : List Expr) {st st' : State} (h : site.Safe vars st)
    {values : List Value} (hv : site.evalArgs invoke vars es st = .ok (values, st')) :
    Grows table st st' ∧ ∀ v ∈ values, v.Within st'.heap.length := by
  cases es with
  | nil =>
    cases hv
    exact ⟨.refl h.closed, nofun⟩
  | cons e es =>
    obtain ⟨⟨_, _⟩, hfirst, hv⟩ := bind_eq_ok.mp hv
    obtain ⟨⟨_, _⟩, hothers, ⟨⟩⟩ := bind_eq_ok.mp hv
    obtain ⟨hgrow, hwithin⟩ := keeps_evalExpr hinvoke e h hfirst
    obtain ⟨hgrow', hwithin'⟩ := keeps_evalArgs hinvoke es (h.grow hgrow) hothers
    refine ⟨hgrow.trans hgrow', ?_⟩
    intro v hv
    rcases mem_cons.mp hv with rfl | hv
    · exact hwithin.mono hgrow'.length_le
    · exact hwithin' v hv

end

theorem evalTest_eq_ok {invoke : Invoke} {test : Expr} {st st' : State} {b : Bool}
    (h : site.evalTest invoke vars test st = .ok (b, st')) :
    site.evalExpr invoke vars test st = .ok (.bool b, st') := by
  obtain ⟨⟨_, _⟩, hv, h⟩ := bind_eq_ok.mp h
  dsimp only at h
  split at h
  next => cases h; exact hv
  next => cases h

/-! ## Statements -/

/-- What a statement leaves behind leads to no place without a block. -/
def Outcome.Within (n : Nat) : Outcome → Prop
  | next vars => VarsWithin n vars
  | returned value? => ∀ v, value? = some v → v.Within n

/-- Whatever is done behind a statement keeps everything in order, if it does so for the
variables behind the statement. -/
theorem keeps_andThen {f : ScopeStack Var → State → Result (Outcome × State)}
    {done : Outcome × State}
    (hgrow : Grows table st done.2) (hdone : done.1.Within done.2.heap.length)
    (hf : ∀ vars outcome st', VarsWithin done.2.heap.length vars →
      f vars done.2 = .ok (outcome, st') → Grows table done.2 st' ∧ outcome.Within st'.heap.length)
    {outcome : Outcome} (h : Outcome.andThen f done = .ok (outcome, st')) :
    Grows table st st' ∧ outcome.Within st'.heap.length := by
  obtain ⟨vars | _?, _⟩ := done
  · obtain ⟨hnext, hwithin⟩ := hf vars outcome st' hdone h
    exact ⟨hgrow.trans hnext, hwithin⟩
  · cases h
    exact ⟨hgrow, hdone⟩

/-- A loop keeps everything in order if its condition and its body do. -/
theorem keeps_iterate {test : ScopeStack Var → State → Result (Bool × State)}
    {body : ScopeStack Var → State → Result (Outcome × State)}
    (htest : ∀ vars st b st', site.Safe vars st → test vars st = .ok (b, st') → Grows table st st')
    (hbody : ∀ vars st outcome st', site.Safe vars st → body vars st = .ok (outcome, st') →
      Grows table st st' ∧ outcome.Within st'.heap.length) {rounds : Nat} {st st' : State}
    (h : site.Safe vars st) {outcome : Outcome}
    (hv : iterate test body rounds vars st = .ok (outcome, st')) :
    Grows table st st' ∧ outcome.Within st'.heap.length := by
  induction rounds generalizing vars st outcome st' with
  | zero => cases hv
  | succ _ ih =>
    obtain ⟨⟨b, _⟩, hb, hv⟩ := bind_eq_ok.mp hv
    have hgrow := htest _ _ _ _ h hb
    cases b with
    | false =>
      cases hv
      exact ⟨hgrow, (h.grow hgrow).vars⟩
    | true =>
      -- A round, and then the other rounds from where it ends.
      obtain ⟨_, hdone, hv⟩ := bind_eq_ok.mp hv
      obtain ⟨hround, hwithin⟩ := hbody _ _ _ _ (h.grow hgrow) hdone
      have hsafe := (h.grow hgrow).grow hround
      refine keeps_andThen (hgrow.trans hround) hwithin ?_ hv
      intro _ _ _ hvars hnext
      exact ih ⟨hsafe.closed, hvars, hsafe.receiver⟩ hnext

mutual

/-- A statement keeps everything in order, and so do the variables behind it. -/
theorem keeps_execStmt {site : Site} {invoke : Invoke} (hinvoke : invoke.Keeps table)
    {rounds : Nat} (s : Stmt) {vars : ScopeStack Var} {st st' : State} (h : site.Safe vars st)
    {outcome : Outcome} (hv : site.execStmt invoke rounds s vars st = .ok (outcome, st')) :
    Grows table st st' ∧ outcome.Within st'.heap.length := by
  cases s with
  | block _ body =>
    obtain ⟨_, hdone, hv⟩ := bind_eq_ok.mp hv
    obtain ⟨hgrow, hwithin⟩ := keeps_execStmts hinvoke body
      ⟨h.closed, ScopeStack.All.push h.vars, h.receiver⟩ hdone
    refine keeps_andThen hgrow hwithin ?_ hv
    rintro _ _ _ hinner ⟨⟩
    exact ⟨.refl hgrow.closed, ScopeStack.All.outer hinner⟩
  | declare _ _ _ init =>
    obtain ⟨⟨_, _⟩, hinit, hv⟩ := bind_eq_ok.mp hv
    obtain ⟨hgrow, hwithin⟩ := keeps_evalExpr hinvoke init h hinit
    dsimp only at hv
    split at hv
    next hdefine =>
      cases hv
      exact ⟨hgrow, ScopeStack.All.define (h.grow hgrow).vars hwithin hdefine⟩
    next => cases hv
  | assign _ _ value =>
    obtain ⟨_, -, ⟨_, _⟩, hvalue, hv⟩ := bind₂_eq_ok.mp hv
    obtain ⟨⟨_, _⟩, hwrite, ⟨⟩⟩ := bind_eq_ok.mp hv
    obtain ⟨hgrow, hwithin⟩ := keeps_evalExpr hinvoke value h hvalue
    obtain ⟨hgrow', hvars⟩ := grows_write (h.grow hgrow) hwithin hwrite
    exact ⟨hgrow.trans hgrow', hvars⟩
  | assignIndex _ _ position value =>
    obtain ⟨_, -, ⟨_, _⟩, hposition, hv⟩ := bind₂_eq_ok.mp hv
    obtain ⟨⟨_, _⟩, hvalue, hv⟩ := bind_eq_ok.mp hv
    obtain ⟨_, hwrite, ⟨⟩⟩ := bind_eq_ok.mp hv
    have hgrow₁ := (keeps_evalExpr hinvoke position h hposition).1
    obtain ⟨hgrow₂, hwithin⟩ := keeps_evalExpr hinvoke value (h.grow hgrow₁) hvalue
    have hgrow := (hgrow₁.trans hgrow₂).trans (grows_writeElement hgrow₂.closed hwithin hwrite)
    exact ⟨hgrow, (h.grow hgrow).vars⟩
  | call _ _ args =>
    obtain ⟨_, hcallee, ⟨_, _⟩, hvalues, hv⟩ := bind₂_eq_ok.mp hv
    obtain ⟨⟨_, _⟩, hrun, ⟨⟩⟩ := bind_eq_ok.mp hv
    obtain ⟨hargs, hwithin⟩ := keeps_evalArgs hinvoke args h hvalues
    have hgrow := hargs.trans (keeps_run hinvoke hargs.closed
      (receiver_lt h hcallee hargs) hwithin hrun).1
    exact ⟨hgrow, (h.grow hgrow).vars⟩
  | ret _ value =>
    cases value with
    | none =>
      cases hv
      exact ⟨.refl h.closed, nofun⟩
    | some value =>
      obtain ⟨⟨_, _⟩, hvalue, ⟨⟩⟩ := bind_eq_ok.mp hv
      obtain ⟨hgrow, hwithin⟩ := keeps_evalExpr hinvoke value h hvalue
      exact ⟨hgrow, by rintro _ ⟨⟩; exact hwithin⟩
  | ifThen _ test thenBranch =>
    obtain ⟨⟨b, _⟩, htest, hv⟩ := bind_eq_ok.mp hv
    have hgrow := (keeps_evalExpr hinvoke test h (evalTest_eq_ok htest)).1
    cases b with
    | false =>
      cases hv
      exact ⟨hgrow, (h.grow hgrow).vars⟩
    | true =>
      obtain ⟨hgrow', hwithin⟩ := keeps_execStmt hinvoke thenBranch (h.grow hgrow) hv
      exact ⟨hgrow.trans hgrow', hwithin⟩
  | ifThenElse _ test thenBranch elseBranch =>
    obtain ⟨⟨b, _⟩, htest, hv⟩ := bind_eq_ok.mp hv
    have hgrow := (keeps_evalExpr hinvoke test h (evalTest_eq_ok htest)).1
    cases b with
    | false =>
      obtain ⟨hgrow', hwithin⟩ := keeps_execStmt hinvoke elseBranch (h.grow hgrow) hv
      exact ⟨hgrow.trans hgrow', hwithin⟩
    | true =>
      obtain ⟨hgrow', hwithin⟩ := keeps_execStmt hinvoke thenBranch (h.grow hgrow) hv
      exact ⟨hgrow.trans hgrow', hwithin⟩
  | loop _ test body =>
    refine keeps_iterate ?_ ?_ h hv
    · intro _ _ _ _ hsafe hb
      exact (keeps_evalExpr hinvoke test hsafe (evalTest_eq_ok hb)).1
    · intro _ _ _ _ hsafe hb
      exact keeps_execStmt hinvoke body hsafe hb

theorem keeps_execStmts {site : Site} {invoke : Invoke} (hinvoke : invoke.Keeps table)
    {rounds : Nat} (ss : List Stmt) {vars : ScopeStack Var} {st st' : State}
    (h : site.Safe vars st) {outcome : Outcome}
    (hv : site.execStmts invoke rounds ss vars st = .ok (outcome, st')) :
    Grows table st st' ∧ outcome.Within st'.heap.length := by
  cases ss with
  | nil =>
    cases hv
    exact ⟨.refl h.closed, h.vars⟩
  | cons s ss =>
    obtain ⟨_, hdone, hv⟩ := bind_eq_ok.mp hv
    obtain ⟨hgrow, hwithin⟩ := keeps_execStmt hinvoke s h hdone
    have hsafe := h.grow hgrow
    refine keeps_andThen hgrow hwithin ?_ hv
    intro _ _ _ hvars hnext
    exact keeps_execStmts hinvoke ss ⟨hsafe.closed, hvars, hsafe.receiver⟩ hnext

end

/-! ## Calls -/

theorem within_bindParams {params : List Param} {args : List Value} {vars' : ScopeStack Var}
    (h : VarsWithin n vars) (hargs : ∀ v ∈ args, v.Within n)
    (hb : bindParams params args vars = .ok vars') : VarsWithin n vars' := by
  induction params generalizing args vars with
  | nil =>
    cases args with
    | nil => cases hb; exact h
    | cons => cases hb
  | cons _ _ ih =>
    cases args with
    | nil => cases hb
    | cons v =>
      rw [bindParams] at hb
      split at hb
      next next hd =>
        exact ih (ScopeStack.All.define h (hargs v mem_cons_self) hd)
          (fun w hw => hargs w (mem_cons_of_mem _ hw)) hb
      next => cases hb

/-- Calls of any depth keep everything in order. -/
theorem keeps_invoke (p : Program) (rounds depth : Nat) :
    (invoke p table rounds depth).Keeps table := by
  induction depth with
  | zero =>
    intro className _ receiver? _ st _ _ hv
    cases hv
  | succ _ ih =>
    intro className _ receiver? _ st _ _ hv hclosed hargs hreceiver
    rw [invoke] at hv
    split at hv
    next => cases hv
    next m _ =>
      obtain ⟨vars, hvars, ⟨outcome, _⟩, hbody, hv⟩ := bind₂_eq_ok.mp hv
      -- The body begins with the arguments as its only variables.
      have hsafe : Site.Safe ⟨table, className, receiver?⟩ vars st :=
        ⟨hclosed, within_bindParams (ScopeStack.All.push ScopeStack.all_empty) hargs
          hvars, hreceiver⟩
      obtain ⟨hgrow, hwithin⟩ := keeps_execStmts ih m.body hsafe hbody
      cases outcome with
      | next =>
        cases hv
        exact ⟨hgrow, nofun⟩
      | returned value? =>
        cases hv
        exact ⟨hgrow, hwithin⟩

theorem closed_initial : (State.initial table).Closed :=
  ⟨fun _ hb => (not_mem_nil hb).elim, fun _ _ => within_initialFields _ _⟩

end

end Semantics

end MiniJava
