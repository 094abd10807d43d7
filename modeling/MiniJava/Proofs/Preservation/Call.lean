import MiniJava.Proofs.Preservation.Reference

/-!
# Calls

A call comes back with the words that were on the stack, as many words as there were arguments, and
its result in `rax` (`ComesBack`, `comesBack_run`). What the arguments have become does not matter,
since the caller takes them off.

That methods do so is a hypothesis here, `Setting.Simulates`, which is about all calls of some depth
at once. The printing routine does so without one.
-/

namespace MiniJava

namespace Preservation

open Semantics Execution

variable {low : Lowering.Callee} {callee : Callee}

namespace Setting

variable {S : Setting} {rbp : Word} {st st' : State} {words : List Word} {v : View} {k : Nat}

/-! ## Taking words off the stack -/

theorem immediate_ofNat {n : Nat} (h : n < 2 ^ 31) :
    immediate (Int32.ofNat n) = BitVec.ofNat 64 n := by
  rw [← Int32.ofInt_eq_ofNat, immediate, signExtend_ofInt (by omega) (by omega),
    BitVec.ofInt_natCast]

theorem runs_dropWords {dropped : List Word}
    (hcode : S.loaded.CodeAt k (Lowering.dropWords dropped.length))
    (hsmall : dropped.length < 2 ^ 28) (h : S.Matches rbp st (words ++ dropped) v) :
    ∃ v', S.loaded.Runs k v (k + (Lowering.dropWords dropped.length).length) v' ∧
      S.Matches rbp st words v' ∧ v'.regs = v.regs := by
  unfold Lowering.dropWords at hcode ⊢
  by_cases hzero : dropped.length = 0
  · rw [if_pos hzero]
    rw [List.length_eq_zero_iff.mp hzero, List.append_nil] at h
    exact ⟨v, .refl k v, h, rfl⟩
  · rw [if_neg hzero] at hcode ⊢
    have hstack : v.stack = (staticWords S.layout S.area st ++ words) ++ dropped := by
      rw [h.stack, List.append_assoc]
    have himm : immediate (Int32.ofNat (wordSize * dropped.length)) =
        BitVec.ofNat 64 (8 * dropped.length) := immediate_ofNat (by unfold wordSize; omega)
    obtain ⟨_, hdoes⟩ := does_drop S.loaded.sys h.fits_view hstack himm
    refine ⟨_, Loaded.runs_ops (.cons hdoes (.nil _)) hcode, ?_, rfl⟩
    exact h.of_eq rfl rfl rfl rfl rfl

/-! ## Coming back -/

/-- A process gets from one place to another with words on the stack as they were, a number of
further ones, and a result in `rax`. -/
def ComesBack (S : Setting) (rbp : Word) (words : List Word) (count : Nat) (start : Nat) (v : View)
    (back : Nat) (st' : State) (result : Option Value) : Prop :=
  ∃ args v', S.loaded.Runs start v back v' ∧ S.Matches rbp st' (words ++ args) v' ∧
    args.length = count ∧ ∀ x, result = some x → v'.regs .rax = encode S.layout x

theorem ComesBack.of_runs {start start' back count : Nat} {v' : View} {result : Option Value}
    (h : S.loaded.Runs start v start' v')
    (h' : S.ComesBack rbp words count start' v' back st' result) :
    S.ComesBack rbp words count start v back st' result := by
  obtain ⟨args, v'', hruns, hrest⟩ := h'
  exact ⟨args, v'', h.trans hruns, hrest⟩

/-- Methods do in memory what calls of them mean, if there is room for a number of words above the
receiver. -/
def Simulates (S : Setting) (invoke : Invoke) (spare : Nat) : Prop :=
  ∀ className name receiver? args st result st',
    invoke className name receiver? args st = .ok (result, st') → st.Closed →
    (∀ v ∈ args, v.Within st.heap.length) →
    (∀ place, receiver? = some place → place < st.heap.length) →
    S.layout.Fits (st'.sizes S.table) →
    ∀ (below : List Word) (back : Nat) (rbp : Word) (v : View),
      S.statics + (below ++ receiverWords S.layout receiver?).length + spare ≤ S.layout.room →
      S.Matches rbp st (below ++ receiverWords S.layout receiver? ++ args.map (encode S.layout) ++
        [BitVec.ofNat 64 (S.loaded.addr back)]) v →
      S.ComesBack rbp (below ++ receiverWords S.layout receiver?) args.length
        (S.loaded.index (.method className name)) v back st' result

/-! ## Call instructions -/

/-- Where a call goes. -/
def labelOf : Callee → Label
  | .print => .printLine
  | .method className name _ => .method className name

/-- The receiver of a call that needs one. -/
def receiverOf? : Callee → Option Nat
  | .print => none
  | .method _ _ receiver? => receiver?

theorem outputOf_concat (printed : List Int64) (n : Int64) :
    outputOf (printed ++ [n]) = outputOf printed ++ lineOf n.toInt := by
  rw [outputOf, outputOf, List.flatMap_append, List.flatMap_singleton]

/-- A call puts the address behind it on the stack. -/
theorem Matches.call (h : S.Matches rbp st words v) {label : Label}
    (hk : S.loaded.code[k]? = some (.call label))
    (hroom : S.statics + words.length < S.layout.room) :
    ∃ v', S.loaded.Runs k v (S.loaded.index label) v' ∧
      S.Matches rbp st (words ++ [BitVec.ofNat 64 (S.loaded.addr (k + 1))]) v' := by
  have hlength := h.length_stack
  refine ⟨_, Loaded.runs_call hk h.fits_view (by rw [hlength]; exact hroom), ?_⟩
  exact h.of_eq (by rw [h.stack, List.append_assoc]) rfl rfl rfl rfl

/-- A call of the printing routine. -/
theorem comesBack_print (hk : S.loaded.code[k]? = some (.call .printLine)) {n : Int64}
    (hroom : S.statics + words.length + 7 ≤ S.layout.room)
    (h : S.Matches rbp st (words ++ [n.toBitVec]) v) :
    S.ComesBack rbp words 1 k v (k + 1) { st with output := st.output ++ [n] } none := by
  obtain ⟨v₁, hcall, hv₁⟩ := h.call hk (by rw [List.length_append, List.length_singleton]; omega)
  -- The number and the address to go back to are what the routine expects on the stack.
  have hstack : v₁.stack = (staticWords S.layout S.area st ++ words) ++
      [n.toBitVec, BitVec.ofNat 64 (S.loaded.addr (k + 1))] := by
    rw [hv₁.stack]
    simp only [List.append_assoc, List.cons_append, List.nil_append]
  have hlength : (staticWords S.layout S.area st ++ words).length = S.statics + words.length := by
    rw [List.length_append, length_staticWords]
    rfl
  have hprint := runs_printLine S.print hv₁.fits_view hstack (by rw [hlength]; exact hroom)
  refine ⟨[n.toBitVec], _, hcall.trans hprint,
    ⟨?_, hv₁.heap, ?_, hv₁.rbp, hv₁.r15, hv₁.fits⟩, rfl, ?_⟩
  · exact List.append_assoc _ _ _
  · rw [outputOf_concat, ← hv₁.output]
    rfl
  · intro _ hx
    cases hx

/-- A call instruction comes back to the instruction behind it. -/
theorem comesBack_run {invoke : Invoke} {spare : Nat} (hsim : S.Simulates invoke spare)
    (hspare : 6 ≤ spare) {args : List Value} {result : Option Value}
    (hrun : callee.run invoke args st = .ok (result, st')) (hclosed : st.Closed)
    (hargs : ∀ x ∈ args, x.Within st.heap.length)
    (hreceiver : ∀ place, receiverOf? callee = some place → place < st.heap.length)
    (hfit : S.layout.Fits (st'.sizes S.table))
    (hk : S.loaded.code[k]? = some (.call (labelOf callee)))
    (hroom : S.statics + (words ++ receiverWords S.layout (receiverOf? callee)).length +
      args.length + spare ≤ S.layout.room)
    (h : S.Matches rbp st (words ++ receiverWords S.layout (receiverOf? callee) ++
      args.map (encode S.layout)) v) :
    S.ComesBack rbp (words ++ receiverWords S.layout (receiverOf? callee)) args.length
      k v (k + 1) st' result := by
  cases callee with
  | print =>
    simp only [Callee.run] at hrun
    split at hrun
    next =>
      cases hrun
      rw [List.length_singleton] at hroom
      exact comesBack_print hk (by omega) h
    next => cases hrun
  | method className name receiver? =>
    obtain ⟨v₁, hcall, hv₁⟩ := h.call hk (by rw [List.length_append, List.length_map]; omega)
    refine ComesBack.of_runs hcall ?_
    exact hsim className name receiver? args st result st' hrun hclosed hargs hreceiver hfit words
      (k + 1) rbp v₁ (by rw [receiverOf?] at hroom; omega) hv₁

end Setting

/-! ## Receivers -/

section

variable {S : Setting} {a : Activation} {spare : Nat} {frame : Lowering.Frame}
  {bound : ScopeStack Cell} {cells temps : List Word} {st : State} {k : Nat}

/-- What the code of a call puts on the stack in front of the arguments is the receiver of what is
called, and where it goes is the method that is called. -/
structure Calls (S : Setting) (rbp : Word) (k : Nat) (st : State) (words : List Word)
    (callee : Callee) (low : Lowering.Callee) : Prop where
  label : low.label = Setting.labelOf callee
  count : low.receiverWords = (receiverWords S.layout (Setting.receiverOf? callee)).length
  receiver : S.Moves rbp k low.receiver st words st
    (words ++ receiverWords S.layout (Setting.receiverOf? callee))

/-- The receiver is pushed, and the label is that of the method called. -/
theorem calls_of_calleeIn {words : List Word} {r : Ref} {className name : String}
    {receiverCode : Lowering.Result LabelledCode} {receiver : Result Value}
    (hreceiver : ∀ code value, receiverCode = .ok code → receiver = .ok value →
      S.Moves (a.rbp S) k code st words st (words ++ [encode S.layout value]))
    (hcallee : (a.site S).calleeIn className name receiver = .ok callee)
    (hlow : (a.lowering S).calleeIn r className name receiverCode = .ok low) :
    Calls S (a.rbp S) k st words callee low := by
  obtain ⟨_, hm, hcases⟩ := Site.calleeIn_eq_ok hcallee
  have howner := (isTableOf_of_identify S.identified).owner_of_method? S.owned hm
  obtain ⟨_, hm', hlow⟩ := Lowering.Site.calleeIn_eq_ok hlow
  cases hm.symm.trans hm'
  rw [howner] at hlow
  have hnone : S.Moves (a.rbp S) k [] st words st (words ++ receiverWords S.layout none) := by
    rw [show receiverWords S.layout none = [] from rfl, List.append_nil]
    exact Setting.moves_nil
  -- Both sides ask the same questions, so only the equal answers are left.
  rcases hcases with ⟨hprint, rfl⟩ | ⟨hprint, ⟨hs, rfl⟩ | ⟨hs, _, ho, rfl⟩⟩
  · rcases hlow with ⟨-, rfl⟩ | ⟨hother, -⟩
    · exact ⟨rfl, rfl, hnone⟩
    · exact absurd hprint hother
  · rcases hlow with ⟨hother, -⟩ | ⟨-, ⟨-, rfl⟩ | ⟨hother, -⟩⟩
    · exact absurd hother hprint
    · exact ⟨rfl, rfl, hnone⟩
    · rw [hs] at hother
      cases hother
  · rcases hlow with ⟨hother, -⟩ | ⟨-, ⟨hother, -⟩ | ⟨-, code, hcode, rfl⟩⟩
    · exact absurd hother hprint
    · rw [hs] at hother
      cases hother
    · exact ⟨rfl, rfl, hreceiver code _ hcode ho⟩

/-- Lowering and evaluation call the same method with the same receiver. -/
theorem calls_of_callee (hroom : a.InRoom S spare)
    (hholds : Holds S.layout a.arity frame bound cells)
    (hsize : cells.length + temps.length < S.program.nodes) {r : Ref}
    (hcallee : (a.site S).callee (bound.map Cell.var) st r = .ok callee)
    (hlow : (a.lowering S).callee (bound.map (Cell.slot a.arity)) r = .ok low) :
    Calls S (a.rbp S) k st (a.words S cells ++ temps) callee low := by
  cases r with
  | this => cases hcallee
  | name =>
    refine calls_of_calleeIn ?_ hcallee hlow
    intro _ _ hcode hvalue
    exact moves_receiverCode hroom hholds hsize hcode hvalue
  | member _ base =>
    rw [Site.callee] at hcallee
    split at hcallee
    next => cases hcallee
    next hclass =>
      obtain ⟨_, hfound, hlow⟩ := bind_eq_ok.mp hlow
      rw [classOf_of_classOf? hclass] at hfound
      cases hfound
      refine calls_of_calleeIn ?_ hcallee hlow
      intro _ _ hcode hvalue
      exact moves_value hroom hholds hsize base hcode hvalue

end

end Preservation

end MiniJava
