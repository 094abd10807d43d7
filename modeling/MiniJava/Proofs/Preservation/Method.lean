import MiniJava.Proofs.Preservation.Stmt

/-!
# Methods in memory

The code of a method opens a frame, runs the body and closes the frame. What calls of some depth do
in memory follows from what calls of lesser depth do (`simulates_invoke`).

Each call needs as many words on the stack as the program has nodes, and two more.
-/

namespace MiniJava

theorem Semantics.findMethod?_eq_some {p : Program} {className name : String} {m : MethodDecl}
    (h : findMethod? p className name = some m) :
    ∃ c ∈ p.classes, c.name.value = className ∧ m ∈ c.methods ∧ m.name.value = name := by
  obtain ⟨c, hc, hm⟩ := Option.bind_eq_some_iff.mp h
  refine ⟨c, List.mem_of_find?_eq_some hc, ?_, List.mem_of_find?_eq_some hm, ?_⟩
  · simpa using List.find?_some hc
  · simpa using List.find?_some hm

namespace Preservation

open Semantics Execution

/-- The number of words that calls of some depth need. -/
def callWords (p : Program) (depth : Nat) : Nat := 6 + depth * (p.nodes + 2)

theorem callWords_succ (p : Program) (depth : Nat) :
    callWords p (depth + 1) = callWords p depth + p.nodes + 2 := by
  rw [callWords, callWords, Nat.add_one_mul]
  omega

section

variable {S : Setting} {a : Activation} {st : State} {v : View} {k : Nat}

/-- Behind the code that opens a frame, its cells hold the arguments. -/
theorem runs_enter {args : List Word} (hargs : args.length = a.arity)
    (hroom : S.statics + (a.outside S.layout).length + a.arity + 2 ≤ S.layout.room)
    (hat : S.loaded.CodeAt k Routine.enter)
    (hv : S.Matches a.saved st (a.outside S.layout ++ args ++
      [BitVec.ofNat 64 (S.loaded.addr a.back)]) v) :
    ∃ v', S.loaded.Runs k v (k + 2) v' ∧ S.Matches (a.rbp S) st (a.words S args) v' := by
  have hwords : a.outside S.layout ++ args ++
    [BitVec.ofNat 64 (S.loaded.addr a.back)] ++ [a.saved] =
      a.words S args := by
    rw [Activation.words, ← hargs, List.take_length, List.drop_length, List.append_nil,
      List.append_assoc (_ ++ args)]
    rfl
  obtain ⟨v₁, hpush, hv₁, _⟩ := hv.push (r := .rbp) (by
    rw [List.length_append, List.length_append, List.length_singleton]
    omega) (by decide)
  rw [hv.rbp, hwords] at hv₁
  have hlength : v₁.stack.length = S.statics + a.base S.layout + 1 := by
    rw [hv₁.length_stack, Activation.length_words (Nat.le_of_eq hargs.symm), hargs, Activation.base]
    omega
  have hbase : a.rbp S = BitVec.ofNat 64 (S.loaded.layout.top - 8 * v₁.stack.length) := by
    rw [hlength]
    rfl
  have hmove : Does S.loaded.sys S.loaded.layout (.movReg .rbp .rsp) v₁ (v₁.set .rbp (a.rbp S)) :=
    hbase ▸ does_movReg_rsp (by decide)
  refine ⟨_, Loaded.runs_ops (.cons hpush (.cons hmove (.nil _))) hat, ?_⟩
  exact ⟨hv₁.stack, hv₁.heap, hv₁.output, rfl, hv₁.r15, hv₁.fits⟩

/-- Methods do in memory what calls of them mean. -/
theorem simulates_invoke (S : Setting) (rounds depth : Nat) :
    S.Simulates (invoke S.program S.table rounds depth) (callWords S.program depth) := by
  induction depth with
  | zero =>
    intro _ name receiver? _ st _ st' hrun
    cases hrun
  | succ depth ih =>
    intro _ name receiver? _ st _ st' hrun hclosed hargs hreceiver hfit
      below back rbp v hroom hv
    rw [invoke] at hrun
    split at hrun
    next => cases hrun
    next m hm =>
      obtain ⟨_, hvars, ⟨outcome, st₁⟩, hexec, hrun⟩ := bind₂_eq_ok.mp hrun
      obtain ⟨bound, rfl, hlength, hholds⟩ := holds_ofParams (L := S.layout) hvars
      obtain ⟨c, hc, rfl, hmem, rfl⟩ := findMethod?_eq_some hm
      obtain ⟨_, hcode, hat⟩ := S.method _ _ m hm
      obtain ⟨⟨body, _⟩, hbody, ⟨⟩⟩ := bind_eq_ok.mp hcode
      obtain ⟨_, _, -, haligned, hcheck⟩ := checkStmts_of_identify S.identified hc hmem
      let a : Activation := ⟨c.name.value, m.isStatic, receiver?, m.params.length, below, back, rbp⟩
      have hnodes := MethodDecl.nodes_le hc hmem
      rw [MethodDecl.nodes] at hnodes
      have harity : a.arity = m.params.length := rfl
      have houtside : a.outside S.layout = below ++ receiverWords S.layout receiver? := rfl
      rw [callWords_succ, ← houtside] at hroom
      have hroom' : a.InRoom S (callWords S.program depth) := ⟨by omega, by omega⟩
      have hs : Surroundings S a (invoke S.program S.table rounds depth)
          (callWords S.program depth) :=
        ⟨keeps_invoke S.program rounds depth, ih, Nat.le_add_right _ _, hroom'⟩
      have hsafe : (a.site S).Safe (bound.map Cell.var) st :=
        ⟨hclosed, within_bindParams (ScopeStack.All.push ScopeStack.all_empty) hargs
          hvars, hreceiver⟩
      obtain ⟨hfront, hleave⟩ := Loaded.codeAt_append.mp hat
      obtain ⟨henter, hbodyAt⟩ := Loaded.codeAt_append.mp hfront
      obtain ⟨_, hruns, hv₁⟩ := runs_enter (a := a) (by rw [List.length_map, hlength])
        (by omega) henter hv
      rw [hlength]
      refine Setting.ComesBack.of_runs hruns ?_
      have hst : st₁ = st' := by cases outcome <;> cases hrun <;> rfl
      subst hst
      have hends := ends_stmtsCode hs m.body
        (Lowering.Frame.ready_of_aligned haligned) hcheck hholds
        hsafe (show m.params.length + 0 + _ ≤ _ by omega) hbody hexec hfit hbodyAt hv₁
      cases outcome with
      | next =>
        cases hrun
        obtain ⟨_, _, _, hruns₂, hv₂, hholds', -⟩ := hends
        rw [List.length_append, ← Nat.add_assoc] at hleave
        refine Setting.ComesBack.of_runs hruns₂ ?_
        exact comesBack_leave hholds'.arity_le hleave hv₂ fun x hx => by cases hx
      | returned value? =>
        cases hrun
        exact hends

end

end Preservation

end MiniJava
