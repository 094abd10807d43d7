import MiniJava.Proofs.Preservation.Call
import MiniJava.Proofs.Preservation.Heap

/-!
# Expressions in memory

> `moves_exprCode`: the code of an expression leaves the word of its value on the stack and
> the state in which evaluation ends.

The proof follows the expression. Its parts run with more and more words on the stack above
the frame, the temporaries, and the number of nodes of an expression bounds how many there
will be. That the heap fits into memory is asked of the last state only, since heaps grow.
-/

namespace MiniJava

open List

namespace Preservation

open Semantics Execution

/-- What a body relies on while it runs. -/
structure Surroundings (S : Setting) (a : Activation) (invoke : Invoke) (spare : Nat) : Prop where
  keeps : invoke.Keeps S.table
  simulates : S.Simulates invoke spare
  /-- The words that printing needs. -/
  printing : 6 ≤ spare
  room : a.InRoom S spare

section

variable {S : Setting} {a : Activation} {invoke : Invoke} {spare : Nat} {frame : Lowering.Frame}
  {bound : ScopeStack Cell} {cells : List Word}

theorem length_receiverWords_le (L : Layout) (receiver? : Option Nat) :
    (receiverWords L receiver?).length ≤ 1 := by
  cases receiver? <;> simp [receiverWords]

/-- The code of a call, given what the code of its arguments does. -/
theorem runs_call (hs : Surroundings S a invoke spare)
    (hholds : Holds S.layout a.arity frame bound cells) {temps : List Word} {st st₁ st' : State}
    (hsafe : (a.site S).Safe (bound.map Cell.var) st) {r : Ref} {callee : Callee}
    (hcallee : (a.site S).callee (bound.map Cell.var) st r = .ok callee) {low : Lowering.Callee}
    (hlow : (a.lowering S).callee (bound.map (Cell.slot a.arity)) r = .ok low)
    {args : List Expr} {values : List Value}
    (hvalues : (a.site S).evalArgs invoke (bound.map Cell.var) args st = .ok (values, st₁))
    {argsCode : LabelledCode}
    (hargs : ∀ (temps : List Word) (k : Nat),
      cells.length + temps.length + Expr.nodesOf args ≤ S.program.nodes →
      S.layout.Fits (st₁.sizes S.table) →
      S.Moves (a.rbp S) k argsCode st (a.words S cells ++ temps) st₁
        (a.words S cells ++ temps ++ values.map (encode S.layout)))
    (hsize : cells.length + temps.length + Expr.nodesOf args < S.program.nodes)
    {result : Option Value} (hrun : callee.run invoke values st₁ = .ok (result, st'))
    (hfit : S.layout.Fits (st'.sizes S.table)) {k : Nat}
    (hcode : S.loaded.CodeAt k (low.call argsCode args.length)) {v : View}
    (hv : S.Matches (a.rbp S) st (a.words S cells ++ temps) v) :
    ∃ v', S.loaded.Runs k v (k + (low.call argsCode args.length).length) v' ∧
      S.Matches (a.rbp S) st' (a.words S cells ++ temps) v' ∧
      ∀ x, result = some x → v'.regs .rax = encode S.layout x := by
  obtain ⟨hgrow, hwithin⟩ := keeps_evalArgs hs.keeps args hsafe hvalues
  have hgrow' := (keeps_run hs.keeps hgrow.closed (receiver_lt hsafe hcallee hgrow) hwithin hrun).1
  have hreceiver : ∀ place, Setting.receiverOf? callee = some place → place < st₁.heap.length := by
    intro place hplace
    cases callee with
    | print => cases hplace
    | method className name receiver? =>
      exact receiver_lt hsafe hcallee hgrow className name place (congrArg _ hplace)
  have hcount := length_receiverWords_le S.layout (Setting.receiverOf? callee)
  have hlength := Site.length_evalArgs hvalues
  have hnodes := Expr.length_le_nodesOf args
  have hroom := hs.room.room
  have hsmall := S.small
  have hwords := a.length_words (S := S) hholds.arity_le
  have hcalls : Calls S (a.rbp S) k st (a.words S cells ++ temps) callee low :=
    calls_of_callee hs.room hholds (by omega) hcallee hlow
  have hpassed := hargs (temps ++ receiverWords S.layout (Setting.receiverOf? callee))
    (k + low.receiver.length) (by rw [length_append]; omega) (hfit.of_prefix hgrow'.sizes)
  rw [← append_assoc] at hpassed
  rw [Lowering.Callee.call, Loaded.codeAt_append, Loaded.codeAt_append] at hcode
  obtain ⟨⟨hfront, hcall⟩, hdrop⟩ := hcode
  obtain ⟨_, hruns₁, hv₁⟩ := (hcalls.receiver.append hpassed) hfront v hv
  have hk := (Loaded.codeAt_cons.mp hcall).1
  rw [hcalls.label] at hk
  obtain ⟨left, _, hruns₂, hv₂, hleft, hrax⟩ := Setting.comesBack_run hs.simulates hs.printing hrun
    hgrow.closed hwithin hreceiver hfit hk (by simp only [length_append]; omega) hv₁
  -- Receiver and arguments are taken off together.
  rw [append_assoc] at hv₂
  have hdropped : (receiverWords S.layout (Setting.receiverOf? callee) ++ left).length =
      low.receiverWords + args.length := by
    rw [length_append, hleft, hlength, hcalls.count]
  have hfew : (receiverWords S.layout (Setting.receiverOf? callee) ++ left).length < 2 ^ 28 := by
    rw [hdropped, hcalls.count]
    omega
  have hbehind : k + (low.receiver ++ argsCode ++ [Instr.call low.label]).length =
      k + (low.receiver ++ argsCode).length + 1 := by
    simp only [length_append, length_singleton, Nat.add_assoc]
  rw [← hdropped, hbehind] at hdrop
  obtain ⟨v₃, hruns₃, hv₃, hregs⟩ := Setting.runs_dropWords hdrop hfew hv₂
  refine ⟨v₃, ?_, hv₃, fun x hx => by rw [hregs, hrax x hx]⟩
  have hruns := (hruns₁.trans hruns₂).trans hruns₃
  rw [hdropped] at hruns
  simpa only [Lowering.Callee.call, length_append, length_singleton, Nat.add_assoc] using hruns

theorem resultValue_eq_ok {result : Option Value} {value : Value}
    (h : resultValue result = .ok value) : result = some value := by
  cases result <;> cases h
  rfl

mutual

/-- The code of an expression leaves the word of its value on the stack. -/
theorem moves_exprCode (hs : Surroundings S a invoke spare)
    (hholds : Holds S.layout a.arity frame bound cells) (e : Expr) (temps : List Word)
    {st st' : State} (hsafe : (a.site S).Safe (bound.map Cell.var) st)
    (hsize : cells.length + temps.length + e.nodes ≤ S.program.nodes) {k : Nat}
    {code : LabelledCode}
    (hcode : (a.lowering S).exprCode (bound.map (Cell.slot a.arity)) e = .ok code) {value : Value}
    (heval : (a.site S).evalExpr invoke (bound.map Cell.var) e st = .ok (value, st'))
    (hfit : S.layout.Fits (st'.sizes S.table)) :
    S.Moves (a.rbp S) k code st (a.words S cells ++ temps) st'
      (a.words S cells ++ temps ++ [encode S.layout value]) := by
  have hpos := e.nodes_pos
  have hfew : cells.length + temps.length < S.program.nodes := by omega
  have hpush := hs.room.push hholds.arity_le hfew
  cases e with
  | literal _ literal =>
    cases hcode
    cases heval
    exact Setting.moves_literal hpush literal
  | unary _ _ operand =>
    obtain ⟨_, hfirst, ⟨⟩⟩ := bind_eq_ok.mp hcode
    obtain ⟨⟨_, _⟩, hx, heval⟩ := bind_eq_ok.mp heval
    obtain ⟨_, hy, ⟨⟩⟩ := bind_eq_ok.mp heval
    rw [Expr.nodes] at hsize
    have hoperand := moves_exprCode hs hholds operand temps hsafe (by omega) (k := k) hfirst hx hfit
    have hop := hoperand.append (Setting.moves_unary hpush hy)
    simpa only [append_assoc] using hop
  | binary _ _ left right =>
    obtain ⟨first, hfirst, _, hsecond, ⟨⟩⟩ := bind₂_eq_ok.mp hcode
    obtain ⟨⟨x, _⟩, hx, heval⟩ := bind_eq_ok.mp heval
    obtain ⟨⟨_, _⟩, hy, heval⟩ := bind_eq_ok.mp heval
    obtain ⟨_, hz, ⟨⟩⟩ := bind_eq_ok.mp heval
    rw [Expr.nodes] at hsize
    obtain ⟨hgrow₁, hwithin₁⟩ := keeps_evalExpr hs.keeps left hsafe hx
    obtain ⟨hgrow₂, hwithin₂⟩ := keeps_evalExpr hs.keeps right (hsafe.grow hgrow₁) hy
    have hleft := moves_exprCode hs hholds left temps hsafe (by omega) (k := k) hfirst hx
      (hfit.of_prefix hgrow₂.sizes)
    have hright := moves_exprCode hs hholds right (temps ++ [encode S.layout x])
      (hsafe.grow hgrow₁) (by simp only [length_append, length_singleton]; omega)
      (k := k + first.length) hsecond hy hfit
    rw [← append_assoc] at hright
    have hop := (hleft.append hright).append
      (Setting.moves_binary hpush (hwithin₁.mono hgrow₂.length_le) hwithin₂ hz)
    simpa only [append_assoc] using hop
  | ref target =>
    obtain ⟨_, hx, ⟨⟩⟩ := bind_eq_ok.mp heval
    exact moves_value hs.room hholds hfew target hcode hx
  | index _ target position =>
    obtain ⟨array, harray, _, hsecond, ⟨⟩⟩ := bind₂_eq_ok.mp hcode
    obtain ⟨x, hx, ⟨_, _⟩, hy, heval⟩ := bind₂_eq_ok.mp heval
    obtain ⟨_, hz, ⟨⟩⟩ := bind_eq_ok.mp heval
    rw [Expr.nodes] at hsize
    have htarget := moves_value hs.room hholds hfew (k := k) target harray hx
    have hposition := moves_exprCode hs hholds position (temps ++ [encode S.layout x]) hsafe
      (by simp only [length_append, length_singleton]; omega) (k := k + array.length)
      hsecond hy hfit
    rw [← append_assoc] at hposition
    have helement := (htarget.append hposition).append (Setting.moves_readElement hpush hz)
    simpa only [append_assoc] using helement
  | call _ _ args =>
    obtain ⟨_, hlow, _, hargsCode, ⟨⟩⟩ := bind₂_eq_ok.mp hcode
    obtain ⟨_, hcallee, ⟨_, _⟩, hvalues, heval⟩ := bind₂_eq_ok.mp heval
    obtain ⟨⟨_, _⟩, hrun, heval⟩ := bind_eq_ok.mp heval
    obtain ⟨_, hz, ⟨⟩⟩ := bind_eq_ok.mp heval
    obtain rfl := resultValue_eq_ok hz
    rw [Expr.nodes] at hsize
    intro hcode v hv
    obtain ⟨hcall, hresult⟩ := Loaded.codeAt_append.mp hcode
    obtain ⟨_, hruns₁, hv₁, hrax⟩ := runs_call hs hholds hsafe hcallee hlow hvalues
      (fun temps k hsize hfit => moves_argsCode hs hholds args temps hsafe hsize
      hargsCode hvalues hfit) (by omega) hrun hfit hcall hv
    obtain ⟨v₂, hpushed, hv₂, -⟩ := hv₁.push hpush (r := .rax) (by decide)
    have hruns₂ := Loaded.runs_ops (.cons hpushed (.nil _)) hresult
    rw [hrax value rfl] at hv₂
    refine ⟨v₂, ?_, hv₂⟩
    rw [length_append, ← Nat.add_assoc]
    exact hruns₁.trans hruns₂
  | newObject =>
    cases hcode
    exact Setting.moves_newObject hpush (Except.ok.inj heval) hfit
  | newArray _ _ size =>
    obtain ⟨_, hfirst, ⟨⟩⟩ := bind_eq_ok.mp hcode
    obtain ⟨⟨_, st₁⟩, hx, heval⟩ := bind_eq_ok.mp heval
    rw [Expr.nodes] at hsize
    have hgrow : Grows S.table st₁ st' :=
      (keeps_newArray (keeps_evalExpr hs.keeps size hsafe hx).1.closed heval).1
    have hlength := moves_exprCode hs hholds size temps hsafe (by omega) (k := k) hfirst hx
      (hfit.of_prefix hgrow.sizes)
    have harray := hlength.append (Setting.moves_newArray hpush heval hfit)
    simpa only [append_assoc] using harray

/-- The code of arguments leaves the words of their values on the stack. -/
theorem moves_argsCode (hs : Surroundings S a invoke spare)
    (hholds : Holds S.layout a.arity frame bound cells) (es : List Expr) (temps : List Word)
    {st st' : State} (hsafe : (a.site S).Safe (bound.map Cell.var) st)
    (hsize : cells.length + temps.length + Expr.nodesOf es ≤ S.program.nodes) {k : Nat}
    {code : LabelledCode}
    (hcode : (a.lowering S).argsCode (bound.map (Cell.slot a.arity)) es = .ok code)
    {values : List Value}
    (heval : (a.site S).evalArgs invoke (bound.map Cell.var) es st = .ok (values, st'))
    (hfit : S.layout.Fits (st'.sizes S.table)) :
    S.Moves (a.rbp S) k code st (a.words S cells ++ temps) st'
      (a.words S cells ++ temps ++ values.map (encode S.layout)) := by
  cases es with
  | nil =>
    cases hcode
    cases heval
    rw [map_nil, append_nil]
    exact Setting.moves_nil
  | cons e es =>
    obtain ⟨first, hfirst, _, hothers, ⟨⟩⟩ := bind₂_eq_ok.mp hcode
    obtain ⟨⟨x, _⟩, hx, heval⟩ := bind_eq_ok.mp heval
    obtain ⟨⟨_, _⟩, hxs, ⟨⟩⟩ := bind_eq_ok.mp heval
    rw [Expr.nodesOf] at hsize
    have hpos := e.nodes_pos
    have hgrow₁ := (keeps_evalExpr hs.keeps e hsafe hx).1
    have hgrow₂ := (keeps_evalArgs hs.keeps es (hsafe.grow hgrow₁) hxs).1
    have hhead := moves_exprCode hs hholds e temps hsafe (by omega) (k := k) hfirst hx
      (hfit.of_prefix hgrow₂.sizes)
    have htail := moves_argsCode hs hholds es (temps ++ [encode S.layout x]) (hsafe.grow hgrow₁)
      (by simp only [length_append, length_singleton]; omega) (k := k + first.length)
      hothers hxs hfit
    rw [← append_assoc] at htail
    simpa only [append_assoc, map_cons, singleton_append] using hhead.append htail

end

end

end Preservation

end MiniJava
