import MiniJava.Proofs.Lowering.Blocks
import MiniJava.Proofs.Lowering.Calls
import MiniJava.Proofs.Lowering.StackDiscipline
import MiniJava.Proofs.Scoping.Identified
import MiniJava.Proofs.Token.Tokens

/-!
# The calling convention

What a caller does and what a callee expects, in the code that is assembled (`calls_linked`).

The depth of the caller's stack is counted in words. A callee counts from its own base, below which
two more words lie than at the call: the return address and the saved base (`wordOffset`).
-/

namespace MiniJava

open List

mutual

/-- A statement and all statements inside of it. -/
def Stmt.parts : Stmt → List Stmt
  | .block span body => .block span body :: Stmt.partsOf body
  | .ifThen span test thenBranch => .ifThen span test thenBranch :: thenBranch.parts
  | .ifThenElse span test thenBranch elseBranch =>
    .ifThenElse span test thenBranch elseBranch :: (thenBranch.parts ++ elseBranch.parts)
  | .loop span test body => .loop span test body :: body.parts
  | .declare span type name init => [.declare span type name init]
  | .assign span target value => [.assign span target value]
  | .assignIndex span target position value => [.assignIndex span target position value]
  | .call span method args => [.call span method args]
  | .ret span value => [.ret span value]

/-- Statements in turn and all statements inside of them. -/
def Stmt.partsOf : List Stmt → List Stmt
  | [] => []
  | s :: ss => s.parts ++ Stmt.partsOf ss

end

namespace Lowering

/-! ## Statements -/

section

variable {site : Site}

mutual

/-- Lowering comes to every part of a statement. -/
theorem exists_inStmt_of_mem_parts (s : Stmt) {start : Nat} {frame frame' : Frame}
    {code : LabelledCode}
    (hcode : site.stmtCode start frame s = .ok (code, frame')) {t : Stmt} (ht : t ∈ s.parts) :
    ∃ k f, InStmt site start frame s k f t := by
  cases s with
  | declare | assign | assignIndex | call | ret =>
    cases mem_singleton.mp ht
    exact ⟨_, _, .self⟩
  | block _ body =>
    rcases mem_cons.mp ht with rfl | ht
    · exact ⟨_, _, .self⟩
    · obtain ⟨⟨_, _⟩, hbody, -⟩ := bind_eq_ok.mp hcode
      obtain ⟨k, f, hin⟩ := exists_inStmts_of_mem_partsOf body hbody ht
      exact ⟨k, f, .block hin⟩
  | ifThen _ _ thenBranch =>
    rcases mem_cons.mp ht with rfl | ht
    · exact ⟨_, _, .self⟩
    · obtain ⟨_, hcondition, ⟨_, _⟩, hthen, -⟩ := bind₂_eq_ok.mp hcode
      obtain ⟨k, f, hin⟩ := exists_inStmt_of_mem_parts thenBranch hthen ht
      exact ⟨k, f, .ifThen hcondition hin⟩
  | ifThenElse _ _ thenBranch elseBranch =>
    rcases mem_cons.mp ht with rfl | ht
    · exact ⟨_, _, .self⟩
    · obtain ⟨_, hcondition, ⟨_, _⟩, hthen, hcode⟩ := bind₂_eq_ok.mp hcode
      obtain ⟨⟨_, _⟩, helse, -⟩ := bind_eq_ok.mp hcode
      rcases mem_append.mp ht with ht | ht
      · obtain ⟨k, f, hin⟩ := exists_inStmt_of_mem_parts thenBranch hthen ht
        exact ⟨k, f, .thenBranch hcondition hin⟩
      · obtain ⟨k, f, hin⟩ := exists_inStmt_of_mem_parts elseBranch helse ht
        exact ⟨k, f, .elseBranch hcondition hthen hin⟩
  | loop _ _ body =>
    rcases mem_cons.mp ht with rfl | ht
    · exact ⟨_, _, .self⟩
    · obtain ⟨_, hcondition, ⟨_, _⟩, hbody, -⟩ := bind₂_eq_ok.mp hcode
      obtain ⟨k, f, hin⟩ := exists_inStmt_of_mem_parts body hbody ht
      exact ⟨k, f, .loop hcondition hin⟩

theorem exists_inStmts_of_mem_partsOf (ss : List Stmt) {start : Nat} {frame frame' : Frame}
    {code : LabelledCode} (hcode : site.stmtsCode start frame ss = .ok (code, frame')) {t : Stmt}
    (ht : t ∈ Stmt.partsOf ss) : ∃ k f, InStmts site start frame ss k f t := by
  cases ss with
  | nil => cases ht
  | cons s ss =>
    obtain ⟨⟨_, _⟩, hfirst, hcode⟩ := bind_eq_ok.mp hcode
    obtain ⟨⟨_, _⟩, hothers, -⟩ := bind_eq_ok.mp hcode
    rcases mem_append.mp ht with ht | ht
    · obtain ⟨k, f, hin⟩ := exists_inStmt_of_mem_parts s hfirst ht
      exact ⟨k, f, .head hin⟩
    · obtain ⟨k, f, hin⟩ := exists_inStmts_of_mem_partsOf ss hothers ht
      exact ⟨k, f, .tail hfirst hin⟩

end

end

/-! ## Branches -/

/-- The instruction with index `k` is a branch to the one with index `n`. -/
def BranchesTo (code : List (Instr Nat)) (k n : Nat) : Prop :=
  code[k]? = some (.jump n) ∨ ∃ cond, code[k]? = some (.jumpIf cond n)

/-- The branches between two indices stay between them. -/
def BranchesWithin (code : List (Instr Nat)) (start stop : Nat) : Prop :=
  ∀ k n, start ≤ k → k < stop → BranchesTo code k n → start ≤ n ∧ n ≤ stop

section

variable {index : Label → Nat} {code : List (Instr Nat)} {k : Nat} {own : LabelledCode}

theorem StandsAt.exists_branch (h : StandsAt index code k own) {j n : Nat} (hj : j < own.length)
    (hbranch : BranchesTo code (k + j) n) :
    ∃ i label, own[j]? = some i ∧ i.branch? = some label ∧ n = index label := by
  obtain ⟨i, hi⟩ : ∃ i, own[j]? = some i := ⟨_, getElem?_eq_getElem hj⟩
  rw [BranchesTo, h.getElem? hj, hi] at hbranch
  refine ⟨i, ?_⟩
  cases i with
  | op | call | ret => rcases hbranch with hbranch | ⟨cond, hbranch⟩ <;> cases hbranch
  | jump label =>
    rcases hbranch with hbranch | ⟨cond, hbranch⟩
    · cases hbranch
      exact ⟨label, hi, rfl, rfl⟩
    · cases hbranch
  | jumpIf cond label =>
    rcases hbranch with hbranch | ⟨_, hbranch⟩
    · cases hbranch
    · cases hbranch
      exact ⟨label, hi, rfl, rfl⟩

theorem StandsAt.branchesWithin (h : StandsAt index code k own) (hplace : ∀ n, index (.index n) = n)
    {low d d' : Int} (htracks : Tracks [] low k own d d') :
      BranchesWithin code k (k + own.length) := by
  intro _ n hstart _ hbranch
  obtain ⟨j, rfl⟩ := Nat.exists_eq_add_of_le hstart
  obtain ⟨i, label, hi, hlabel, rfl⟩ := h.exists_branch (by omega) hbranch
  -- Branches never go to methods.
  obtain ⟨n, rfl⟩ : ∃ n, label = .index n := by
    have htracked := htracks.tracked i (mem_of_getElem? hi)
    cases i with
    | op | call | ret => cases hlabel
    | jump | jumpIf =>
      cases hlabel
      exact htracked
  rw [hplace]
  rcases htracks.branches j i n hi hlabel with hmark | ⟨hfirst, hlast, -⟩
  · cases hmark
  · exact ⟨hfirst, hlast⟩

end

variable {table : ClassTable} {parts : CallParts} {start : Nat} {p : Program} {m : MethodDecl}

/-- The code of a statement that has its place in a body, with the depths that it has there. -/
theorem Placed.exists_tracks {naming : Identification.Site} {lowering : Site} {arity : Nat}
    {code : LabelledCode} {d : Int} {k : Nat} {f : Frame} {s : Stmt}
    (h : Placed naming lowering arity start code d k f s) :
    ∃ front own back f', code = front ++ own ++ back ∧ k = start + front.length ∧
      lowering.stmtCode k f s = .ok (own, f') ∧
      Tracks [] f.locals k own f.locals (f.locals + s.declared) := by
  obtain ⟨front, own, back, f', hcode, hk, -, hown⟩ := h.code
  obtain ⟨_, _, hready, hcheck⟩ := h.scopes
  refine ⟨front, own, back, f', hcode, hk, hown, ?_⟩
  exact (tracks_stmtCode_of [] _ hready hcheck hown h.args fun hbranch =>
    tracks_branchCode [] hready s hbranch hcheck hown h.args
      (h.words.mono (Nat.le_add_left _ _)) _).2

/-! ## Words -/

/-- The distance from the base of a callee's frame to the `n`-th of the words that its caller has
put on the stack. On top of them lie the return address and the saved base. -/
def wordOffset (words n : Nat) : Int := wordSize * (words - n + 2)

theorem paramOffset_eq {arity i : Nat} (hi : i < arity) (receiverWords : Nat) :
    paramOffset arity i = wordOffset (receiverWords + arity) (receiverWords + i + 1) := by
  unfold paramOffset wordOffset argumentBase wordSize
  omega

theorem receiverOffset_eq (arity : Nat) : receiverOffset arity = wordOffset (1 + arity) 1 := by
  unfold receiverOffset wordOffset argumentBase wordSize
  omega

/-- The offsets of words are displacements in the code. -/
theorem disp_wordOffset {words n : Nat} (hfit : FitsImmediate (words + 1)) (hpos : 1 ≤ n)
    (hle : n ≤ words) : (memAt .rbp (wordOffset words n)).disp.toInt = wordOffset words n := by
  unfold FitsImmediate wordSize at hfit
  have hbounds : -2 ^ 31 ≤ wordOffset words n ∧ wordOffset words n < 2 ^ 31 := by
    unfold wordOffset wordSize
    omega
  exact Int32.toInt_ofInt_of_le hbounds.1 hbounds.2

/-- What the frame of a method binds for a parameter with an index. -/
def paramBinding (arity : Nat) (q : Param × Nat) : String × Slot :=
  (q.1.name.value, ⟨paramOffset arity q.2, q.1.type.value⟩)

theorem map_fst_paramBinding (arity : Nat) (params : List Param) :
    (params.zipIdx.map (paramBinding arity)).map (·.1) = params.map (·.name.value) := by
  have hfst : (fun q : Param × Nat => (paramBinding arity q).1) =
      (fun q : Param => q.name.value) ∘ Prod.fst := rfl
  rw [map_map, Function.comp_def, hfst, ← map_map, zipIdx_map_fst]

/-- Parameters with different names are bound one by one. -/
theorem foldl_params (arity k : Nat) (params : List Param) (inner : List (String × Slot))
    (hnodup : (params.map (·.name.value)).Nodup)
    (hfresh : ∀ q ∈ params, inner.lookup q.name.value = none) :
    (params.zipIdx k).foldl
      (fun slots (q, i) => slots.defineNew q.name.value ⟨paramOffset arity i, q.type.value⟩)
      (ScopeStack.mk [inner]) =
    ⟨[((params.zipIdx k).map (paramBinding arity)).reverse ++ inner]⟩ := by
  induction params generalizing k inner with
  | nil => rfl
  | cons q _ ih =>
    -- The name is not in the scope yet, so it is bound there and hides nothing.
    obtain ⟨hq, hnodup⟩ := nodup_cons.mp hnodup
    obtain ⟨hnew, hfresh⟩ := forall_mem_cons.mp hfresh
    have hdefine : (ScopeStack.mk [inner]).defineNew q.name.value
        ⟨paramOffset arity k, q.type.value⟩ = ⟨[paramBinding arity (q, k) :: inner]⟩ := by
      simp [ScopeStack.defineNew, ScopeStack.define?, hnew, paramBinding]
    rw [zipIdx_cons, foldl_cons]
    dsimp only
    rw [hdefine, ih (k + 1) _ hnodup ?_]
    · simp only [map_cons, reverse_cons, append_assoc, singleton_append]
    · intro other hother
      have hne : other.name.value ≠ q.name.value := fun heq => hq (mem_map.mpr ⟨other, hother, heq⟩)
      rw [paramBinding, lookup_cons, beq_false_of_ne hne]
      exact hfresh other hother

/-- Each parameter is found at its offset. -/
theorem lookup_ofParams {params : List Param} (hnodup : (params.map (·.name.value)).Nodup) {i : Nat}
    {q : Param} (hi : params[i]? = some q) :
    (Frame.ofParams params).slots.lookup q.name.value =
      some ⟨paramOffset params.length i, q.type.value⟩ := by
  have hslots : (Frame.ofParams params).slots =
      ⟨[(params.zipIdx.map (paramBinding params.length)).reverse ++ []]⟩ :=
    foldl_params params.length 0 params [] hnodup fun _ _ => rfl
  have hkeys : ((params.zipIdx.map (paramBinding params.length)).reverse.map (·.1)).Nodup := by
    rw [map_reverse, nodup_reverse, map_fst_paramBinding]
    exact hnodup
  have hmem : paramBinding params.length (q, i) ∈
      (params.zipIdx.map (paramBinding params.length)).reverse :=
    mem_reverse.mpr (mem_map_of_mem (mem_zipIdx_iff_getElem?.mpr hi))
  rw [hslots, append_nil, ScopeStack.lookup, findSome?_cons, lookup_of_mem hkeys hmem]

/-! ## Calls -/

/-- The frame of a method takes up the words of a call: there are as many as it has parameters, and
one for a receiver, and each of its variables lies where the word for it has been put. -/
structure Receives (b : Body) (m : MethodDecl) (parts : CallParts) : Prop where
  receiverWords : parts.callee.receiverWords = if m.isStatic then 0 else 1
  words : parts.words = m.params.length + if m.isStatic then 0 else 1
  param : ∀ i q, m.params[i]? = some q → (Frame.ofParams m.params).slots.lookup q.name.value =
    some ⟨wordOffset parts.words (parts.callee.receiverWords + i + 1), q.type.value⟩
  receiver : m.isStatic = false → b.lowering.receiver? = some (wordOffset parts.words 1)
  displacement : ∀ n, 1 ≤ n → n ≤ parts.words →
    (memAt .rbp (wordOffset parts.words n)).disp.toInt = wordOffset parts.words n

/-- Typing has found the method of a block for a call, and the instruction with index `k` calls the
first instruction of that block. -/
structure CallsBlock (table : ClassTable) (p : Program) (b : Body)
    (code : List (Instr Nat)) (k : Nat)
    (c : Typing.Call) (parts : CallParts) (target : Block) : Prop where
  name : c.method.lastName? = some target.method.name.value
  owner : target.method.owner = target.className
  typed : (b.typing.env c.types).entity? c.method = some (.method (.ofDecl target.method))
  linked : code[k]? = some (.call target.start)
  receives : Receives (Body.ofMethod table p target.className target.method) target.method parts

/-- Typing has found the printing method for a call, and the instruction with index `k` calls the
printing routine, which has no receiver and reads its argument where the word for it has been
put. -/
structure CallsPrint (b : Body) (printLine : Nat) (code : List (Instr Nat)) (k : Nat)
    (c : Typing.Call) (parts : CallParts) : Prop where
  name : c.method.lastName? = some ClassTable.printMethod
  typed : ∃ entry, (b.typing.env c.types).entity? c.method = some (.method entry) ∧
    entry.owner = ClassTable.printStreamClass
  linked : code[k]? = some (.call printLine)
  receiverWords : parts.callee.receiverWords = 0
  words : parts.words = 1
  argument : code[printLine + 3]? = some (.op (.load .rax (memAt .rbp (wordOffset 1 1))))

/-- A call and its instruction, which has index `k`. As many words are put on the stack in front of
it as are taken off behind it, each argument puts one there, and the callee expects these words. -/
structure LinkedCall (table : ClassTable) (p : Program) (blocks : List Block) (printLine : Nat)
    (code : List (Instr Nat)) (b : Body) (k : Nat) (c : Typing.Call)
    (parts : CallParts) : Prop where
  pushed : Pushes parts.front parts.words
  dropped : Drops (dropWords parts.words) parts.words
  receiver : Pushes parts.callee.receiver parts.callee.receiverWords
  values : ∀ i own, parts.values[i]? = some own → Pushes own 1 ∧
    Pushes (parts.callee.receiver ++ (parts.values.take i).flatten) (parts.callee.receiverWords + i)
  goes : (∃ target ∈ blocks, CallsBlock table p b code k c parts target) ∨
    CallsPrint b printLine code k c parts

theorem ne_printStreamClass (h : table.IsTableOf p) {c : ClassDecl} (hc : c ∈ p.classes) :
    c.name.value ≠ ClassTable.printStreamClass := by
  have hnodup := h.names_nodup
  rw [h.classes, map_append, nodup_append, map_map] at hnodup
  intro heq
  refine hnodup.2.2 ClassTable.printStreamClass (by decide) c.name.value ?_ heq.symm
  exact mem_map_of_mem (f := Prod.fst ∘ fun c => (c.name.value, ClassEntry.members c)) hc

theorem nodup_params (h : identify p = .ok table) {c : ClassDecl} (hc : c ∈ p.classes)
    (hm : m ∈ c.methods) :
    (m.params.map (·.name.value)).Nodup := by
  obtain ⟨_, -, hparams, -⟩ := checkStmts_of_identify h hc hm
  rw [Scoping.push_empty] at hparams
  exact ((Scoping.declareParams_iff (isTableOf_of_identify h)).mp hparams).2.1

/-- The words that a caller puts on the stack are those that the frame of the method expects. -/
theorem receives_of_words {className : String} (hnodup : (m.params.map (·.name.value)).Nodup)
    (hfit : FitsImmediate (m.params.length + 2))
    (hreceiver : parts.callee.receiverWords = if m.isStatic then 0 else 1)
    (hvalues : parts.values.length = m.params.length) :
    Receives (Body.ofMethod table p className m) m parts := by
  have hwords : parts.words = parts.callee.receiverWords + m.params.length := by
    rw [CallParts.words, hvalues]
  have hone : parts.callee.receiverWords ≤ 1 := by
    rw [hreceiver]
    split <;> omega
  refine ⟨hreceiver, ?_, ?_, ?_, ?_⟩
  · rw [hwords, hreceiver, Nat.add_comm]
  · intro i _ hi
    have hlt : i < m.params.length := (List.getElem?_eq_some_iff.mp hi).1
    rw [lookup_ofParams hnodup hi, paramOffset_eq hlt parts.callee.receiverWords, hwords]
  · intro hstatic
    rw [hstatic] at hreceiver
    rw [hwords, show parts.callee.receiverWords = 1 from hreceiver, ← receiverOffset_eq]
    simp [Body.lowering, Body.ofMethod, hstatic]
  · intro _ hpos hle
    exact disp_wordOffset (hfit.mono (by omega)) hpos hle

section

variable {table : ClassTable} {p : Program} (h : identify p = .ok table) (howned : p.MembersOwned)
  (hfit : ∀ c ∈ p.classes, ∀ m ∈ c.methods, FitsImmediate m.frameWords) {main : MethodKey}
  {blocks : List Block} {index : Label → Nat} {code : List (Instr Nat)}
  (hlaid : LaidOut table p main blocks index code)
include h howned hfit hlaid

/-- A call that has been lowered goes to what typing has found for it. -/
theorem linkedCall_of_lowersCall {b : Body} (hb : b.table = table) {slots : ScopeStack Slot}
    {c : Typing.Call} (hlowers : LowersCall b slots c parts) (hcounted : b.typing.Counted c)
    {k : Nat} (hk : code[k]? = some (.call (index parts.callee.label))) :
    LinkedCall table p blocks (index .printLine) code b k c parts := by
  refine ⟨hlowers.pushes_front, hlowers.drops, hlowers.pushes_receiver, ?_, ?_⟩
  · intro i _ hi
    have hlt : i < parts.values.length := (List.getElem?_eq_some_iff.mp hi).1
    exact ⟨hlowers.pushes_value (mem_of_getElem? hi), hlowers.pushes_take i (Nat.le_of_lt hlt)⟩
  have htable := isTableOf_of_identify h
  obtain ⟨className, name, entry, hname, hentity, hmethod, callee, hcallee, hshape⟩ := hlowers.same
  cases hlowers.callee.symm.trans hcallee
  have hcount : parts.values.length = entry.params.length := by
    rw [hlowers.length_values, hcounted entry hentity]
  rw [Body.lowering_table, hb] at hmethod
  rcases htable.method?_cases hmethod with ⟨rfl, rfl, rfl⟩ | ⟨d, hd, rfl, m, hm, rfl, rfl⟩
  · -- The printing method is known by its class and its name.
    rw [if_pos ⟨rfl, rfl⟩] at hshape
    rw [hshape] at hk
    have hreceiver : parts.callee.receiverWords = 0 := by rw [hshape]
    refine .inr ⟨hname, ⟨_, hentity, rfl⟩, hk, hreceiver, ?_, ?_⟩
    · rw [CallParts.words, hreceiver, hcount]
      rfl
    · rw [hlaid.getElem?_printLine]
      rfl
  · -- Any other method is declared in the program and has a block.
    have howner : m.owner = d.name.value := howned.methods d hd m hm
    obtain ⟨target, htarget, hclass, rfl⟩ := hlaid.exists_block (mem_methodsOf.mpr ⟨d, hd, hm, rfl⟩)
    have hother : ¬ ((MethodEntry.ofDecl target.method).owner = ClassTable.printStreamClass ∧
        target.method.name.value = ClassTable.printMethod) := by
      rintro ⟨hprint, -⟩
      exact ne_printStreamClass htable hd (howner.symm.trans hprint)
    rw [if_neg hother] at hshape
    have hcall : parts.callee.label = .method target.className target.method.name.value ∧
        parts.callee.receiverWords = if target.method.isStatic then 0 else 1 := by
      rw [hclass, ← howner]
      cases hstatic : target.method.isStatic with
      | true =>
        rw [if_pos (show (MethodEntry.ofDecl target.method).isStatic = true from hstatic)] at hshape
        rw [hshape]
        exact ⟨rfl, rfl⟩
      | false =>
        rw [if_neg (show ¬ (MethodEntry.ofDecl target.method).isStatic = true by
          rw [show (MethodEntry.ofDecl target.method).isStatic = false from hstatic]
          decide)] at hshape
        exact ⟨hshape.1, hshape.2.1⟩
    rw [hcall.1, hlaid.method target htarget] at hk
    have hlength : parts.values.length = target.method.params.length := by
      rw [hcount]
      exact length_map _
    have harity : FitsImmediate (target.method.params.length + 2) :=
      (hfit d hd target.method hm).mono ((Nat.le_max_left _ _).trans (Nat.le_max_right _ _))
    exact .inl ⟨target, htarget, hname, howner.trans hclass.symm, hentity, hk,
      receives_of_words (nodup_params h hd hm) harity hcall.2 hlength⟩

end

/-! ## Blocks -/

/-- What holds of the block of a method in linked code. It begins by opening a frame. The branches
in the code of a statement stay inside of that code or go right behind it, so none leaves the block.
Its call instructions are those of the calls that are written in the method, in the order in which
these are carried out. -/
structure LinkedBlock (table : ClassTable) (p : Program) (blocks : List Block) (index : Label → Nat)
    (code : List (Instr Nat)) (block : Block) : Prop where
  enters : code[block.start]? = some (.op (.pushReg .rbp)) ∧
    code[block.start + 1]? = some (.op (.movReg .rbp .rsp))
  inside : ∀ k n, block.start ≤ k → k < block.stop → BranchesTo code k n →
    block.start ≤ n ∧ n < block.stop
  reached : ∀ s ∈ Stmt.partsOf block.method.body, ∃ k f,
    InStmts (Body.ofMethod table p block.className block.method).lowering
      (block.start + (Routine.enter : LabelledCode).length) (Frame.ofParams block.method.params)
      block.method.body k f s
  stmts : ∀ k f s,
    InStmts (Body.ofMethod table p block.className block.method).lowering
      (block.start + (Routine.enter : LabelledCode).length) (Frame.ofParams block.method.params)
      block.method.body k f s →
    ∃ own f', (Body.ofMethod table p block.className block.method).lowering.stmtCode k f s =
        .ok (own, f') ∧ StandsAt index code k own ∧ BranchesWithin code k (k + own.length)
  calls : List.Forall₂ (fun x c => ∃ slots parts,
      LowersCall (Body.ofMethod table p block.className block.method) slots c parts ∧
      parts.StandsIn block.start block.code x ∧
      LinkedCall table p blocks (index .printLine) code
        (Body.ofMethod table p block.className block.method) x.1 c parts)
    (callsFrom block.start block.code) (Typing.callsOf table block.className block.method)

/-- A call instruction stands where the parts of its call do. -/
theorem StandsAt.getElem?_call {index : Label → Nat} {code : List (Instr Nat)}
    {whole : LabelledCode} (h : StandsAt index code start whole) {x : Nat × Label}
    (hparts : parts.StandsIn start whole x) :
    code[x.1]? = some (.call (index parts.callee.label)) := by
  obtain ⟨front, _, rfl, rfl⟩ := hparts
  have hcall : StandsAt index code (start + front.length + parts.front.length)
      [.call parts.callee.label] := h.part.part
  exact hcall.getElem? (j := 0) Nat.zero_lt_one

/-- Between the opening and the closing of the frame there is the code of the body. -/
theorem exists_body_of_methodCode {className : String} {code : LabelledCode}
    (h : methodCode table (.ofProgram p) className start m = .ok code) :
    ∃ body frame, code = Routine.enter ++ body ++ Routine.leave ∧
      (Body.ofMethod table p className m).lowering.stmtsCode
        (start + (Routine.enter : LabelledCode).length) (Frame.ofParams m.params) m.body =
          .ok (body, frame) := by
  obtain ⟨⟨body, frame⟩, hbody, ⟨⟩⟩ := bind_eq_ok.mp h
  exact ⟨body, frame, rfl, hbody⟩

/-- Opening and closing a frame takes no branch. -/
theorem inside_of_body {index : Label → Nat} {code : List (Instr Nat)} {body : LabelledCode}
    (h : StandsAt index code start (Routine.enter ++ body ++ Routine.leave))
    (hbody : BranchesWithin code (start + (Routine.enter : LabelledCode).length)
      (start + (Routine.enter : LabelledCode).length + body.length)) {k n : Nat}
    (hstart : start ≤ k)
    (hstop : k < start + (Routine.enter ++ body ++ Routine.leave : LabelledCode).length)
    (hbranch : BranchesTo code k n) :
    start ≤ n ∧ n < start + (Routine.enter ++ body ++ Routine.leave : LabelledCode).length := by
  have henter : (Routine.enter : LabelledCode).length = 2 := rfl
  have hleave : (Routine.leave : LabelledCode).length = 3 := rfl
  have hnone : ∀ i ∈ (Routine.enter ++ Routine.leave : LabelledCode), i.branch? = none := by decide
  simp only [length_append] at hstop ⊢
  obtain ⟨j, rfl⟩ := Nat.exists_eq_add_of_le hstart
  obtain ⟨i, _, hi, hlabel, rfl⟩ := h.exists_branch (by simp only [length_append]; omega) hbranch
  -- Neither end has a branch, so this one is in the body.
  have hmiddle : 2 ≤ j ∧ j < 2 + body.length := by
    refine ⟨?_, ?_⟩
    · by_contra hlt
      rw [append_assoc, getElem?_append_left (by omega)] at hi
      rw [hnone i (mem_append_left _ (mem_of_getElem? hi))] at hlabel
      cases hlabel
    · by_contra hlt
      rw [getElem?_append_right (by rw [length_append]; omega)] at hi
      rw [hnone i (mem_append_right _ (mem_of_getElem? hi))] at hlabel
      cases hlabel
  have hrange := hbody (start + j) _ (by omega) (by omega) hbranch
  omega

section

variable {table : ClassTable} {p : Program} (h : identify p = .ok table) (howned : p.MembersOwned)
  (htypes : typeCheck table p = [])
  (hfit : ∀ c ∈ p.classes, ∀ m ∈ c.methods, FitsImmediate m.frameWords) {main : MethodKey}
  {blocks : List Block} {index : Label → Nat} {code : List (Instr Nat)}
  (hlaid : LaidOut table p main blocks index code)
include h howned htypes hfit hlaid

/-- Every method of the linked code keeps to the convention. -/
theorem linkedBlock_of_laidOut {block : Block} (hblock : block ∈ blocks) :
    LinkedBlock table p blocks index code block := by
  obtain ⟨c, hc, hm, hclass⟩ := mem_methodsOf.mp (hlaid.mem_methodsOf hblock)
  have hstands := hlaid.standsAt hblock
  obtain ⟨body, frame, hcode, hlowered⟩ := exists_body_of_methodCode (hlaid.lowered block hblock)
  obtain ⟨locals, _, -, haligned, hbody⟩ := checkStmts_of_identify h hc hm
  rw [hclass] at hbody
  have hready := Frame.ready_of_aligned haligned
  have hwords := hfit c hc block.method hm
  have hlocals : FitsImmediate (Stmt.mostLocalsOf block.method.body) :=
    hwords.mono (Nat.le_max_left _ _)
  have hargs : FitsImmediate (Stmt.mostArgsOf block.method.body + 1) :=
    hwords.mono ((Nat.le_max_right _ _).trans (Nat.le_max_right _ _))
  have hstatics := staticsPlaced_ofMethod (isTableOf_of_identify h) block.className block.method
  rw [hcode] at hstands
  have hbodyAt : StandsAt index code (block.start + (Routine.enter : LabelledCode).length) body :=
    hstands.part
  have hfirst : 1 < (Routine.enter ++ body ++ Routine.leave : LabelledCode).length := by
    rw [append_assoc, length_append]
    exact Nat.lt_add_right _ (by decide)
  refine ⟨⟨?_, ?_⟩, ?_, ?_, ?_, ?_⟩
  · exact hstands.getElem? (j := 0) (Nat.lt_trans Nat.zero_lt_one hfirst)
  · exact hstands.getElem? (j := 1) hfirst
  · obtain ⟨n, -, -, htracks⟩ :=
      tracks_stmtsCode [] hready block.method.body hbody hlowered hargs hlocals 0
    intro k _ hstart hstop hbranch
    rw [Block.stop, hcode] at hstop ⊢
    exact inside_of_body hstands (hbodyAt.branchesWithin hlaid.place htracks) hstart hstop hbranch
  · intro s hs
    exact exists_inStmts_of_mem_partsOf block.method.body hlowered hs
  · intro _ _ _ hin
    have hplaced := placed_of_inStmts hready block.method.body hbody hlowered
      (Frame.laid_ofParams block.method.params) hargs (by
        rw [show (Scopes.ofParams locals block.method.params).frame.locals =
          0 from rfl, Nat.zero_add]
        exact hlocals) hin
    obtain ⟨_, own, _, f', rfl, rfl, hown, htracks⟩ := hplaced.exists_tracks
    have hownAt := hbodyAt.part
    exact ⟨own, f', hown, hownAt, hownAt.branchesWithin hlaid.place htracks⟩
  · have hemits : Emits (Body.ofMethod table p block.className block.method) block.start block.code
        (Typing.callsOf table block.className block.method) := by
      rw [hcode]
      exact (Emits.silent_append (silent_ops _)
        (emits_stmtsCode hstatics haligned block.method.body hbody hlowered hargs)).append_silent
        silent_leave
    have hcounted := Typing.counted_of_typeCheck htypes hc hm
    rw [hclass] at hcounted
    rw [← hcode] at hstands
    -- Typing has counted the arguments of the same calls whose instructions lowering has emitted.
    have hboth := (forall₂_and_left _ _).mpr ⟨hcounted, hemits.flip⟩
    refine (hboth.imp ?_).flip
    rintro _ _ ⟨hcount, slots, parts, hlowers, hparts⟩
    exact ⟨slots, parts, hlowers, hparts, linkedCall_of_lowersCall h howned hfit hlaid rfl
      hlowers hcount (hstands.getElem?_call hparts)⟩

end

end Lowering

open Lowering

/-- In the code that is assembled for an accepted program, the entry code comes first, then a block
for each method in the order of the source, then the printing routine. The entry code calls the main
method. In each block, branches stay inside of the code of their statements, every call goes to the
method with which it has been typed or to the printing routine, and caller and callee agree on the
words that are put on the stack for it. -/
theorem calls_linked {source : String} {p : Program} {table : ClassTable} {main : MethodKey}
    (hp : parse source = .ok p) (h : identify p = .ok table) (htypes : typeCheck table p = [])
    (hmain : findMain p = .ok main)
    (hfit : ∀ c ∈ p.classes, ∀ m ∈ c.methods, FitsImmediate m.frameWords) :
    ∃ code blocks index, programCode table main p = .ok code ∧
      LaidOut table p main blocks index code ∧
      (∃ target ∈ blocks, target.method.isMain = true ∧ keyOf target.source = main ∧
        (entryCode (.ofProgram p) main).map (·.map index) =
          Instr.ops (.movReg .r15 .rsp ::
            List.replicate ((StaticArea.ofProgram p).size + 1) (.pushImm 0)) ++
          [.call target.start] ++ Routine.exit) ∧
      ∀ block ∈ blocks, LinkedBlock table p blocks index code block := by
  have howned := membersOwned_of_parse hp
  obtain ⟨⟨_, _⟩, hm, hisMain, rfl⟩ := findMain_eq_ok hmain
  obtain ⟨code, blocks, index, hcode, hlaid⟩ := exists_laidOut h howned (mem_map_of_mem hm)
  obtain ⟨target, htarget, rfl, rfl⟩ := hlaid.exists_block hm
  refine ⟨code, blocks, index, hcode, hlaid, ⟨target, htarget, hisMain, rfl, ?_⟩, ?_⟩
  · have hops : ∀ os, (Instr.ops os : LabelledCode).map (·.map index) = Instr.ops os := by
      intro _
      simp [Instr.ops, Instr.map, Function.comp_def]
    rw [entryCode, map_append, map_append, hops, Routine.exit, hops, ← hlaid.method target htarget]
    rfl
  · intro _ hblock
    exact linkedBlock_of_laidOut h howned htypes hfit hlaid hblock

/-- Calls within the arguments of calls: one with a receiver, one to a class whose block comes
later, and one to the printing routine. -/
def callingSource : String :=
  "class A\x7bint n;int add(int k,int j)\x7breturn n+k-j;\x7d" ++
    "public static void main(String[]a)" ++
      "\x7bA o=new A();System.out.println(o.add(3,B.f(1)));\x7d\x7d" ++
    "class B\x7bstatic int f(int x)\x7bif(x<1)return 0;return x;\x7d\x7d"

set_option maxRecDepth 6000 in
theorem typeCheck_callingSource :
    ∃ p t, parse callingSource = .ok p ∧ identify p = .ok t ∧ typeCheck t p = [] ∧
      findMain p = .ok ⟨"A", "main"⟩ ∧
      (methodsOf p).map (·.2.name.value) = ["add", "main", "f"] ∧
      ∀ c ∈ p.classes, ∀ m ∈ c.methods, m.frameWords ≤ 4 := by
  rw [parse, TokenStream.ofSource, lex_eq_tokensWithin]
  exact ⟨_, _, rfl, rfl, rfl, rfl, rfl, by decide⟩

theorem calls_linked_callingSource :
    ∃ p t code blocks index, parse callingSource = .ok p ∧ identify p = .ok t ∧
      typeCheck t p = [] ∧ findMain p = .ok ⟨"A", "main"⟩ ∧
      (∀ c ∈ p.classes, ∀ m ∈ c.methods, FitsImmediate m.frameWords) ∧
      programCode t ⟨"A", "main"⟩ p = .ok code ∧
      blocks.map (·.method.name.value) = ["add", "main", "f"] ∧
      ∀ block ∈ blocks, LinkedBlock t p blocks index code block := by
  obtain ⟨p, t, hp, ht, htypes, hmain, hmethods, hwords⟩ := typeCheck_callingSource
  have hfit : ∀ c ∈ p.classes, ∀ m ∈ c.methods, FitsImmediate m.frameWords := fun c hc m hm =>
    FitsImmediate.mono (by unfold FitsImmediate; decide) (hwords c hc m hm)
  obtain ⟨code, blocks, index, hcode, hlaid, -, hlinked⟩ := calls_linked hp ht htypes hmain hfit
  refine ⟨p, t, code, blocks, index, hp, ht, htypes, hmain, hfit, hcode, ?_, hlinked⟩
  rw [← hmethods, ← hlaid.methods, map_map]
  rfl

end MiniJava
