import Mathlib
import MiniJava.Lowering.Frame

/-!
# The depth of the stack

How far the stack of a method reaches below the base of its frame, in words, at each
instruction of the method. The depth is followed along the paths that control can take
(`Step`): a push adds a word, a pop takes one off, `add rsp` takes off as many as it says, a
call gives back what it used, and closing the frame goes back to its base. A path ends at a
return.

A path is hard to reason about, since it may go around a loop any number of times. But the
depth does not depend on the path, and is found by reading the code once from its beginning
to its end (`depthAt`). `Tracks` says of a piece of code that this reading is right for all
of its branches, and `Tracks.depth_of_path` that then it is right for all of its paths.
-/

namespace MiniJava

open List

/-! ## Single instructions -/

/-- The register that an operation sets, other than by its use of the stack. A division, a sign
extension and a system call set fixed registers, none of which belongs to the frame. -/
def Op.dest? : Op → Option Reg
  | .movReg dst _ | .load dst _ | .movImm dst _ | .lea dst _ | .imul dst _ | .neg dst
  | .shlImm dst _ | .setcc _ dst | .movzxByte dst _ => some dst
  | .alu op dst _ | .aluImm op dst _ => if op = .cmp then none else some dst
  | _ => none

/-- By how many words an operation moves the end of the stack, if that can be told. -/
def Op.depthChange? : Op → Option Int
  | .pushReg _ | .pushImm _ | .pushMem _ => some 1
  | .popReg r => if r = .rsp then none else some (-1)
  | .aluImm .add .rsp imm =>
    if imm.toInt % wordSize = 0 then some (-(imm.toInt / wordSize)) else none
  | o => if o.dest? = some .rsp ∨ o.dest? = some .rbp then none else some 0

/-- The depth behind an operation. To set `rsp` to `rbp` is to go back to the base. -/
def Op.depthAfter? (o : Op) (depth : Int) : Option Int :=
  if o = .movReg .rsp .rbp then some 0 else o.depthChange?.map (depth + ·)

/-- Operations that close the frame. -/
def Op.closes (o : Op) : Bool := o = .movReg .rsp .rbp || o = .popReg .rbp

namespace Instr

/-- Instructions that are executed after the stack has gone back to the base of the frame. -/
def isClosing : Instr Label → Bool
  | .op o => o = .popReg .rbp
  | .ret => true
  | _ => false

/-- Instructions that are always followed by the next one in the text and leave the frame open. -/
def isPlain : Instr Label → Bool
  | .op o => !o.closes
  | .call _ => true
  | _ => false

/-- Where a branch goes. -/
def branch? : Instr Label → Option Label
  | .jump l | .jumpIf _ l => some l
  | _ => none

/-- The effect of an instruction on the depth is known. -/
def IsTracked : Instr Label → Prop
  | .op o => ∀ depth, (o.depthAfter? depth).isSome
  | .jump l | .jumpIf _ l => ∃ n, l = .index n
  | .call _ | .ret => True

end Instr

/-! ## Paths -/

namespace Lowering

/-- One step of control in code whose first instruction has index `start`. -/
inductive Step (start : Nat) (code : LabelledCode) : Nat × Int → Nat × Int → Prop
  | op {k : Nat} {o : Op} {d d' : Int} (hk : code[k]? = some (.op o))
      (hd : o.depthAfter? d = some d') : Step start code (start + k, d) (start + k + 1, d')
  | call {k : Nat} {label : Label} {d : Int} (hk : code[k]? = some (.call label)) :
      Step start code (start + k, d) (start + k + 1, d)
  | jump {k n : Nat} {d : Int} (hk : code[k]? = some (.jump (.index n))) :
      Step start code (start + k, d) (n, d)
  | taken {k n : Nat} {cond : Cond} {d : Int} (hk : code[k]? = some (.jumpIf cond (.index n))) :
      Step start code (start + k, d) (n, d)
  | passed {k n : Nat} {cond : Cond} {d : Int} (hk : code[k]? = some (.jumpIf cond (.index n))) :
      Step start code (start + k, d) (start + k + 1, d)

/-- A path through code, from one index and depth to another. -/
abbrev Path (start : Nat) (code : LabelledCode) : Nat × Int → Nat × Int → Prop :=
  Relation.ReflTransGen (Step start code)

/-! ## Reading code once -/

/-- The depth at an instruction, and the one that holds outside of code that closes the frame. -/
structure Level where
  depth : Int
  outside : Int

variable {others : LabelledCode} {d e d' : Int} {i : Instr Label} {k : Nat}

namespace Level

/-- The level behind an instruction in the text. What stands behind a return is reached by other
ways only, so there the depth is as if the frame had not been closed. -/
def next (l : Level) : Instr Label → Level
  | .op o =>
    let depth := (o.depthAfter? l.depth).getD l.depth
    ⟨depth, if o.closes then l.outside else depth⟩
  | .ret => ⟨l.outside, l.outside⟩
  | .jump _ | .jumpIf _ _ | .call _ => l

/-- The level behind code. -/
def after (d : Int) (code : LabelledCode) : Level := code.foldl next ⟨d, d⟩

theorem after_append {code : LabelledCode} (h : after d code = ⟨d', d'⟩) :
    after d (code ++ others) = after d' others := by
  rw [after, foldl_append, show code.foldl next ⟨d, d⟩ = _ from h]
  rfl

end Level

/-- The depth in front of the instruction with an index. -/
def depthAt (d : Int) (code : LabelledCode) (k : Nat) : Int := (Level.after d (code.take k)).depth

theorem depthAt_zero (d : Int) (code : LabelledCode) : depthAt d code 0 = d := rfl

theorem depthAt_length {code : LabelledCode} (h : Level.after d code = ⟨d', d'⟩) :
    depthAt d code code.length = d' := by
  rw [depthAt, take_length, h]

theorem depthAt_append_left {code : LabelledCode} (others : LabelledCode) (hk : k ≤ code.length) :
    depthAt d (code ++ others) k = depthAt d code k := by
  rw [depthAt, take_append_of_le_length hk, depthAt]

theorem depthAt_append_right {code : LabelledCode} (h : Level.after d code = ⟨d', d'⟩) (k : Nat) :
    depthAt d (code ++ others) (code.length + k) = depthAt d' others k := by
  rw [depthAt, take_length_add_append, Level.after_append h, depthAt]

theorem depthAt_succ {code : LabelledCode} (hk : code[k]? = some i) :
    depthAt d code (k + 1) = ((Level.after d (code.take k)).next i).depth := by
  rw [depthAt, take_add_one, hk]
  exact congrArg Level.depth (foldl_append ..)

/-- What holds of code that is read from depth `d` to depth `d'`: no instruction changes the depth
in an unknown way, before the frame is closed the depth is never less than `low`, it is `-1` at a
return, and each branch goes to an instruction with its own depth or to a mark. -/
structure Tracks (marks : List (Nat × Int)) (low : Int) (start : Nat) (code : LabelledCode)
    (d d' : Int) : Prop where
  level : Level.after d code = ⟨d', d'⟩
  tracked : ∀ i ∈ code, i.IsTracked
  above : ∀ k i, code[k]? = some i → low ≤ depthAt d code k ∨ i.isClosing
  returns : ∀ k, code[k]? = some .ret → depthAt d code k = -1
  branches : ∀ k i n, code[k]? = some i → i.branch? = some (.index n) →
    (n, depthAt d code k) ∈ marks ∨
      start ≤ n ∧ n ≤ start + code.length ∧ depthAt d code (n - start) = depthAt d code k

namespace Tracks

variable {marks : List (Nat × Int)} {low : Int} {start : Nat} {code : LabelledCode} {d d' : Int}

/-- Code that stands behind other code goes on from the depth that is reached there. -/
theorem append {code : LabelledCode} {d'' : Int} (h : Tracks marks low start code d d')
    (h' : Tracks marks low (start + code.length) others d' d'') :
    Tracks marks low start (code ++ others) d d'' := by
  -- The index of an instruction lies in the first part or in the second one.
  have hsplit : ∀ k i, (code ++ others)[k]? = some i →
      (k < code.length ∧ code[k]? = some i ∧ depthAt d (code ++ others) k = depthAt d code k) ∨
        ∃ j, k = code.length + j ∧ others[j]? = some i ∧
          depthAt d (code ++ others) k = depthAt d' others j := by
    intro k i hk
    by_cases hlt : k < code.length
    · rw [getElem?_append_left hlt] at hk
      exact .inl ⟨hlt, hk, depthAt_append_left others (Nat.le_of_lt hlt)⟩
    · have hle : code.length ≤ k := Nat.le_of_not_lt hlt
      rw [getElem?_append_right hle] at hk
      have heq : k = code.length + (k - code.length) := by omega
      refine .inr ⟨k - code.length, heq, hk, ?_⟩
      rw [← depthAt_append_right h.level (k - code.length), ← heq]
  refine ⟨?_, ?_, ?_, ?_, ?_⟩
  · rw [Level.after_append h.level, h'.level]
  · exact forall_mem_append.mpr ⟨h.tracked, h'.tracked⟩
  · intro k i hk
    rcases hsplit k i hk with ⟨-, hi, hd⟩ | ⟨j, -, hi, hd⟩
    · rw [hd]
      exact h.above k i hi
    · rw [hd]
      exact h'.above j i hi
  · intro k hk
    rcases hsplit k _ hk with ⟨-, hi, hd⟩ | ⟨j, -, hi, hd⟩
    · rw [hd, h.returns k hi]
    · rw [hd, h'.returns j hi]
  · intro k i n hk hn
    rw [length_append]
    rcases hsplit k i hk with ⟨-, hi, hd⟩ | ⟨j, -, hi, hd⟩
    · rw [hd]
      rcases h.branches k i n hi hn with hmark | ⟨hstart, _, hsame⟩
      · exact .inl hmark
      · rw [depthAt_append_left others (by omega), hsame]
        exact .inr ⟨hstart, by omega, rfl⟩
    · rw [hd]
      rcases h'.branches j i n hi hn with hmark | ⟨_, _, hsame⟩
      · exact .inl hmark
      · -- The second part counts from the end of the first one.
        have heq : n - start = code.length + (n - (start + code.length)) := by omega
        rw [heq, depthAt_append_right h.level, hsame]
        exact .inr ⟨by omega, by omega, rfl⟩

variable {n : Nat}

/-- A mark is not needed any more when the place that it is for has been read. -/
theorem resolve {front back : LabelledCode} (h : Tracks ((n, e) :: marks) low start code d d')
    (hcode : code = front ++ back) (hn : n = start + front.length)
    (he : Level.after d front = ⟨e, e⟩) :
    Tracks marks low start code d d' := by
  refine ⟨h.level, h.tracked, h.above, h.returns, ?_⟩
  intro k i t hk ht
  rcases h.branches k i t hk ht with hmark | hinside
  · rcases mem_cons.mp hmark with heq | hmark
    · -- A branch to the mark leads to the instruction behind the front, where the depth is that of
      -- the mark.
      obtain ⟨rfl, hd⟩ := Prod.mk.inj heq
      have hplace : depthAt d code (t - start) = e := by
        rw [hn, Nat.add_sub_cancel_left, hcode, depthAt_append_left back (Nat.le_refl _),
          depthAt_length he]
      have hlength : code.length = front.length + back.length := by
        rw [hcode, length_append]
      exact .inr ⟨by omega, by omega, hplace.trans hd.symm⟩
    · exact .inl hmark
  · exact .inr hinside

theorem mono {low' : Int} {marks' : List (Nat × Int)} (h : Tracks marks low start code d d')
    (hlow : low' ≤ low) (hmarks : marks ⊆ marks') : Tracks marks' low' start code d d' := by
  refine ⟨h.level, h.tracked, ?_, h.returns, ?_⟩
  · intro k i hk
    exact (h.above k i hk).imp_left hlow.trans
  · intro k i n hk hn
    exact (h.branches k i n hk hn).imp_left (hmarks ·)

/-- Code that keeps above the depth that it begins with may stand behind any other code. -/
theorem append_above {code : LabelledCode} {d'' : Int} (h : Tracks marks low start code d d')
    (h' : Tracks marks d' (start + code.length) others d' d'') (hlow : low ≤ d') :
    Tracks marks low start (code ++ others) d d'' :=
  h.append (h'.mono hlow (List.Subset.refl marks))

/-! ### Single instructions -/

theorem nil : Tracks marks low start [] d d := by
  refine ⟨rfl, nofun, ?_, ?_, ?_⟩
  all_goals
    intros
    contradiction

/-- An instruction by itself. -/
theorem single (hlevel : (Level.mk d d).next i = ⟨d', d'⟩) (htracked : i.IsTracked) (hlow : low ≤ d)
    (hret : i ≠ .ret) (hbranch : ∀ n, i.branch? = some (.index n) → (n, d) ∈ marks) :
    Tracks marks low start [i] d d' := by
  -- The only index is zero.
  have hk : ∀ k j, [i][k]? = some j → k = 0 ∧ j = i := by
    intro k j hk
    cases k with
    | zero => exact ⟨rfl, (Option.some.inj hk).symm⟩
    | succ => cases hk
  refine ⟨hlevel, ?_, ?_, ?_, ?_⟩
  · intro j hj
    rw [mem_singleton.mp hj]
    exact htracked
  · intro k j hj
    obtain ⟨rfl, -⟩ := hk k j hj
    exact .inl hlow
  · intro k hj
    exact absurd (hk k _ hj).2.symm hret
  · intro k j n hj hn
    obtain ⟨rfl, rfl⟩ := hk k j hj
    exact .inl (hbranch n hn)

theorem call (label : Label) (hlow : low ≤ d) : Tracks marks low start [.call label] d d :=
  single rfl trivial hlow (by simp) (fun _ hn => by cases hn)

theorem jump (hlow : low ≤ d) (hmark : (n, d) ∈ marks) :
    Tracks marks low start [.jump (.index n)] d d :=
  single rfl ⟨n, rfl⟩ hlow (by simp) (fun _ hn => by cases hn; exact hmark)

theorem jumpIf {cond : Cond} (hlow : low ≤ d) (hmark : (n, d) ∈ marks) :
    Tracks marks low start [.jumpIf cond (.index n)] d d :=
  single rfl ⟨n, rfl⟩ hlow (by simp) (fun _ hn => by cases hn; exact hmark)

/-- Code that is passed over if a condition holds. -/
theorem guarded {condition body : LabelledCode} (hcondition : Tracks marks d start condition d d)
    (cond : Cond) (hbody : Tracks marks d (start + condition.length + 1) body d d)
    (hmark : (n, d) ∈ marks) :
    Tracks marks d start (condition ++ [.jumpIf cond (.index n)] ++ body) d d := by
  refine (hcondition.append (jumpIf (Int.le_refl d) hmark)).append ?_
  rw [length_append, length_singleton, ← Nat.add_assoc]
  exact hbody

/-- Code that closes the frame. What stands behind it is not reached from it. -/
theorem leave (hlow : low ≤ d) : Tracks marks low start Routine.leave d d := by
  refine ⟨rfl, ?_, ?_, ?_, ?_⟩
  · intro i hi
    simp only [Routine.leave, Instr.ops, map_cons, map_nil, cons_append,
      nil_append, mem_cons, not_mem_nil, or_false] at hi
    rcases hi with rfl | rfl | rfl
    · exact fun _ => rfl
    · exact fun _ => rfl
    · trivial
  · intro k _ hk
    -- Only the first of the three instructions is executed while the frame is open.
    match k, hk with
    | 0, _ => exact .inl hlow
    | 1, hk => cases hk; exact .inr rfl
    | 2, hk => cases hk; exact .inr rfl
  · intro k hk
    match k, hk with
    | 2, _ => rfl
  · intro k _ _ hk hn
    match k, hk with
    | 0, hk | 1, hk | 2, hk => cases hk; cases hn

end Tracks

/-! ### Straight code -/

/-- Code without branches and returns, which is read the same way wherever it stands. -/
structure Straight (low : Int) (code : LabelledCode) (d d' : Int) : Prop where
  tracks : ∀ marks start, Tracks marks low start code d d'
  plain : ∀ i ∈ code, i.isPlain

namespace Straight

variable {low : Int} {code others : LabelledCode} {d d' d'' : Int}

theorem append (h : Straight low code d d') (h' : Straight low others d' d'') :
    Straight low (code ++ others) d d'' :=
  ⟨fun marks start => (h.tracks marks start).append (h'.tracks marks _),
    forall_mem_append.mpr ⟨h.plain, h'.plain⟩⟩

theorem append_above (h : Straight low code d d') (h' : Straight d' others d' d'')
    (hlow : low ≤ d') : Straight low (code ++ others) d d'' :=
  ⟨fun marks start => (h.tracks marks start).append_above (h'.tracks marks _) hlow,
    forall_mem_append.mpr ⟨h.plain, h'.plain⟩⟩

theorem nil : Straight low [] d d := ⟨fun _ _ => .nil, nofun⟩

theorem call (label : Label) (hlow : low ≤ d) : Straight low [.call label] d d := by
  refine ⟨fun _ _ => .call label hlow, ?_⟩
  intro _ hi
  rw [mem_singleton.mp hi]
  rfl

end Straight

/-- The number of words above a limit that operations leave there when they begin with `n`, if
they never go below the limit and do not close the frame. -/
def Op.walk? (n : Int) : List Op → Option Int
  | [] => some n
  | o :: os =>
    if 0 ≤ n ∧ o.closes = false then o.depthChange?.bind fun change =>
      walk? (n + change) os else none

/-- Operations that keep above a limit. -/
theorem Straight.ops {os : List Op} {low : Int} (n m : Int) (h : Op.walk? n os = some m)
    (hd : d = low + n) (hd' : d' = low + m) : Straight low (Instr.ops os) d d' := by
  subst hd hd'
  -- The first operation moves both levels by its change, and the others go on from there.
  induction os generalizing n with
  | nil =>
    cases h
    exact .nil
  | cons o _ ih =>
    rw [Op.walk?] at h
    split at h
    next hn =>
      obtain ⟨change, hchange, h⟩ := Option.bind_eq_some_iff.mp h
      have hmove : o ≠ .movReg .rsp .rbp := by
        rintro rfl
        cases hn.2
      have hafter : ∀ depth, o.depthAfter? depth = some (depth + change) := by
        intro _
        rw [Op.depthAfter?, if_neg hmove, hchange]
        rfl
      have hnext : (Level.mk (low + n) (low + n)).next (.op o) =
          ⟨low + (n + change), low + (n + change)⟩ := by
        simp [Level.next, hafter, hn.2, Int.add_assoc]
      have hfirst : Straight low [.op o] (low + n) (low + (n + change)) := by
        refine ⟨fun _ _ => .single hnext ?_ (by omega) (by simp) (fun _ ht => by cases ht), ?_⟩
        · intro _
          rw [hafter]
          rfl
        · intro _ hi
          rw [mem_singleton.mp hi, Instr.isPlain, hn.2]
          rfl
      exact hfirst.append (ih _ h)
    next => cases h

/-! ## All paths -/

section

variable {low : Int} {start : Nat} {code : LabelledCode} {d d' : Int}

/-- A place inside of the code or right behind it, with the depth that has been read off there. -/
def ReadAt (start : Nat) (code : LabelledCode) (d : Int) (x : Nat × Int) : Prop :=
  ∃ k ≤ code.length, x = (start + k, depthAt d code k)

/-- One step leads from a place with its depth to another one. -/
theorem Tracks.readAt_of_step (h : Tracks [] low start code d d') {x y : Nat × Int}
    (hx : ReadAt start code d x) (hstep : Step start code x y) : ReadAt start code d y := by
  obtain ⟨j, -, hx⟩ := hx
  -- Behind an instruction that does not branch there is the next one.
  have hnext : ∀ i, code[j]? = some i → j + 1 ≤ code.length := by
    intro i hi
    exact (List.getElem?_eq_some_iff.mp hi).1
  have hbranch : ∀ i n, code[j]? = some i → i.branch? = some (.index n) →
      ReadAt start code d (n, depthAt d code j) := by
    intro i n hi hn
    -- There are no marks, so the branch stays inside of the code.
    rcases h.branches j i n hi hn with hmark | ⟨hstart, _, hsame⟩
    · cases hmark
    · refine ⟨n - start, by omega, ?_⟩
      rw [hsame, Nat.add_sub_cancel' hstart]
  cases hstep with
  | @op k o e e' hk hd =>
    obtain ⟨hkj, rfl⟩ := Prod.mk.inj hx
    cases Nat.add_left_cancel hkj
    refine ⟨j + 1, hnext _ hk, ?_⟩
    have hdepth : depthAt d code (j + 1) = e' := by
      rw [depthAt_succ hk]
      show (o.depthAfter? (depthAt d code j)).getD _ = e'
      rw [hd]
      rfl
    rw [hdepth, Nat.add_assoc]
  | call hk | passed hk =>
    obtain ⟨hkj, rfl⟩ := Prod.mk.inj hx
    cases Nat.add_left_cancel hkj
    refine ⟨j + 1, hnext _ hk, ?_⟩
    rw [depthAt_succ hk, Nat.add_assoc]
    rfl
  | jump hk | taken hk =>
    obtain ⟨hkj, rfl⟩ := Prod.mk.inj hx
    cases Nat.add_left_cancel hkj
    exact hbranch _ _ hk rfl

/-- Every path keeps to the depth that has been read off the code. -/
theorem Tracks.readAt_of_path (h : Tracks [] low start code d d') {x y : Nat × Int}
    (hx : ReadAt start code d x) (hpath : Path start code x y) : ReadAt start code d y := by
  induction hpath with
  | refl => exact hx
  | tail _ hstep ih => exact h.readAt_of_step ih hstep

/-- What holds of all paths through code that begin with depth `d`: they keep inside of the code
until they leave it behind its last instruction, with depth `d'`; they only end there and at a
return, where the return address is on top; two that meet have the same depth; and until the frame
is closed the depth is never less than `d`. -/
structure Disciplined (start : Nat) (code : LabelledCode) (d d' : Int) : Prop where
  inside : ∀ k e, Path start code (start, d) (k, e) → start ≤ k ∧ k ≤ start + code.length
  leaves : ∀ e, Path start code (start, d) (start + code.length, e) → e = d'
  goes_on : ∀ k e i, Path start code (start, d) (start + k, e) → code[k]? = some i →
    i = .ret ∧ e = -1 ∨ ∃ y, Step start code (start + k, e) y
  meets : ∀ k e e', Path start code (start, d) (k, e) → Path start code (start, d) (k, e') → e = e'
  above : ∀ k e, Path start code (start, d) (start + k, e) →
    d ≤ e ∨ ∃ i, code[k]? = some i ∧ i.isClosing

theorem Step.exists_of_tracked (hk : code[k]? = some i) (hi : i.IsTracked) (hret : i ≠ .ret) :
    ∃ y, Step start code (start + k, e) y := by
  cases i with
  | op =>
    obtain ⟨_, he⟩ := Option.isSome_iff_exists.mp (hi e)
    exact ⟨_, .op hk he⟩
  | jump =>
    obtain ⟨_, rfl⟩ := hi
    exact ⟨_, .jump hk⟩
  | jumpIf =>
    obtain ⟨_, rfl⟩ := hi
    exact ⟨_, .taken hk⟩
  | call => exact ⟨_, .call hk⟩
  | ret => exact absurd rfl hret

/-- What is read off the code once holds along all paths. -/
theorem Tracks.disciplined (h : Tracks [] d start code d d') (hle : d ≤ d') :
    Disciplined start code d d' := by
  -- A path begins where the reading does, so at every place it has the depth that is read there.
  have hread : ∀ x, Path start code (start, d) x → ReadAt start code d x := fun x =>
    h.readAt_of_path ⟨0, Nat.zero_le _, by rw [depthAt_zero, Nat.add_zero]⟩
  have hdepth : ∀ k e, Path start code (start, d) (start + k, e) →
      k ≤ code.length ∧ e = depthAt d code k := by
    intro k e hpath
    obtain ⟨_, hj, hx⟩ := hread _ hpath
    obtain ⟨hkj, rfl⟩ := Prod.mk.inj hx
    cases Nat.add_left_cancel hkj
    exact ⟨hj, rfl⟩
  refine ⟨?_, ?_, ?_, ?_, ?_⟩
  · intro k e hpath
    obtain ⟨_, hj, hx⟩ := hread _ hpath
    obtain ⟨rfl, -⟩ := Prod.mk.inj hx
    exact ⟨Nat.le_add_right _ _, Nat.add_le_add_left hj _⟩
  · intro e hpath
    rw [(hdepth _ e hpath).2, depthAt_length h.level]
  · intro k e i hpath hk
    by_cases hret : i = .ret
    · subst hret
      exact .inl ⟨rfl, (hdepth k e hpath).2.trans (h.returns k hk)⟩
    · exact .inr (Step.exists_of_tracked hk (h.tracked i (mem_of_getElem? hk)) hret)
  · intro k e e' hpath hpath'
    obtain ⟨j, -, hx⟩ := hread _ hpath
    obtain ⟨rfl, rfl⟩ := Prod.mk.inj hx
    exact (hdepth j e' hpath').2.symm
  · intro k e hpath
    obtain ⟨_, rfl⟩ := hdepth k e hpath
    -- Behind the last instruction there is none that could close the frame.
    by_cases hk : k = code.length
    · rw [hk, depthAt_length h.level]
      exact .inl hle
    · obtain ⟨i, hi⟩ : ∃ i, code[k]? = some i := ⟨_, getElem?_eq_getElem (by omega)⟩
      exact (h.above k i hi).imp_right fun hclosing => ⟨i, hi, hclosing⟩

/-- A path that comes to a place behind a piece of the code has the depth that is read there. -/
theorem Tracks.depth_of_path (h : Tracks [] low start code d d') {front back : LabelledCode}
    (hcode : code = front ++ back) {e' : Int} (hlevel : Level.after d front = ⟨e, e⟩)
    (hpath : Path start code (start, d) (start + front.length, e')) : e' = e := by
  obtain ⟨_, -, hx⟩ := h.readAt_of_path ⟨0, Nat.zero_le _, by rw [depthAt_zero, Nat.add_zero]⟩ hpath
  obtain ⟨hk, rfl⟩ := Prod.mk.inj hx
  cases Nat.add_left_cancel hk
  rw [hcode, depthAt_append_left back (Nat.le_refl _), depthAt_length hlevel]

/-- Straight code is gone through from its beginning to its end. -/
theorem Straight.path (h : Straight low code d d') (start : Nat) :
    Path start code (start, d) (start + code.length, d') := by
  have htracks := h.tracks [] start
  -- Every instruction hands control to the next one, so the induction is on the index.
  have hreach : ∀ k ≤ code.length, Path start code (start, d) (start + k, depthAt d code k) := by
    intro k _
    induction k with
    | zero => exact .refl
    | succ k ih =>
      obtain ⟨i, hi⟩ : ∃ i, code[k]? = some i := ⟨_, getElem?_eq_getElem (by omega)⟩
      have hmem := mem_of_getElem? hi
      refine (ih (by omega)).tail ?_
      cases i with
      | op o =>
        obtain ⟨e, he⟩ := Option.isSome_iff_exists.mp (htracks.tracked _ hmem (depthAt d code k))
        have hnext : depthAt d code (k + 1) = e := by
          rw [depthAt_succ hi]
          show (o.depthAfter? (depthAt d code k)).getD _ = e
          rw [he]
          rfl
        rw [hnext]
        exact .op hi he
      | call =>
        rw [depthAt_succ hi]
        exact .call hi
      | jump | jumpIf | ret => cases h.plain _ hmem
  have hlast := hreach code.length (Nat.le_refl _)
  rwa [depthAt_length htracks.level] at hlast

/-- Straight code never goes below the depth that it begins with. -/
theorem Straight.le_of_path (h : Straight d code d d') (hle : d ≤ d')
    (hpath : Path start code (start, d) (k, e)) : d ≤ e := by
  have hdisciplined := (h.tracks [] start).disciplined hle
  obtain ⟨j, rfl⟩ := Nat.exists_eq_add_of_le (hdisciplined.inside k e hpath).1
  rcases hdisciplined.above j e hpath with hle | ⟨i, hi, hclosing⟩
  · exact hle
  · -- An instruction that closes the frame is not plain.
    have hplain := h.plain i (mem_of_getElem? hi)
    cases i with
    | op =>
      cases of_decide_eq_true hclosing
      cases hplain
    | call => cases hclosing
    | jump | jumpIf | ret => cases hplain

/-- Paths through code that ends with a return do not come to its end. -/
theorem Tracks.lt_of_path (h : Tracks [] low start code d d')
    (hpath : Path start (code ++ Routine.leave) (start, d) (k, e)) :
    k < start + (code ++ Routine.leave).length := by
  -- The only instruction of the last three that has no successor is the last one.
  have hplace : ∀ (j : Nat) (i : Instr Label), (code ++ Routine.leave)[j]? = some i → i ≠ .ret →
      j ≤ code.length + 1 ∧ (i.branch? ≠ none → code[j]? = some i) := by
    intro j i hj hret
    by_cases hlt : j < code.length
    · rw [getElem?_append_left hlt] at hj
      exact ⟨by omega, fun _ => hj⟩
    · rw [getElem?_append_right (Nat.le_of_not_lt hlt)] at hj
      match hsub : j - code.length, hj with
      | 0, hj | 1, hj =>
        cases hj
        exact ⟨by omega, fun hbranch => absurd rfl hbranch⟩
      | 2, hj =>
        cases hj
        exact absurd rfl hret
  have hstep : ∀ x y, Step start (code ++ Routine.leave) x y → y.1 ≤ start + (code.length + 2) := by
    -- A branch is part of the code in front, and leads at most to the end of it.
    have hbranch : ∀ (j : Nat) (i : Instr Label) n, (code ++ Routine.leave)[j]? = some i →
        i.branch? = some (.index n) → n ≤ start + (code.length + 2) := by
      intro j i n hj hn
      have hret : i ≠ .ret := by
        rintro rfl
        cases hn
      have hown := (hplace j i hj hret).2 (by rw [hn]; simp)
      rcases h.branches j i n hown hn with hmark | ⟨-, _, -⟩
      · cases hmark
      · omega
    intro _ _ hxy
    cases hxy with
    | op hk _ | call hk | passed hk =>
      have hle := (hplace _ _ hk (by simp)).1
      show start + _ + 1 ≤ _
      omega
    | jump hk | taken hk => exact hbranch _ _ _ hk rfl
  rw [length_append]
  show k < start + (code.length + 3)
  cases hpath with
  | refl => omega
  | tail _ hlast =>
    have hle := hstep _ _ hlast
    omega

end

end Lowering

end MiniJava
