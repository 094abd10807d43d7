import MiniJava.Proofs.Preservation.Words

/-!
# Operators on words

What the code of an operator computes in registers, and that it is the word of the
value that the operator has. Nothing but registers changes on the way (`View.Agrees`),
so an operator on the stack is its operands popped, the computation, and its result
pushed (`moves_unary`, `moves_binary`).

Objects and arrays are the same if their addresses are, since blocks have different
addresses and none of them is zero (`encode_eq_iff`).
-/

namespace MiniJava

namespace Preservation

open Semantics Execution

/-! ## Words of values -/

theorem size_pos (table : ClassTable) (block : Block) : 0 < block.size table := by
  cases block with
  | object => exact Nat.lt_of_lt_of_le Nat.zero_lt_one (Nat.le_max_right _ _)
  | array => exact Nat.succ_pos _

section

variable {L : Layout} {table : ClassTable} {st : State}

section

variable (hfit : L.Fits (st.sizes table))
include hfit

/-- The address of a block is a word other than zero. -/
theorem place_bounds {k : Nat} (hk : k < st.heap.length) : 0 < L.place k ∧ L.place k < 2 ^ 64 := by
  have hget : (st.sizes table)[k]? = some ((st.heap[k]).size table) := by
    rw [State.sizes, List.getElem?_map, List.getElem?_eq_getElem hk]
    rfl
  have hinside := hfit.inside k _ hget
  have hpos := size_pos table st.heap[k]
  omega

/-- Blocks have different addresses. -/
theorem place_inj {j k : Nat} (hj : j < st.heap.length) (hk : k < st.heap.length)
    (h : L.place j = L.place k) : j = k := by
  have hget : ∀ i (hi : i < st.heap.length), (st.sizes table)[i]? =
      some ((st.heap[i]).size table) := by
    intro _ hi
    rw [State.sizes, List.getElem?_map, List.getElem?_eq_getElem hi]
    rfl
  by_cases hjk : j = k
  · exact hjk
  · have hapart := hfit.apart j k _ _ (hget j hj) (hget k hk) hjk
    have hpos := size_pos table st.heap[j]
    have hpos' := size_pos table st.heap[k]
    omega

theorem toNat_place {k : Nat} (hk : k < st.heap.length) :
    (BitVec.ofNat 64 (L.place k)).toNat = L.place k := by
  rw [BitVec.toNat_ofNat, Nat.mod_eq_of_lt (place_bounds hfit hk).2]

theorem place_ne_null {k : Nat} (hk : k < st.heap.length) : BitVec.ofNat 64 (L.place k) ≠ 0#64 := by
  intro hzero
  have hnat := toNat_place hfit hk
  rw [hzero, BitVec.toNat_zero] at hnat
  exact absurd hnat.symm (Nat.ne_of_gt (place_bounds hfit hk).1)

/-- Values are the same if their words are. -/
theorem encode_eq_iff {a b : Value} (ha : a.Within st.heap.length) (hb : b.Within st.heap.length)
    {same : Bool} (h : sameValue a b = .ok same) : decide (encode L a = encode L b) = same := by
  cases a with
  | int =>
    cases b with
    | int =>
      cases h
      exact decide_eq_decide.mpr Int64.toBitVec_inj
    | bool _ | null | ref _ => cases h
  | bool p =>
    cases b with
    | bool q =>
      cases h
      cases p <;> cases q <;> rfl
    | int _ | null | ref _ => cases h
  | null =>
    cases b with
    | null => cases h; exact decide_eq_true rfl
    | ref =>
      cases h
      exact decide_eq_false fun heq => place_ne_null hfit hb heq.symm
    | int _ | bool _ => cases h
  | ref =>
    cases b with
    | null =>
      cases h
      exact decide_eq_false fun heq => place_ne_null hfit ha heq
    | ref =>
      cases h
      -- Two places of the heap have the same address only if they are the same.
      refine decide_eq_decide.mpr ⟨fun heq => ?_, fun heq => by rw [heq]⟩
      have hnat := congrArg BitVec.toNat heq
      rw [encode, encode, toNat_place hfit ha, toNat_place hfit hb] at hnat
      exact place_inj hfit ha hb hnat
    | int _ | bool _ => cases h

end

end

/-! ## Division -/

/-- A word with its sign in front is the same number. -/
theorem toInt_sign_append (w : Word) :
    ((if w.msb then (-1 : Word) else 0) ++ w).toInt = w.toInt := by
  have hlt := w.isLt
  rw [BitVec.toInt_append, if_neg (by decide), BitVec.msb_eq_decide, BitVec.toInt_eq_toNat_cond w]
  split
  next h =>
    rw [decide_eq_true_iff] at h
    rw [if_neg (by omega)]
    show 2 ^ 64 * -1 + (w.toNat : Int) = _
    omega
  next h =>
    rw [decide_eq_true_iff] at h
    rw [if_pos (by omega)]
    show 2 ^ 64 * 0 + (w.toNat : Int) = _
    omega

/-- A quotient fits into a word unless the least number is divided by minus one. -/
theorem tdiv_bounds {a b : Int} (ha : -2 ^ 63 ≤ a) (ha' : a < 2 ^ 63) (hb : b ≠ 0)
    (h : ¬ (a = -2 ^ 63 ∧ b = -1)) : -2 ^ 63 ≤ a.tdiv b ∧ a.tdiv b < 2 ^ 63 := by
  have habs : (a.tdiv b).natAbs = a.natAbs / b.natAbs := Int.natAbs_tdiv a b
  have hle : a.natAbs / b.natAbs ≤ a.natAbs := Nat.div_le_self _ _
  refine ⟨by omega, ?_⟩
  by_cases hone : b.natAbs = 1
  · rcases Int.natAbs_eq_iff.mp hone with rfl | rfl
    · simpa using ha'
    · rw [show (-(1 : Nat) : Int) = -1 from rfl, Int.tdiv_neg, Int.tdiv_one]
      have : a ≠ -2 ^ 63 := fun heq => h ⟨heq, rfl⟩
      omega
  · have hhalf : a.natAbs / b.natAbs ≤ a.natAbs / 2 := Nat.div_le_div_left (by omega) (by omega)
    omega

/-- The machine divides as the language does. -/
theorem signedDivide?_of_quotient {a b q : Int64} (h : quotient a b = .ok q) :
    ∃ rest, signedDivide? (if a.toBitVec.msb then -1 else 0) a.toBitVec b.toBitVec =
      some (q.toBitVec, rest) := by
  unfold quotient at h
  split at h
  next => cases h
  next hb =>
    split at h
    next => cases h
    next hover =>
      cases h
      have hdividend : ((if a.toBitVec.msb then (-1 : Word) else 0) ++ a.toBitVec).toInt =
          a.toInt :=
        toInt_sign_append a.toBitVec
      have hne : b.toInt ≠ 0 := fun hzero => hb (Int64.toInt_inj.mp hzero)
      have hbounds := tdiv_bounds a.le_toInt a.toInt_lt hne fun ⟨hmin, hone⟩ =>
        hover ⟨Int64.toInt_inj.mp hmin, Int64.toInt_inj.mp hone⟩
      refine ⟨BitVec.ofInt 64 (a.toInt.tmod b.toInt), ?_⟩
      simp only [signedDivide?, hdividend]
      -- The processor divides unless the divisor is zero or the quotient too large, and neither is
      -- so.
      rw [if_neg]
      · rfl
      · rintro (hzero | hlow | hhigh)
        · exact hb (Int64.toBitVec_inj.mp hzero)
        · exact absurd hbounds.1 (Int.not_le.mpr hlow)
        · exact absurd hbounds.2 (Int.not_lt.mpr hhigh)

/-! ## Computing in registers -/

/-- Two views differ in nothing but registers that may be used freely. -/
structure Agrees (v v' : View) : Prop where
  stack : v'.stack = v.stack
  heap : v'.heap = v.heap
  output : v'.output = v.output
  rbp : v'.regs .rbp = v.regs .rbp
  r15 : v'.regs .r15 = v.regs .r15

theorem Agrees.trans {v v' v'' : View} (h : Agrees v v') (h' : Agrees v' v'') : Agrees v v'' :=
  ⟨h'.stack.trans h.stack, h'.heap.trans h.heap, h'.output.trans h.output, h'.rbp.trans h.rbp,
    h'.r15.trans h.r15⟩

theorem agrees_set (v : View) {r : Reg} (hrbp : r ≠ .rbp) (hr15 : r ≠ .r15) (w : Word) :
    Agrees v (v.set r w) :=
  ⟨rfl, rfl, rfl, if_neg hrbp.symm, if_neg hr15.symm⟩

theorem agrees_flags (v : View) (flags : Option Flags) : Agrees v { v with flags := flags } :=
  ⟨rfl, rfl, rfl, rfl, rfl⟩

/-- The operations of a unary operator. -/
def unaryOps : UnaryOp → List Op
  | .neg => [.neg .rax]
  | .not => [.aluImm .xor .rax 1]

/-- The operations of a comparison. -/
def compareOps (cond : Cond) : List Op :=
  [.alu .cmp .rax .rcx, .setcc cond .rax, .movzxByte .rax .rax]

/-- The operations of a binary operator. -/
def binaryOps : BinaryOp → List Op
  | .add => [.alu .add .rax .rcx]
  | .sub => [.alu .sub .rax .rcx]
  | .and => [.alu .and .rax .rcx]
  | .or => [.alu .or .rax .rcx]
  | .mul => [.imul .rax .rcx]
  | .div => [.cqo, .idiv .rcx]
  | .equal => compareOps .equal
  | .notEqual => compareOps .notEqual
  | .less => compareOps .less
  | .lessEq => compareOps .lessEq
  | .greater => compareOps .greater
  | .greaterEq => compareOps .greaterEq

theorem unaryCode_eq (op : UnaryOp) : Lowering.unaryCode op = Instr.ops (unaryOps op) := by
  cases op <;> rfl

theorem binaryCode_eq (op : BinaryOp) : Lowering.binaryCode op = Instr.ops (binaryOps op) := by
  cases op <;> rfl

/-- Operations that leave a word in `rax` and change nothing else that matters. -/
def Computes (P : Loaded) (os : List Op) (v : View) (w : Word) : Prop :=
  ∃ v', P.DoesAll os v v' ∧ v'.regs .rax = w ∧ Agrees v v'

section

variable {P : Loaded} {v : View}

theorem boolWord_not (b : Bool) : boolWord b ^^^ immediate 1 = boolWord (!b) := by
  cases b <;> decide

theorem boolWord_and (a b : Bool) : boolWord a &&& boolWord b = boolWord (a && b) := by
  cases a <;> cases b <;> decide

theorem boolWord_or (a b : Bool) : boolWord a ||| boolWord b = boolWord (a || b) := by
  cases a <;> cases b <;> decide

theorem lowByte_setLowByte (w : Word) (b : Bool) : setLowByte w b &&& 0xFF = boolWord b := by
  have hmask : (~~~(0xFF#64) : Word) &&& 0xFF = 0 := by decide
  have hbit : boolWord b &&& 0xFF = boolWord b := by cases b <;> decide
  show ((w &&& ~~~(0xFF#64)) ||| boolWord b) &&& 0xFF = boolWord b
  rw [BitVec.and_or_distrib_right, BitVec.and_assoc, hmask, hbit]
  exact (congrArg (· ||| boolWord b) BitVec.and_zero).trans BitVec.zero_or

theorem computes_unary {op : UnaryOp} {a r : Value} (h : unaryValue op a = .ok r)
    (hrax : v.regs .rax = encode P.layout a) :
    Computes P (unaryOps op) v (encode P.layout r) := by
  unfold unaryValue at h
  split at h
  next =>
    cases h
    refine ⟨_, .cons (does_neg (by decide)) (.nil _), ?_,
      (agrees_set v (by decide) (by decide) _).trans (agrees_flags _ _)⟩
    show 0 - v.regs .rax = _
    rw [hrax]
    exact BitVec.zero_sub _
  next b =>
    cases h
    refine ⟨_, .cons (does_aluImm (by decide) 1) (.nil _), ?_,
      (agrees_set v (by decide) (by decide) _).trans (agrees_flags _ _)⟩
    show v.regs .rax ^^^ immediate 1 = _
    rw [hrax]
    exact boolWord_not b
  next => cases h

theorem computes_compare (cond : Cond) {a b : Word} (hrax : v.regs .rax = a)
    (hrcx : v.regs .rcx = b) :
    Computes P (compareOps cond) v (boolWord (compares a b cond)) := by
  refine ⟨_, .cons (does_alu (by decide) (by decide)) (.cons (does_setcc (by decide) rfl)
    (.cons (does_movzxByte (by decide) (by decide)) (.nil _))), ?_, ?_⟩
  · subst hrax hrcx
    rw [← holds_subFlags]
    exact lowByte_setLowByte _ _
  · exact (((agrees_set v (by decide) (by decide) _).trans (agrees_flags _ _)).trans
      (agrees_set _ (by decide) (by decide) _)).trans (agrees_set _ (by decide) (by decide) _)

/-- The word of a binary operator. References must lead somewhere to be compared. -/
theorem computes_binary {table : ClassTable} {st : State}
    (hfit : P.layout.Fits (st.sizes table)) {op : BinaryOp} {a b r : Value}
    (ha : a.Within st.heap.length) (hb : b.Within st.heap.length)
    (h : binaryValue op a b = .ok r) (hrax : v.regs .rax = encode P.layout a)
    (hrcx : v.regs .rcx = encode P.layout b) :
    Computes P (binaryOps op) v (encode P.layout r) := by
  have hone : ∀ {o : Op} {result : Word × Flags} {w : Word},
      Does P.sys P.layout o v (v.setResult .rax result) → result.1 = w → Computes P [o] v w := by
    intro _ _ _ hdoes hw
    exact ⟨_, .cons hdoes (.nil _), hw,
      (agrees_set v (by decide) (by decide) _).trans (agrees_flags _ _)⟩
  have halu : ∀ op : ArithOp, Does P.sys P.layout (.alu op .rax .rcx) v
      (v.setResult .rax (arith op (encode P.layout a) (encode P.layout b))) := by
    intro _
    rw [← hrax, ← hrcx]
    exact does_alu (by decide) (by decide)
  have hcompare : ∀ (cond : Cond) {holds : Bool},
      compares (encode P.layout a) (encode P.layout b) cond = holds →
      Computes P (compareOps cond) v (encode P.layout (.bool holds)) := by
    rintro cond _ rfl
    exact computes_compare cond hrax hrcx
  unfold binaryValue at h
  split at h
  next m n => cases h; exact hone (halu .add) rfl
  next m n => cases h; exact hone (halu .sub) rfl
  next m n =>
    cases h
    refine ⟨_, .cons (does_imul (by decide) (by decide)) (.nil _), ?_,
      (agrees_set v (by decide) (by decide) _).trans (agrees_flags _ _)⟩
    show v.regs .rax * v.regs .rcx = _
    rw [hrax, hrcx]
    rfl
  next m n =>
    obtain ⟨q, hq, ⟨⟩⟩ := bind_eq_ok.mp h
    obtain ⟨rest, hdiv⟩ := signedDivide?_of_quotient hq
    -- The dividend is extended by its sign, so the division is that of two signed words.
    have hcqo : Does P.sys P.layout .cqo v
        (v.set .rdx (if m.toBitVec.msb then -1 else 0)) := by
      have hrax : v.regs .rax = m.toBitVec := hrax
      rw [← hrax]
      exact does_cqo
    have hdivide : signedDivide? (if m.toBitVec.msb then -1 else 0) (v.regs .rax) (v.regs .rcx) =
        some (q.toBitVec, rest) := by
      rw [hrax, hrcx]
      exact hdiv
    refine ⟨_, .cons hcqo (.cons (does_idiv (by decide) hdivide) (.nil _)), rfl, ?_⟩
    exact ((agrees_set v (by decide) (by decide) _).trans
      ((agrees_set _ (by decide) (by decide) _).trans
      (agrees_set _ (by decide) (by decide) _))).trans (agrees_flags _ _)
  next m n => cases h; exact hcompare .less (decide_eq_decide.mpr Int64.lt_iff_toInt_lt.symm)
  next m n => cases h; exact hcompare .lessEq (decide_eq_decide.mpr Int64.le_iff_toInt_le.symm)
  next => cases h; exact hcompare .greater (decide_eq_decide.mpr Int64.lt_iff_toInt_lt.symm)
  next => cases h; exact hcompare .greaterEq (decide_eq_decide.mpr Int64.le_iff_toInt_le.symm)
  next p q => cases h; exact hone (halu .and) (boolWord_and p q)
  next p q => cases h; exact hone (halu .or) (boolWord_or p q)
  next =>
    obtain ⟨_, hsame, ⟨⟩⟩ := bind_eq_ok.mp h
    exact hcompare .equal (encode_eq_iff hfit ha hb hsame)
  next =>
    obtain ⟨_, hsame, ⟨⟩⟩ := bind_eq_ok.mp h
    refine hcompare .notEqual ?_
    rw [compares, decide_not, encode_eq_iff hfit ha hb hsame]
  next => cases h

end

/-! ## Operators on the stack -/

namespace Setting

variable {S : Setting} {rbp : Word} {st : State} {words : List Word} {k : Nat}

theorem moves_literal (hroom : S.statics + words.length < S.layout.room) (value : Literal) :
    S.Moves rbp k (Instr.ops [.pushImm (Lowering.literalWord value)]) st words st
      (words ++ [encode S.layout (literalValue value)]) := by
  refine moves_ops fun v hv => ?_
  have hlength := hv.length_stack
  refine ⟨_, .cons (does_pushImm hv.fits_view (by rw [hlength]; exact hroom) _) (.nil _), ?_⟩
  have hword : immediate (Lowering.literalWord value) = encode S.layout (literalValue value) := by
    cases value with
    | int => rfl
    | bool b => cases b <;> rfl
    | null => rfl
  rw [hword]
  exact hv.of_eq (by rw [hv.stack, List.append_assoc]) rfl rfl rfl rfl

theorem Matches.of_agrees {v v' : View} (h : S.Matches rbp st words v) (ha : Agrees v v') :
    S.Matches rbp st words v' :=
  h.of_eq (ha.stack.trans h.stack) ha.heap ha.output ha.rbp ha.r15

/-- What is computed in registers keeps the stack. -/
theorem Matches.computes {v : View} (h : S.Matches rbp st words v) {os : List Op} {w : Word}
    (hc : Computes S.loaded os v w) :
    ∃ v', S.loaded.DoesAll os v v' ∧ S.Matches rbp st words v' ∧ v'.regs .rax = w := by
  obtain ⟨v', hdoes, hrax, hagrees⟩ := hc
  exact ⟨v', hdoes, h.of_agrees hagrees, hrax⟩

/-- An operand on the stack is replaced by the value of the operator. -/
theorem moves_unary (hroom : S.statics + words.length < S.layout.room) {op : UnaryOp}
    {a r : Value} (h : unaryValue op a = .ok r) :
    S.Moves rbp k (Instr.ops [.popReg .rax] ++ Lowering.unaryCode op ++ Lowering.pushResult) st
      (words ++ [encode S.layout a]) st (words ++ [encode S.layout r]) := by
  rw [unaryCode_eq, Lowering.pushResult, ← Instr.ops_append, ← Instr.ops_append]
  refine moves_ops fun v hv => ?_
  obtain ⟨_, hpop, hv₁, hrax₁, -⟩ := hv.pop (r := .rax) (by decide)
  obtain ⟨_, hdoes, hv₂, hrax₂⟩ := hv₁.computes (computes_unary h hrax₁)
  obtain ⟨v₃, hpush, hv₃, -⟩ := hv₂.push hroom (r := .rax) (by decide)
  exact ⟨v₃, ((Loaded.DoesAll.cons hpop (.nil _)).append hdoes).append (.cons hpush (.nil _)),
    hrax₂ ▸ hv₃⟩

/-- Two operands on the stack are replaced by the value of the operator. -/
theorem moves_binary (hroom : S.statics + words.length < S.layout.room) {op : BinaryOp}
    {a b r : Value} (ha : a.Within st.heap.length) (hb : b.Within st.heap.length)
    (h : binaryValue op a b = .ok r) :
    S.Moves rbp k (Instr.ops [.popReg .rcx, .popReg .rax] ++ Lowering.binaryCode op ++
        Lowering.pushResult) st
      (words ++ [encode S.layout a] ++ [encode S.layout b]) st (words ++ [encode S.layout r]) := by
  rw [binaryCode_eq, Lowering.pushResult, ← Instr.ops_append, ← Instr.ops_append]
  refine moves_ops fun v hv => ?_
  obtain ⟨_, hpop₁, hv₁, hrcx₁, -⟩ := hv.pop (r := .rcx) (by decide)
  obtain ⟨_, hpop₂, hv₂, hrax₂, hregs₂⟩ := hv₁.pop (r := .rax) (by decide)
  have hrcx₂ := (hregs₂ .rcx (by decide)).trans hrcx₁
  obtain ⟨_, hdoes, hv₃, hrax₃⟩ := hv₂.computes (computes_binary hv₂.fits ha hb h hrax₂ hrcx₂)
  obtain ⟨v₄, hpush, hv₄, -⟩ := hv₃.push hroom (r := .rax) (by decide)
  exact ⟨v₄, ((Loaded.DoesAll.cons hpop₁ (.cons hpop₂ (.nil _))).append hdoes).append
    (.cons hpush (.nil _)), hrax₃ ▸ hv₄⟩

end Setting

end Preservation

end MiniJava
