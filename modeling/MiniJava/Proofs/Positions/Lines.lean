import MiniJava.Source.LineTable

/-!
# Lines and columns are those of the text

A reader counts newlines: the line of an offset is one more than the newline bytes below it, and its
column counts from the byte just behind the last of them. A `LineTable` finds both by halving
(`position_counts_newlines`).

The entries of the table are read off the bytes (`starts_ofSource`), so they ascend. What the search
finds is how many of them the offset has reached (`divides_countUpTo`), and the last of these is
where the line begins.
-/

namespace MiniJava

open List

/-- The newline. -/
def newlineByte : UInt8 := 10

/-- The bytes of a source. -/
def sourceBytes (source : String) : List UInt8 := source.toUTF8.data.toList

/-- How many newline bytes lie below an offset. -/
def newlinesBelow (source : String) (offset : Nat) : Nat :=
  ((sourceBytes source).take offset).count newlineByte

/-- The line of an offset begins at `start`: just behind the last newline below the offset, or at
zero if there is none. -/
structure LineBegins (source : String) (offset start : Nat) : Prop where
  behind_newline : start = 0 ∨ ∃ i < offset, (sourceBytes source)[i]? =
  some newlineByte ∧ start = i + 1
  last : ∀ i < offset, (sourceBytes source)[i]? = some newlineByte → i < start

/-- One position comes before another in the order of reading. -/
def Position.Before (p q : Position) : Prop :=
  p.line < q.line ∨ p.line = q.line ∧ p.column < q.column

theorem Position.Before.asymm {p q : Position} (h : p.Before q) : ¬ q.Before p := by
  unfold Before at h ⊢
  omega

namespace LineTable

/-! ## The entries of the table -/

/-- The offsets just behind the newlines among bytes that begin at an offset. -/
def behindNewlines (offset : Nat) : List UInt8 → List Nat
  | [] => []
  | b :: bs =>
    if b = newlineByte then (offset + 1) :: behindNewlines (offset + 1) bs
    else behindNewlines (offset + 1) bs

theorem behindNewlines_append (offset : Nat) (bs bs' : List UInt8) :
    behindNewlines offset (bs ++ bs') =
      behindNewlines offset bs ++ behindNewlines (offset + bs.length) bs' := by
  induction bs generalizing offset with
  | nil => rfl
  | cons _ _ ih =>
    simp only [cons_append, behindNewlines, ih, length_cons, Nat.add_assoc, Nat.add_comm 1]
    split <;> rfl

theorem mem_behindNewlines {offset n : Nat} {bs : List UInt8} :
    n ∈ behindNewlines offset bs ↔ ∃ i, bs[i]? = some newlineByte ∧ n = offset + i + 1 := by
  induction bs generalizing offset with
  | nil => simp [behindNewlines]
  | cons b bs ih =>
    have hsplit : (∃ i, (b :: bs)[i]? = some newlineByte ∧ n = offset + i + 1) ↔
        (b = newlineByte ∧ n = offset + 1) ∨ n ∈ behindNewlines (offset + 1) bs := by
      rw [ih]
      constructor
      · rintro ⟨_ | i, hi, rfl⟩
        · exact .inl ⟨Option.some.inj hi, rfl⟩
        · exact .inr ⟨i, hi, by omega⟩
      · rintro (⟨rfl, rfl⟩ | ⟨i, hi, rfl⟩)
        · exact ⟨0, rfl, rfl⟩
        · exact ⟨i + 1, hi, by omega⟩
    rw [hsplit, behindNewlines]
    split <;> simp [*]

/-- Bytes without a newline give no entries. -/
theorem behindNewlines_eq_nil {offset : Nat} {bs : List UInt8} (h : newlineByte ∉ bs) :
    behindNewlines offset bs = [] := by
  refine eq_nil_iff_forall_not_mem.mpr ?_
  intro _ hn
  obtain ⟨_, hi, -⟩ := mem_behindNewlines.mp hn
  exact h (mem_of_getElem? hi)

theorem pairwise_behindNewlines (offset : Nat) (bs : List UInt8) :
    (offset :: behindNewlines offset bs).Pairwise (· < ·) := by
  induction bs generalizing offset with
  | nil => exact pairwise_singleton _ _
  | cons _ _ ih =>
    have htail := pairwise_cons.mp (ih (offset + 1))
    rw [behindNewlines]
    split
    next =>
      refine pairwise_cons.mpr ⟨?_, ih (offset + 1)⟩
      exact forall_mem_cons.mpr
        ⟨Nat.lt_succ_self offset, fun n hn => Nat.lt_of_succ_lt (htail.1 n hn)⟩
    next =>
      exact pairwise_cons.mpr ⟨fun n hn => Nat.lt_of_succ_lt (htail.1 n hn), htail.2⟩

/-- The entries that an offset has reached are as many as the newlines below it. -/
theorem countP_behindNewlines (offset k : Nat) (bs : List UInt8) :
    (behindNewlines offset bs).countP (· ≤ offset + k) = (bs.take k).count newlineByte := by
  induction bs generalizing offset k with
  | nil => rw [take_nil]; rfl
  | cons b bs ih =>
    cases k with
    | zero =>
      refine countP_eq_zero.mpr ?_
      intro n hn hle
      have hlt := (pairwise_cons.mp (pairwise_behindNewlines offset (b :: bs))).1 n hn
      exact absurd (of_decide_eq_true hle) (by omega)
    | succ k =>
      have hrest := ih (offset + 1) k
      rw [Nat.add_assoc, Nat.add_comm 1 k] at hrest
      rw [behindNewlines, take_succ_cons, count_cons, ← hrest]
      split
      next hb => rw [countP_cons, hb]; simp
      next hb => simp [hb]

theorem ofNat_eq_newlineByte {n : Nat} (hn : n < 256)
    (h : newlineByte = UInt8.ofNat n) : n = 10 := by
  have hmod : n % 256 = 10 := (congrArg UInt8.toNat h).symm
  omega

/-- Only the newline is encoded with a newline byte: the bytes of a character outside ASCII all have
their highest bit set. -/
theorem newlineByte_mem_utf8EncodeChar {c : Char} :
    newlineByte ∈ String.utf8EncodeChar c ↔ c = '\n' := by
  constructor
  · intro h
    unfold String.utf8EncodeChar at h
    dsimp only at h
    split at h
    next =>
      have hv := ofNat_eq_newlineByte (by omega) (mem_singleton.mp h)
      exact Char.ext (UInt32.toNat_inj.mp hv)
    next =>
      exfalso
      have hhigh : ∀ n, 128 ≤ n → n < 256 → newlineByte ≠ UInt8.ofNat n := by
        intro _ _ hlt heq
        exact absurd (ofNat_eq_newlineByte hlt heq) (by omega)
      split at h
      next => simp (disch := omega) only [mem_cons, hhigh, not_mem_nil, or_self] at h
      next =>
        split at h <;> simp (disch := omega) only [mem_cons, hhigh, not_mem_nil, or_self]
          at h
  · rintro rfl
    decide

theorem startsAfter_eq (offset : Nat) (cs : List Char) :
    startsAfter offset cs = behindNewlines offset (cs.flatMap String.utf8EncodeChar) := by
  induction cs generalizing offset with
  | nil => rfl
  | cons _ _ ih =>
    rw [startsAfter, flatMap_cons, behindNewlines_append, String.length_utf8EncodeChar, ← ih]
    split
    next hc => subst hc; rfl
    next hc =>
      rw [behindNewlines_eq_nil (fun h => hc (newlineByte_mem_utf8EncodeChar.mp h)), nil_append]

theorem starts_ofSource (source : String) :
    (ofSource source).starts.toList = 0 :: behindNewlines 0 (sourceBytes source) := by
  have hbytes : sourceBytes source = source.toList.flatMap String.utf8EncodeChar := by
    conv => lhs; rw [← String.ofList_toList (s := source)]
    rw [sourceBytes, String.toUTF8, String.toByteArray_ofList, List.utf8Encode, data_toByteArray]
  rw [hbytes, ← startsAfter_eq]
  rfl

theorem mem_starts {source : String} {n : Nat} :
    (∃ i : Nat, (ofSource source).starts[i]? = some n) ↔
      n = 0 ∨ ∃ i : Nat, (sourceBytes source)[i]? = some newlineByte ∧ n = i + 1 := by
  simp only [← Array.getElem?_toList, ← mem_iff_getElem?, starts_ofSource, mem_cons,
    mem_behindNewlines, Nat.zero_add]

/-- The entries ascend. -/
theorem starts_lt (source : String) {i j m n : Nat} (hij : i < j)
    (hm : (ofSource source).starts[i]? = some m)
    (hn : (ofSource source).starts[j]? = some n) : m < n := by
  rw [← Array.getElem?_toList, starts_ofSource, getElem?_eq_some_iff] at hm hn
  obtain ⟨hi, rfl⟩ := hm
  obtain ⟨hj, rfl⟩ := hn
  exact pairwise_iff_getElem.mp (pairwise_behindNewlines 0 _) i j hi hj hij

/-! ## The search -/

/-- The number divides the entries into those that the offset has reached and those behind it. -/
structure Divides (starts : Array Nat) (offset n : Nat) : Prop where
  le_size : n ≤ starts.size
  reached : ∀ i start, i < n → starts[i]? = some start → start ≤ offset
  behind : ∀ i start, n ≤ i → starts[i]? = some start → offset < start

theorem getElem?_eq_getD {starts : Array Nat} {i : Nat} (hi : i < starts.size) :
    starts[i]? = some (starts.getD i 0) := by
  rw [Array.getD_eq_getD_getElem?, Array.getElem?_eq_getElem hi, Option.getD_some]

/-- The search halves what lies between entries that are known to be reached and entries that are
known to be behind the offset. -/
theorem divides_countUpTo {starts : Array Nat} {offset : Nat}
    (hsorted : ∀ {i j m n : Nat}, i < j → starts[i]? = some m → starts[j]? = some n → m < n)
    {lo hi : Nat} (hle : lo ≤ hi) (hhi : hi ≤ starts.size)
    (hreached : ∀ i start, i < lo → starts[i]? = some start → start ≤ offset)
    (hbehind : ∀ i start, hi ≤ i → starts[i]? = some start → offset < start) :
    Divides starts offset (countUpTo starts offset lo hi) := by
  fun_induction countUpTo starts offset lo hi with
  | case1 _ hi _ mid hmid ih =>
    have hget : starts[mid]? = some (starts.getD mid 0) := getElem?_eq_getD (by omega)
    refine ih (by omega) hhi ?_ hbehind
    intro _ _ hi hstart
    rcases Nat.lt_or_eq_of_le (Nat.le_of_lt_succ hi) with hlow | rfl
    · exact Nat.le_of_lt (Nat.lt_of_lt_of_le (hsorted hlow hstart hget) hmid)
    · rw [Option.some.inj (hstart.symm.trans hget)]
      exact hmid
  | case2 _ hi _ mid hmid ih =>
    have hget : starts[mid]? = some (starts.getD mid 0) := getElem?_eq_getD (by omega)
    refine ih (by omega) (by omega) hreached ?_
    intro _ _ hi hstart
    rcases Nat.lt_or_eq_of_le hi with hhigh | rfl
    · exact Nat.lt_trans (Nat.lt_of_not_le hmid) (hsorted hhigh hget hstart)
    · rw [Option.some.inj (hstart.symm.trans hget)]
      exact Nat.lt_of_not_le hmid
  | case3 lo hi _ =>
    obtain rfl : lo = hi := by omega
    exact ⟨hhi, hreached, hbehind⟩

namespace Divides

variable {starts : Array Nat} {offset n : Nat} (h : Divides starts offset n)
include h

theorem eq_countP : n = starts.toList.countP (· ≤ offset) := by
  have htake : (starts.toList.take n).countP (· ≤ offset) = (starts.toList.take n).length := by
    refine countP_eq_length.mpr ?_
    intro start hstart
    obtain ⟨i, hi⟩ := mem_iff_getElem?.mp hstart
    rw [getElem?_take, Array.getElem?_toList] at hi
    split at hi
    next hlt => exact decide_eq_true (h.reached i start hlt hi)
    next => cases hi
  have hdrop : (starts.toList.drop n).countP (· ≤ offset) = 0 := by
    refine countP_eq_zero.mpr ?_
    intro start hstart hle
    obtain ⟨i, hi⟩ := mem_iff_getElem?.mp hstart
    rw [getElem?_drop, Array.getElem?_toList] at hi
    exact absurd (h.behind _ start (Nat.le_add_right n i) hi)
      (Nat.not_lt.mpr (of_decide_eq_true hle))
  have hlength : (starts.toList.take n).length = n :=
    length_take_of_le (Array.length_toList ▸ h.le_size)
  rw [← take_append_drop n starts.toList, countP_append, htake, hdrop, hlength, Nat.add_zero]

end Divides

/-! ## Positions -/

section

variable (source : String) (offset : Nat)

theorem divides_line :
    Divides (ofSource source).starts offset ((ofSource source).place offset).line := by
  refine divides_countUpTo (starts_lt source) (Nat.zero_le _) (Nat.le_refl _) nofun ?_
  intro _ _ hi hstart
  rw [Array.getElem?_eq_none hi] at hstart
  cases hstart

theorem line_eq : ((ofSource source).place offset).line = newlinesBelow source offset + 1 := by
  rw [(divides_line source offset).eq_countP, starts_ofSource, countP_cons_of_pos (by simp),
    newlinesBelow, ← countP_behindNewlines 0 offset, Nat.zero_add]

/-- The last entry that the offset has reached is where its line begins. -/
theorem lineBegins_of_getElem? {start : Nat}
    (h : (ofSource source).starts[((ofSource source).place offset).line - 1]? = some start) :
    start ≤ offset ∧ LineBegins source offset start := by
  have hdivides := divides_line source offset
  have hpos : 0 < ((ofSource source).place offset).line := line_eq source offset ▸ Nat.succ_pos _
  have hle := hdivides.reached _ start (by omega) h
  refine ⟨hle, ?_, ?_⟩
  · rcases mem_starts.mp ⟨_, h⟩ with hzero | ⟨i, hi, rfl⟩
    · exact .inl hzero
    · exact .inr ⟨i, hle, hi, rfl⟩
  · intro i _ hnewline
    obtain ⟨j, hj⟩ := mem_starts.mpr (.inr ⟨i, hnewline, rfl⟩)
    -- The entry of this newline is reached, so it is no later than the last one that is.
    have hreached : j < ((ofSource source).place offset).line :=
      Nat.lt_of_not_le fun hge => absurd (hdivides.behind j _ hge hj) (by omega)
    rcases Nat.lt_or_eq_of_le (Nat.le_sub_one_of_lt hreached) with hlt | rfl
    · exact Nat.lt_of_succ_lt (starts_lt source hlt hj h)
    · exact Nat.lt_of_succ_le (Nat.le_of_eq (Option.some.inj (hj.symm.trans h)))

/-- There is an entry for the line, and the column counts from it. -/
theorem exists_start : ∃ start,
    (ofSource source).starts[((ofSource source).place offset).line - 1]? = some start ∧
    ((ofSource source).place offset).column = offset - start + 1 := by
  have hsize := (divides_line source offset).le_size
  have hline := line_eq source offset
  exact ⟨_, getElem?_eq_getD (by omega), rfl⟩

variable {offset} in
/-- A later offset lies on a later line or further along the line. -/
theorem before_of_lt {other : Nat} (h : offset < other) :
    ((ofSource source).place offset).Before ((ofSource source).place other) := by
  have hlines : ((ofSource source).place offset).line ≤ ((ofSource source).place other).line := by
    rw [line_eq, line_eq]
    refine Nat.succ_le_succ (List.Sublist.count_le _ ?_)
    exact (take_prefix_take_left (Nat.le_of_lt h)).sublist
  rcases Nat.lt_or_eq_of_le hlines with hlt | heq
  · exact .inl hlt
  · obtain ⟨start, hstart, _⟩ := exists_start source offset
    obtain ⟨start', hstart', _⟩ := exists_start source other
    obtain rfl : start = start' := Option.some.inj (hstart.symm.trans (heq ▸ hstart'))
    have hle := (lineBegins_of_getElem? source offset hstart).1
    exact .inr ⟨heq, by omega⟩

theorem before_iff (other : Nat) :
    ((ofSource source).place offset).Before ((ofSource source).place other) ↔ offset < other := by
  refine ⟨fun h => Nat.lt_of_not_le fun hge => ?_, before_of_lt source⟩
  rcases Nat.lt_or_eq_of_le hge with hlt | rfl
  · exact h.asymm (before_of_lt source hlt)
  · exact h.asymm h

theorem place_injective : Function.Injective (ofSource source).place := by
  intro offset other heq
  have hforward := before_iff source offset other
  have hbackward := before_iff source other offset
  rw [heq] at hforward hbackward
  refine Nat.le_antisymm (Nat.le_of_not_lt fun hlt => ?_) (Nat.le_of_not_lt fun hlt => ?_)
  · exact (hbackward.mpr hlt).asymm (hbackward.mpr hlt)
  · exact (hforward.mpr hlt).asymm (hforward.mpr hlt)

end

section

variable (source : String)

/-- Only the largest offset has no position, and only where there is no newline in front of it. -/
theorem position_eq (offset : UInt64) :
    (ofSource source).position offset =
      if newlinesBelow source offset.toNat = 0 ∧ offset.toNat + 1 = UInt64.size then none
      else some ((ofSource source).place offset.toNat) := by
  obtain ⟨start, hstart, hcolumn⟩ := exists_start source offset.toNat
  have hle := (lineBegins_of_getElem? source offset.toNat hstart).1
  have hbound : offset.toNat < UInt64.size := offset.toNat_lt
  have hfirst : (ofSource source).starts[0]? = some 0 := rfl
  rw [line_eq, Nat.add_sub_cancel] at hstart
  -- The first line is the one that begins at zero.
  have hzero : newlinesBelow source offset.toNat = 0 ↔ start = 0 := by
    constructor
    · intro hnone
      rw [hnone] at hstart
      exact (Option.some.inj (hfirst.symm.trans hstart)).symm
    · rintro rfl
      exact Nat.eq_zero_of_not_pos fun hpos => Nat.lt_irrefl _ (starts_lt source hpos hfirst hstart)
  rw [position, hcolumn]
  by_cases hlargest : newlinesBelow source offset.toNat = 0 ∧ offset.toNat + 1 = UInt64.size
  · rw [if_pos hlargest, if_neg (by omega)]
  · rw [if_neg hlargest, if_pos (by omega)]

theorem eq_place_of_position {offset : UInt64} {p : Position}
    (h : (ofSource source).position offset = some p) :
    p = (ofSource source).place offset.toNat := by
  rw [position_eq] at h
  split at h
  next => cases h
  next => exact (Option.some.inj h).symm

theorem position_injective : Function.Injective (ofSource source).position := by
  intro offset _ heq
  refine UInt64.toNat_inj.mp ?_
  cases h : (ofSource source).position offset with
  | none =>
    -- There is one offset without a position at most.
    have h' := heq ▸ h
    rw [position_eq] at h h'
    split at h
    next =>
      split at h'
      next => omega
      next => cases h'
    next => cases h
  | some _ =>
    have hplace := eq_place_of_position source h
    have hplace' := eq_place_of_position source (heq ▸ h)
    exact place_injective source (hplace.symm.trans hplace')

end

/-- The position of an offset is the true one, for every offset, also past the end of the source.
Its line is one more than the newlines below it. The entry of the table for this line exists and is
where the line begins, so it is not above the offset, and the column counts from there. Neither
number is larger than the offset plus one, so only the largest offset has no position, and only if
there is no newline. Positions are in the order of their offsets, and no two offsets share one. -/
theorem position_counts_newlines (source : String) :
    (∀ offset : UInt64, ∃ start, LineBegins source offset.toNat start ∧ start ≤ offset.toNat ∧
      (ofSource source).starts[newlinesBelow source offset.toNat]? = some start ∧
      newlinesBelow source offset.toNat ≤ offset.toNat ∧
      (ofSource source).position offset =
        if newlinesBelow source offset.toNat = 0 ∧ offset.toNat + 1 = UInt64.size then none
        else some ⟨newlinesBelow source offset.toNat + 1, offset.toNat - start + 1⟩) ∧
    (∀ offset other p q, (ofSource source).position offset = some p →
      (ofSource source).position other = some q → (p.Before q ↔ offset < other)) ∧
    Function.Injective (ofSource source).position := by
  refine ⟨?_, ?_, position_injective source⟩
  · intro offset
    obtain ⟨start, hstart, hcolumn⟩ := exists_start source offset.toNat
    obtain ⟨hle, hbegins⟩ := lineBegins_of_getElem? source offset.toNat hstart
    have hline := line_eq source offset.toNat
    refine ⟨start, hbegins, hle, ?_, ?_, ?_⟩
    · rwa [hline] at hstart
    · exact Nat.le_trans count_le_length (length_take_le _ _)
    · rw [position_eq, ← hline, ← hcolumn]
  · intro _ _ _ _ hp hq
    rw [eq_place_of_position source hp, eq_place_of_position source hq, before_iff,
      UInt64.lt_iff_toNat_lt]

/-- On a line that begins at zero there is no column for the largest offset. -/
theorem position_largest :
    (ofSource "").position (-1) = none ∧
      ¬ ∃ start, LineBegins "" (-1 : UInt64).toNat start ∧ (ofSource "").position (-1) =
        some ⟨newlinesBelow "" (-1 : UInt64).toNat + 1, (-1 : UInt64).toNat - start + 1⟩ := by
  have hnone : (ofSource "").position (-1) = none := by
    rw [position_eq]
    exact if_pos ⟨rfl, rfl⟩
  refine ⟨hnone, ?_⟩
  rintro ⟨_, -, hsome⟩
  rw [hnone] at hsome
  cases hsome

-- A newline ends its own line, and the last line has more columns than text.
example : [0, 2, 3, 6, 9, -1].map (ofSource "ab\ncd\n").position =
    [some ⟨1, 1⟩, some ⟨1, 3⟩, some ⟨2, 1⟩, some ⟨3, 1⟩, some ⟨3, 4⟩, some ⟨3, 2 ^ 64 - 6⟩] := by
  cbv

end LineTable

end MiniJava
