import MiniJava.Machine.Code
import MiniJava.Machine.Image
import MiniJava.Proofs.Machine.Decoding

/-!
# Disassembly

The way back from an executable file to the code that it was made of (`disassemble_assemble`). A
file is read as the system reads it: the header says where execution begins and where the one
program header stands, and that says which bytes of the file are mapped to which addresses. From the
entry on, instructions are decoded one behind the other up to the end of the segment.

`assembleFrom_eq` is the step that carries the file. It says in one equation what assembling does:
it fails at the first branch that leads nowhere, and otherwise gives the bytes of the instructions
with their distances in place (`encodeFrom`). The distances are those of the bytes really written,
since the length of an instruction does not depend on its target.
-/

namespace MiniJava

open List

/-! ## What assembling does -/

variable {code : Code} {n : Nat}

namespace Code

/-- The byte offset at which the instruction with an index begins; for the number of
all instructions, the one at which the code ends. -/
def offsetOf {α : Type} (code : List (Instr α)) (index : Nat) : Nat :=
  ((code.take index).map Instr.size).sum

/-- The number of bytes of the code. -/
def byteSize {α : Type} (code : List (Instr α)) : Nat := offsetOf code code.length

variable {α : Type}

@[simp]
theorem offsetOf_zero (code : List (Instr α)) : offsetOf code 0 = 0 := by
  simp [offsetOf]

@[simp]
theorem offsetOf_cons (i : Instr α) (is : List (Instr α)) (n : Nat) :
    offsetOf (i :: is) (n + 1) = i.size + offsetOf is n := by
  simp [offsetOf]

theorem getElem?_startsFrom (offset : Nat) (code : List (Instr α)) (index : Nat) :
    (startsFrom offset code)[index]? =
      if index ≤ code.length then some (offset + offsetOf code index) else none := by
  induction code generalizing offset index with
  | nil => cases index <;> simp [startsFrom]
  | cons _ _ ih =>
    cases index with
    | zero => simp [startsFrom]
    | succ => simp [startsFrom, ih, Nat.add_assoc]

/-- The offsets grow with the index. -/
theorem offsetOf_lt_offsetOf {code : List (Instr α)} {m : Nat} (hmn : m < n)
    (hn : n ≤ code.length) : offsetOf code m < offsetOf code n := by
  induction code generalizing m n with
  | nil => simp at hn; omega
  | cons i _ ih =>
    obtain ⟨n, rfl⟩ : ∃ k, n = k + 1 := ⟨n - 1, by omega⟩
    cases m with
    | zero =>
      have := Decoding.size_pos i
      simp only [offsetOf_zero, offsetOf_cons]
      omega
    | succ m =>
      have := ih (m := m) (n := n) (by omega) (by simpa using hn)
      simp only [offsetOf_cons]
      omega

theorem offsetOf_le_byteSize {code : List (Instr α)} (hn : n ≤ code.length) :
    offsetOf code n ≤ byteSize code := by
  rcases Nat.lt_or_eq_of_le hn with h | rfl
  · exact Nat.le_of_lt (offsetOf_lt_offsetOf h (Nat.le_refl _))
  · exact Nat.le_refl _

theorem length_le_byteSize (code : List (Instr α)) : code.length ≤ byteSize code := by
  induction code with
  | nil => exact Nat.le_refl 0
  | cons i _ ih =>
    have := Decoding.size_pos i
    simp only [byteSize, length_cons, offsetOf_cons] at ih ⊢
    omega

/-- A branch without a target, or with one beyond the end of code of this length. -/
def isDangling (length : Nat) (i : Instr (Option Nat)) : Bool :=
  match i.target? with
  | some (some n) => length < n
  | some none => true
  | none => false

/-- The branch or call at an index leads nowhere: it has no target, or one beyond the
end of the code. -/
def Dangling (code : Code) (index : Nat) : Prop :=
  ∃ i t, code[index]? = some i ∧ i.target? = some t ∧ ∀ n, t = some n → code.length < n

theorem isDangling_iff {length : Nat} {i : Instr (Option Nat)} :
    isDangling length i = true ↔ ∃ t, i.target? = some t ∧ ∀ n, t = some n → length < n := by
  unfold isDangling
  split
  next hn => simp [hn]
  next hn => simp [hn]
  next hn => simp [hn]

theorem dangling_iff {index : Nat} :
    code.Dangling index ↔ ∃ i, code[index]? = some i ∧ isDangling code.length i = true := by
  simp only [Dangling, isDangling_iff]
  constructor
  · rintro ⟨i, t, hi, ht⟩
    exact ⟨i, hi, t, ht⟩
  · rintro ⟨i, hi, t, ht⟩
    exact ⟨i, t, hi, ht⟩

/-- The distance to a target from the byte offset at which its branch ends. -/
def distanceTo (code : Code) (stop : Nat) (target : Option Nat) : Int32 :=
  Int32.ofInt ((offsetOf code (target.getD 0) : Int) - stop)

/-- The bytes of instructions of some code, the first of which begins at an offset. -/
def encodeFrom (code : Code) (offset : Nat) : Code → List UInt8
  | [] => []
  | i :: is =>
    Encoding.instr (i.map (distanceTo code (offset + i.size))) ++
      encodeFrom code (offset + i.size) is

theorem distance?_startsFrom (code : Code) (stop n : Nat) :
    distance? (startsFrom 0 code).toArray stop (some n) =
      if n ≤ code.length then some (distanceTo code stop (some n)) else none := by
  simp only [distance?, getElem?_toArray, getElem?_startsFrom, Option.bind_eq_bind,
    Option.bind_some, Nat.zero_add]
  split <;> rfl

/-- An instruction gets its distance unless it leads nowhere. -/
theorem traverse_distance? (code : Code) (stop : Nat) (i : Instr (Option Nat)) :
    i.traverse (distance? (startsFrom 0 code).toArray stop) =
      if isDangling code.length i then none else some (i.map (distanceTo code stop)) := by
  have hnone : distance? (startsFrom 0 code).toArray stop none = none := rfl
  cases i with
  | op => rfl
  | ret => rfl
  | jump t | jumpIf c t | call t =>
    cases t with
    | none => simp [Instr.traverse, hnone, isDangling, Instr.target?]
    | some n =>
      by_cases h : n ≤ code.length
      · simp [Instr.traverse, distance?_startsFrom, isDangling, Instr.target?, Instr.map, h,
          Nat.not_lt.mpr h]
      · simp [Instr.traverse, distance?_startsFrom, isDangling, Instr.target?, h, Nat.not_le.mp h]

/-- Assembling fails at the first instruction that leads nowhere, and otherwise gives
the bytes of all instructions. -/
theorem assembleFrom_eq (code : Code) (index offset : Nat) (rest : Code) :
    assembleFrom (startsFrom 0 code).toArray index offset rest =
      match rest.findIdx? (isDangling code.length) with
      | some k => .error ⟨index + k⟩
      | none => .ok (encodeFrom code offset rest) := by
  induction rest generalizing index offset with
  | nil => rfl
  | cons i is ih =>
    simp only [assembleFrom, traverse_distance?, findIdx?_cons]
    cases isDangling code.length i with
    | true => rfl
    | false =>
      simp only [Bool.false_eq_true, if_false, ih]
      cases is.findIdx? (isDangling code.length) with
      | none => rfl
      | some k => simp [bind, Except.bind, Nat.add_assoc, Nat.add_comm 1 k]

theorem assemble_eq (code : Code) :
    assemble code =
      match code.findIdx? (isDangling code.length) with
      | some k => .error ⟨k⟩
      | none => .ok (encodeFrom code 0 code) := by
  simp [assemble, assembleFrom_eq]

/-- Assembling names the first instruction that leads nowhere. -/
theorem assemble_error_iff {k : Nat} :
    assemble code = .error ⟨k⟩ ↔ code.Dangling k ∧ ∀ j < k, ¬ code.Dangling j := by
  have hfind : assemble code = .error ⟨k⟩ ↔
      code.findIdx? (isDangling code.length) = some k := by
    rw [assemble_eq]
    cases code.findIdx? (isDangling code.length) <;> simp
  rw [hfind, findIdx?_eq_some_iff_getElem]
  simp only [dangling_iff]
  constructor
  · rintro ⟨hk, hd, hmin⟩
    refine ⟨⟨code[k], getElem?_eq_getElem hk, hd⟩, ?_⟩
    rintro j hj ⟨i, hi, hdi⟩
    obtain ⟨_, rfl⟩ := List.getElem?_eq_some_iff.mp hi
    exact hmin j hj hdi
  · -- The first dangling branch is the one that the search stops at.
    rintro ⟨⟨_, hi, hd⟩, hmin⟩
    obtain ⟨hk, rfl⟩ := List.getElem?_eq_some_iff.mp hi
    refine ⟨hk, hd, ?_⟩
    intro j hj hdj
    exact hmin j hj ⟨code[j], List.getElem?_eq_getElem (by omega), hdj⟩

/-- Code in which every branch leads somewhere can be assembled, and no other code. -/
theorem assemble_ok_iff {bytes : List UInt8} :
    assemble code = .ok bytes ↔ (∀ k, ¬ code.Dangling k) ∧ encodeFrom code 0 code = bytes := by
  have hfind : (∀ k, ¬ code.Dangling k) ↔
      code.findIdx? (isDangling code.length) = none := by
    rw [findIdx?_eq_none_iff]
    simp only [dangling_iff]
    constructor
    · intro h i hi
      obtain ⟨k, hk⟩ := getElem?_of_mem hi
      simpa using fun hd => h k ⟨i, hk, hd⟩
    · rintro h _ ⟨i, hi, hd⟩
      rw [h i (mem_of_getElem? hi)] at hd
      cases hd
  rw [assemble_eq, hfind]
  cases code.findIdx? (isDangling code.length) <;> simp

theorem length_encodeFrom (code : Code) (offset : Nat) (rest : Code) :
    (encodeFrom code offset rest).length = byteSize rest := by
  induction rest generalizing offset with
  | nil => rfl
  | cons _ _ ih => simp [encodeFrom, ih, byteSize]

end Code

/-! ## Reading a file -/

/-- What the system learns from a file: where execution begins, and the bytes that
are mapped from an address on. -/
structure LoadedImage where
  entry : Nat
  address : Nat
  bytes : List UInt8
  deriving DecidableEq, Repr

namespace LoadedImage

/-- The address behind the last byte. -/
def stop (m : LoadedImage) : Nat := m.address + m.bytes.length

/-- The bytes from an address on. -/
def bytesFrom (m : LoadedImage) (address : Nat) : List UInt8 :=
  if m.address ≤ address then m.bytes.drop (address - m.address) else []

end LoadedImage

namespace Image

/-- The number that a file has at a position, in this many bytes. -/
def fieldAt (file : List UInt8) (position count : Nat) : Nat :=
  Decoding.ofLittleEndian ((file.drop position).take count)

/-- The marks of an executable file with 64-bit fields in little-endian order for
x86-64 that has one program header, which asks for executable memory. -/
def isExecutable (file : List UInt8) : Bool :=
  let header := fieldAt file 32 8
  file.take 4 = [0x7F, 0x45, 0x4C, 0x46] && fieldAt file 4 1 = 2 && fieldAt file 5 1 = 1 &&
    fieldAt file 16 2 = 2 && fieldAt file 18 2 = 0x3E && fieldAt file 56 2 = 1 &&
    fieldAt file header 4 = 1 && fieldAt file (header + 4) 4 % 2 = 1

/-- Reads a file: the entry from its header, and from the program header which part
of the file is mapped to which addresses. Memory beyond the file's part is zero. -/
def load? (file : List UInt8) : Option LoadedImage :=
  if isExecutable file then
    let header := fieldAt file 32 8
    let fileSize := fieldAt file (header + 32) 8
    let memorySize := fieldAt file (header + 40) 8
    some
      { entry := fieldAt file 24 8
        address := fieldAt file (header + 16) 8
        bytes := (file.drop (fieldAt file (header + 8) 8)).take fileSize ++
          List.replicate (memorySize - fileSize) 0 }
  else none

/-- A field is read from the bytes that it was written as. -/
theorem fieldAt_of_take {file : List UInt8} {position count value : Nat}
    (h : (file.drop position).take count = littleEndian count value)
    (hv : value < 256 ^ count) : fieldAt file position count = value := by
  rw [fieldAt, h, Decoding.ofLittleEndian_littleEndian, Nat.mod_eq_of_lt hv]

/-- The place of the program header. -/
theorem fieldAt_header (code : List UInt8) : fieldAt (ofCode code) 32 8 = 64 :=
  fieldAt_of_take (by rfl) (by decide)

/-- The file bears the marks of an executable. -/
theorem isExecutable_ofCode (code : List UInt8) : isExecutable (ofCode code) = true := by
  have hmagic : (ofCode code).take 4 = [0x7F, 0x45, 0x4C, 0x46] := rfl
  have hclass : fieldAt (ofCode code) 4 1 = 2 := fieldAt_of_take (by rfl) (by decide)
  have horder : fieldAt (ofCode code) 5 1 = 1 := fieldAt_of_take (by rfl) (by decide)
  have htype : fieldAt (ofCode code) 16 2 = 2 := fieldAt_of_take (by rfl) (by decide)
  have hmachine : fieldAt (ofCode code) 18 2 = 0x3E := fieldAt_of_take (by rfl) (by decide)
  have hcount : fieldAt (ofCode code) 56 2 = 1 := fieldAt_of_take (by rfl) (by decide)
  have hload : fieldAt (ofCode code) 64 4 = 1 := fieldAt_of_take (by rfl) (by decide)
  have hflags : fieldAt (ofCode code) 68 4 = 5 := fieldAt_of_take (by rfl) (by decide)
  simp [isExecutable, hmagic, hclass, horder, htype, hmachine, hcount, fieldAt_header, hload,
    hflags]

/-- The whole file is mapped, and execution begins behind the headers. -/
theorem load?_ofCode {code : List UInt8} (h : headersSize + code.length < 2 ^ 64) :
    load? (ofCode code) = some ⟨entryAddress, loadAddress, ofCode code⟩ := by
  have hsize : headersSize + code.length < 256 ^ 8 := by omega
  have hentry : fieldAt (ofCode code) 24 8 = entryAddress := fieldAt_of_take (by rfl) (by decide)
  have hoffset : fieldAt (ofCode code) 72 8 = 0 := fieldAt_of_take (by rfl) (by decide)
  have haddress : fieldAt (ofCode code) 80 8 = loadAddress := fieldAt_of_take (by rfl) (by decide)
  have hfile : fieldAt (ofCode code) 96 8 = headersSize + code.length :=
    fieldAt_of_take (by rfl) hsize
  have hmemory : fieldAt (ofCode code) 104 8 = headersSize + code.length :=
    fieldAt_of_take (by rfl) hsize
  rw [load?, if_pos (isExecutable_ofCode code)]
  simp only [fieldAt_header, hfile, hmemory, hoffset, hentry, haddress, Nat.reduceAdd,
    drop_zero, Nat.sub_self, replicate_zero, append_nil]
  rw [take_of_length_le (by simp)]

/-- From the entry on there is the code. -/
theorem bytesFrom_entry (code : List UInt8) :
    LoadedImage.bytesFrom ⟨entryAddress, loadAddress, ofCode code⟩ entryAddress = code := by
  have hlen : (fileHeader ++ programHeader (headersSize + code.length)).length =
      entryAddress - loadAddress := by simp [entryAddress, headersSize]
  rw [LoadedImage.bytesFrom, if_pos (by simp [entryAddress])]
  exact drop_left' hlen

end Image

/-! ## Listings -/

/-- A decoded instruction with the address of its first byte and the one behind its
last byte. The target of a branch is its distance from there. -/
structure Line where
  address : Nat
  instr : Instr Int32
  stop : Nat
  deriving DecidableEq, Repr

namespace Line

/-- The address that a branch with a distance leads to. -/
def targetAddress (l : Line) (distance : Int32) : Int := l.stop + distance.toInt

end Line

namespace Disassembly

/-- Decodes one instruction behind the other until the bytes end. There are at most
as many instructions as bytes. -/
def linesFrom : (bound address : Nat) → List UInt8 → Option (List Line)
  | _, _, [] => some []
  | 0, _, _ :: _ => none
  | bound + 1, address, b :: bs => do
    let (instr, rest) ← Decoding.decodeInstr (b :: bs)
    let stop := address + ((b :: bs).length - rest.length)
    let others ← linesFrom bound stop rest
    return ⟨address, instr, stop⟩ :: others

/-- The instructions of a file from its entry to the end of its segment. -/
def disassemble (file : List UInt8) : Option (List Line) := do
  let m ← Image.load? file
  let bytes := m.bytesFrom m.entry
  linesFrom bytes.length m.entry bytes

/-- The addresses of the lines, and the one at which the last of them ends. -/
def addresses (lines : List Line) : List Nat :=
  match lines.getLast? with
  | some last => lines.map (·.address) ++ [last.stop]
  | none => []

/-- The number of the line that begins at an address. The number of all lines stands
for the end of the last one. -/
def indexAt? (lines : List Line) (address : Int) : Option Nat :=
  (addresses lines).findIdx? fun a : Nat => (a : Int) = address

/-- The code of a listing: a branch names the line that begins at the address that it
leads to, or the end. -/
def codeOf (lines : List Line) : Code :=
  lines.map fun l => l.instr.map fun d => indexAt? lines (l.targetAddress d)

/-- The lines of instructions of some code whose first byte is at the address
`base`, when the first of the instructions begins at an offset. -/
def linesOf (code : Code) (base offset : Nat) : Code → List Line
  | [] => []
  | i :: is =>
    ⟨base + offset, i.map (code.distanceTo (offset + i.size)), base + (offset + i.size)⟩ ::
      linesOf code base (offset + i.size) is

@[simp]
theorem length_linesOf (code : Code) (base offset : Nat) (rest : Code) :
    (linesOf code base offset rest).length = rest.length := by
  induction rest generalizing offset with
  | nil => rfl
  | cons _ _ ih => simp [linesOf, ih]

/-- Decoding what was encoded gives one line for each instruction. -/
theorem linesFrom_encodeFrom (code : Code) (base offset : Nat) (rest : Code) {bound : Nat}
    (hbound : rest.length ≤ bound) :
    linesFrom bound (base + offset) (code.encodeFrom offset rest) =
      some (linesOf code base offset rest) := by
  induction rest generalizing offset bound with
  | nil => cases bound <;> rfl
  | cons i is ih =>
    obtain ⟨bound, rfl⟩ : ∃ n, bound = n + 1 := ⟨bound - 1, by simp at hbound; omega⟩
    have hshort : is.length ≤ bound := by simpa using hbound
    have hih := ih (offset + i.size) hshort
    have hread := Decoding.decodeInstr_instr (i.map (code.distanceTo (offset + i.size)))
      (code.encodeFrom (offset + i.size) is)
    have hlen : (Encoding.instr (i.map (code.distanceTo (offset + i.size)))).length = i.size := by
      simp
    rw [Code.encodeFrom]
    -- The bytes are not empty, so the equation of the recursion applies.
    cases hbytes : Encoding.instr (i.map (code.distanceTo (offset + i.size))) ++
        code.encodeFrom (offset + i.size) is with
    | nil =>
      have hpos := Decoding.size_pos i
      have := congrArg List.length hbytes
      simp at this
      omega
    | cons b bs =>
      have htaken : (b :: bs).length - (code.encodeFrom (offset + i.size) is).length = i.size := by
        rw [← hbytes, length_append, hlen]
        omega
      rw [linesFrom, ← hbytes, hread, hbytes]
      simp only [Option.bind_eq_bind, Option.bind_some, htaken, Nat.add_assoc, hih]
      rfl

theorem getElem?_linesOf (code : Code) (base offset : Nat) (rest : Code) (k : Nat) :
    (linesOf code base offset rest)[k]? = rest[k]?.map fun i =>
      ⟨base + (offset + Code.offsetOf rest k),
       i.map (code.distanceTo (offset + Code.offsetOf rest (k + 1))),
       base + (offset + Code.offsetOf rest (k + 1))⟩ := by
  induction rest generalizing offset k with
  | nil => rfl
  | cons _ _ ih =>
    cases k with
    | zero => simp [linesOf]
    | succ => simp [linesOf, ih, Nat.add_assoc]

/-- The addresses of the lines are those at which the instructions were put. -/
theorem addresses_linesOf (base : Nat) (h : code ≠ []) :
    addresses (linesOf code base 0 code) =
      (List.range (code.length + 1)).map (base + Code.offsetOf code ·) := by
  have hpos : 0 < code.length := length_pos_iff.mpr h
  -- The last line also tells where the code ends.
  have hlast : (linesOf code base 0 code).getLast? =
      some ⟨base + (0 + Code.offsetOf code (code.length - 1)),
        code[code.length - 1].map (code.distanceTo (0 + Code.offsetOf code code.length)),
        base + (0 + Code.offsetOf code code.length)⟩ := by
    rw [getLast?_eq_getElem?, length_linesOf, getElem?_linesOf,
      getElem?_eq_getElem (by omega), Nat.sub_add_cancel hpos]
    rfl
  rw [addresses, hlast]
  apply ext_getElem?
  intro _
  rw [range_succ, map_append, getElem?_append, getElem?_append]
  simp only [length_map, length_linesOf, length_range, getElem?_map, getElem?_linesOf, Nat.zero_add]
  split
  next hk => simp [hk]
  next => rw [← getElem?_map]; rfl

/-- The line of the instruction with an index. -/
theorem getElem?_linesOf_zero (code : Code) (base k : Nat) :
    (linesOf code base 0 code)[k]? = code[k]?.map fun i =>
      ⟨base + Code.offsetOf code k, i.map (code.distanceTo (Code.offsetOf code (k + 1))),
       base + Code.offsetOf code (k + 1)⟩ := by
  simp [getElem?_linesOf]

/-- A distance that was put in place leads to the address of its target. -/
theorem targetAddress_distanceTo (hsize : Code.byteSize code < 2 ^ 31) (base : Nat) {k : Nat}
    (hk : k ≤ code.length) (hn : n ≤ code.length) {l : Line}
    (hstop : l.stop = base + Code.offsetOf code k) :
    l.targetAddress (code.distanceTo (Code.offsetOf code k) (some n)) =
      (base + Code.offsetOf code n : Nat) := by
  have h₁ := Code.offsetOf_le_byteSize hk
  have h₂ := Code.offsetOf_le_byteSize hn
  have hword : Int32.size = 2 ^ 32 := rfl
  rw [Line.targetAddress, Code.distanceTo, Int32.toInt_ofInt, hstop, Option.getD_some,
    Int.bmod_eq_of_le (by omega) (by omega)]
  omega

/-- The address of an instruction belongs to its index only. -/
theorem indexAt?_linesOf (base : Nat) (hne : code ≠ []) (hn : n ≤ code.length) :
    indexAt? (linesOf code base 0 code) (base + Code.offsetOf code n : Nat) = some n := by
  rw [indexAt?, addresses_linesOf base hne, findIdx?_eq_some_iff_getElem]
  refine ⟨by simp; omega, by simp, ?_⟩
  intro _ hj
  have := Code.offsetOf_lt_offsetOf hj hn
  simp
  omega

/-- A branch that does not lead nowhere has a target in the code or at its end. -/
theorem exists_target (h : ∀ k, ¬ code.Dangling k) {k : Nat} {i : Instr (Option Nat)}
    (hi : code[k]? = some i) {t : Option Nat} (ht : i.target? = some t) :
    ∃ n, t = some n ∧ n ≤ code.length := by
  have hd : ¬ (∀ n, t = some n → code.length < n) := fun hall => h k ⟨i, t, hi, ht, hall⟩
  simpa using hd

/-- The code of the listing is the code that was assembled. -/
theorem codeOf_linesOf (base : Nat) (hsize : Code.byteSize code < 2 ^ 31)
    (h : ∀ k, ¬ code.Dangling k) : codeOf (linesOf code base 0 code) = code := by
  apply ext_getElem?
  intro k
  rw [codeOf, getElem?_map, getElem?_linesOf_zero, Option.map_map]
  cases hi : code[k]? with
  | none => rfl
  | some _ =>
    obtain ⟨hk, -⟩ := List.getElem?_eq_some_iff.mp hi
    have hne : code ≠ [] := by rintro rfl; simp at hk
    simp only [Option.map_some, Function.comp_apply, Instr.map_map, Option.some.injEq]
    -- Only targets are changed on the way, and each one is read back as the index it came from.
    apply Instr.map_eq_self
    intro _ ht
    obtain ⟨_, rfl, hn⟩ := exists_target h hi ht
    rw [targetAddress_distanceTo hsize _ (by omega) hn rfl]
    exact indexAt?_linesOf base hne hn

/-- Lines that begin at the entry of a file and go on without a gap to the end of its
segment. -/
structure Covers (m : LoadedImage) (lines : List Line) : Prop where
  first : ∀ l, lines[0]? = some l → l.address = m.entry
  next : ∀ (k : Nat) l l', lines[k]? = some l → lines[k + 1]? = some l' → l'.address = l.stop
  last : ∀ l, lines[lines.length - 1]? = some l → l.stop = m.stop

/-- The listing covers the file whose bytes were assembled. -/
theorem covers_linesOf (code : Code) :
    Covers ⟨Image.entryAddress, Image.loadAddress, Image.ofCode (code.encodeFrom 0 code)⟩
      (linesOf code Image.entryAddress 0 code) where
  first l hl := by
    rw [getElem?_linesOf_zero] at hl
    obtain ⟨_, -, rfl⟩ := Option.map_eq_some_iff.mp hl
    simp
  next k l l' hl hl' := by
    rw [getElem?_linesOf_zero] at hl hl'
    obtain ⟨_, -, rfl⟩ := Option.map_eq_some_iff.mp hl
    obtain ⟨_, -, rfl⟩ := Option.map_eq_some_iff.mp hl'
    rfl
  last l hl := by
    rw [getElem?_linesOf_zero] at hl
    obtain ⟨_, hi, rfl⟩ := Option.map_eq_some_iff.mp hl
    obtain ⟨hk, -⟩ := List.getElem?_eq_some_iff.mp hi
    rw [length_linesOf] at hk ⊢
    simp only [LoadedImage.stop, Image.length_ofCode, Code.length_encodeFrom, Image.entryAddress,
      Code.byteSize, Nat.sub_add_cancel (by omega : 1 ≤ code.length)]
    omega

/-- Reading the file gives the lines of the code. -/
theorem disassemble_ofCode (hsize : Code.byteSize code < 2 ^ 31) :
    disassemble (Image.ofCode (code.encodeFrom 0 code)) =
      some (linesOf code Image.entryAddress 0 code) := by
  have hlen : (code.encodeFrom 0 code).length = Code.byteSize code :=
    Code.length_encodeFrom code 0 code
  have hheaders : Image.headersSize = 120 := rfl
  have hfits : Image.headersSize + (code.encodeFrom 0 code).length < 2 ^ 64 := by omega
  have hbound : code.length ≤ (code.encodeFrom 0 code).length := by
    rw [hlen]
    exact Code.length_le_byteSize code
  simp only [disassemble, Image.load?_ofCode hfits, Option.bind_eq_bind, Option.bind_some,
    Image.bytesFrom_entry]
  exact linesFrom_encodeFrom code Image.entryAddress 0 code hbound

/-- Assembling fails exactly if a branch leads nowhere, and names the first such
branch. Otherwise the file made from the bytes can be read: its lines cover it from
the entry to the end, are the code again, and each branch leads to the address of the
instruction that it names. -/
theorem disassemble_assemble (code : Code) (hsize : Code.byteSize code < 2 ^ 31) :
    ((∃ e, code.assemble = .error e) ↔ ∃ k, code.Dangling k) ∧
    (∀ k, code.assemble = .error ⟨k⟩ → code.Dangling k ∧ ∀ j < k, ¬ code.Dangling j) ∧
    ((¬ ∃ k, code.Dangling k) → ∃ bytes m lines,
      code.assemble = .ok bytes ∧ Image.load? (Image.ofCode bytes) = some m ∧
      disassemble (Image.ofCode bytes) = some lines ∧ Covers m lines ∧ codeOf lines = code ∧
      ∀ (k : Nat) i n, code[k]? = some i → i.target? = some (some n) → ∃ l d a,
        lines[k]? = some l ∧ l.instr.target? = some d ∧ (addresses lines)[n]? = some a ∧
        l.targetAddress d = (a : Nat)) := by
  have hok : (∀ k, ¬ code.Dangling k) → code.assemble = .ok (code.encodeFrom 0 code) :=
    fun h => Code.assemble_ok_iff.mpr ⟨h, rfl⟩
  refine ⟨⟨?_, ?_⟩, fun k => Code.assemble_error_iff.mp, ?_⟩
  · rintro ⟨⟨k⟩, he⟩
    exact ⟨k, (Code.assemble_error_iff.mp he).1⟩
  · rintro ⟨k, hk⟩
    cases ha : code.assemble with
    | error e => exact ⟨e, rfl⟩
    | ok _ =>
      exact absurd hk ((Code.assemble_ok_iff.mp ha).1 k)
  · intro hnone
    have hd : ∀ k, ¬ code.Dangling k := fun k hk => hnone ⟨k, hk⟩
    have hlen : (code.encodeFrom 0 code).length = Code.byteSize code :=
      Code.length_encodeFrom code 0 code
    have hheaders : Image.headersSize = 120 := rfl
    refine ⟨_, _, _, hok hd, Image.load?_ofCode (by omega), disassemble_ofCode hsize,
      covers_linesOf code, codeOf_linesOf _ hsize hd, ?_⟩
    intro k i n hi ht
    obtain ⟨hk, -⟩ := List.getElem?_eq_some_iff.mp hi
    obtain ⟨n, hn', hn⟩ := exists_target hd hi ht
    cases hn'
    have hne : code ≠ [] := by rintro rfl; simp at hk
    have hline : (linesOf code Image.entryAddress 0 code)[k]? =
        some ⟨Image.entryAddress + Code.offsetOf code k,
          i.map (code.distanceTo (Code.offsetOf code (k + 1))),
          Image.entryAddress + Code.offsetOf code (k + 1)⟩ := by
      rw [getElem?_linesOf_zero, hi]
      rfl
    refine ⟨_, code.distanceTo (Code.offsetOf code (k + 1)) (some n),
      Image.entryAddress + Code.offsetOf code n, hline, by rw [Instr.target?_map, ht]; rfl, ?_,
      targetAddress_distanceTo hsize _ (by omega) hn rfl⟩
    rw [addresses_linesOf _ hne, getElem?_map, getElem?_range (by omega)]
    rfl

/-- A loop with a call, a branch forwards to its end and one backwards to its head. -/
def countdown : Code :=
  [.op (.aluImm .cmp .r12 0), .jumpIf .equal (some 6), .op (.pushMem ⟨.rsp, 8⟩),
   .call (some 6), .op (.aluImm .sub .r12 1), .jump (some 0)]

theorem disassemble_countdown : Code.byteSize countdown < 2 ^ 31 ∧ ∃ bytes lines,
    countdown.assemble = .ok bytes ∧ disassemble (Image.ofCode bytes) = some lines ∧
    codeOf lines = countdown := by
  have hsize : Code.byteSize countdown < 2 ^ 31 := by decide
  obtain ⟨hfails, -, hreads⟩ := disassemble_assemble countdown hsize
  have hok : ¬ ∃ e, countdown.assemble = .error e := by
    rintro ⟨_, he⟩
    have hnone : countdown.findIdx? (Code.isDangling countdown.length) = none := by decide
    rw [Code.assemble_eq, hnone] at he
    cases he
  obtain ⟨bytes, _, lines, hbytes, -, hlines, -, hcode, -⟩ := hreads fun hd => hok (hfails.mpr hd)
  exact ⟨hsize, bytes, lines, hbytes, hlines, hcode⟩

end Disassembly

end MiniJava
