import MiniJava.Machine.Encoding

/-!
# Code

A list of instructions whose branches name their targets by index. A branch may be
put down before its target is known and be patched later; in a word, the greatest
number stands for the target that is not known. Assembling turns
indices into distances; an index one past the last instruction is the end of the
code, and every other index must be that of an instruction.
-/

namespace MiniJava

/-- Instructions whose branches may still lack a target. -/
abbrev Code := List (Instr (Option Nat))

/-- A branch without a target, or with one outside of the code. -/
structure UnresolvedBranch where
  index : Nat
  deriving DecidableEq, Repr

namespace Code

/-- The target that a 64-bit word stands for. The greatest word is kept for branches
whose target is not known yet, so it is the index of no instruction. -/
def targetOfWord (w : UInt64) : Option Nat :=
  if w.toNat + 1 = UInt64.size then none else some w.toNat

/-- Every smaller number is the target that it names. -/
theorem targetOfWord_ofNat {n : Nat} (h : n + 1 < UInt64.size) :
    targetOfWord (UInt64.ofNat n) = some n := by
  have hn : (UInt64.ofNat n).toNat = n := UInt64.toNat_ofNat_of_lt (by omega)
  rw [targetOfWord, hn, if_neg (by omega)]

/-- Sets the target of the branch or call at an index, if there is one. -/
def patch? : Code → (index : Nat) → (target : Option Nat) → Option Code
  | i :: is, 0, target =>
    if i.target?.isSome then some (i.map (fun _ => target) :: is) else none
  | i :: is, n + 1, target => (patch? is n target).map (i :: ·)
  | [], _, _ => none

/-- The branches and calls with their indices and targets. -/
def targets (code : Code) : List (Nat × Option Nat) :=
  code.zipIdx.filterMap fun (i, index) => i.target?.map (index, ·)

/-- The byte offsets at which the instructions begin, and the one at which the
last of them ends, when the first begins at `offset`. -/
def startsFrom {α : Type} (offset : Nat) : List (Instr α) → List Nat
  | [] => [offset]
  | i :: is => offset :: startsFrom (offset + i.size) is

@[simp]
theorem length_startsFrom {α : Type} (offset : Nat) (code : List (Instr α)) :
    (startsFrom offset code).length = code.length + 1 := by
  induction code generalizing offset with
  | nil => rfl
  | cons i is ih => simp [startsFrom, ih]

/-- The distance to a target from the byte offset at which its branch ends. -/
def distance? (starts : Array Nat) (stop : Nat) (target : Option Nat) : Option Int32 := do
  let index ← target
  let start ← starts[index]?
  return Int32.ofInt ((start : Int) - stop)

/-- The bytes of the instructions from an index on. -/
def assembleFrom (starts : Array Nat) (index offset : Nat) :
    Code → Except UnresolvedBranch (List UInt8)
  | [] => .ok []
  | i :: is => do
    let stop := offset + i.size
    match i.traverse (distance? starts stop) with
    | none => .error ⟨index⟩
    | some near =>
      let others ← assembleFrom starts (index + 1) stop is
      return Encoding.instr near ++ others

/-- The bytes of the code. -/
def assemble (code : Code) : Except UnresolvedBranch (List UInt8) :=
  assembleFrom (startsFrom 0 code).toArray 0 0 code

end Code

end MiniJava
