import MiniJava.Proofs.Machine.Execution

/-!
# Memory

What a write does to the bytes and words of memory. Addresses are numbers, and a
range of memory is never so long that it would begin again at zero, so two ranges are
apart if one ends before the other begins.

The last part turns the arithmetic of addresses in registers into that of numbers
(`address_of_disp`): a displacement that fits into 32 bits moves an address by itself.
-/

namespace MiniJava

open List

namespace Execution

variable {a : Nat} {d : Int}

namespace Memory

theorem writeBytes_apply (mem : Memory) (address : Nat) (bytes : List UInt8) (a : Nat) :
    mem.writeBytes address bytes a =
      if a < address then mem a else bytes.getD (a - address) (mem a) := rfl

variable {address : Nat} {mem : Memory} {bytes : List UInt8}

/-- A write leaves alone what is not in its range. -/
theorem writeBytes_of_apart (h : a < address ∨ address + bytes.length ≤ a) :
    mem.writeBytes address bytes a = mem a := by
  rw [writeBytes_apply]
  split
  next => rfl
  next =>
    rw [getD_eq_getElem?_getD, getElem?_eq_none (by omega)]
    rfl

theorem writeBytes_of_mem {i : Nat} {b : UInt8} (h : bytes[i]? = some b) :
    mem.writeBytes address bytes (address + i) = b := by
  rw [writeBytes_apply, if_neg (by omega), Nat.add_sub_cancel_left, getD_eq_getElem?_getD, h]
  rfl

theorem bytesAt_congr {mem' : Memory} {count : Nat}
    (h : ∀ a, address ≤ a → a < address + count → mem' a = mem a) :
    mem'.bytesAt address count = mem.bytesAt address count := by
  apply map_congr_left
  intro _ hi
  have hi := mem_range.mp hi
  exact h _ (by omega) (by omega)

theorem readWord_congr {mem' : Memory} (h : ∀ a, address ≤ a → a < address + 8 → mem' a = mem a) :
    mem'.readWord address = mem.readWord address := by
  rw [readWord, readWord, bytesAt_congr h]

theorem readWord_writeBytes_of_apart (h : a + 8 ≤ address ∨ address + bytes.length ≤ a) :
    (mem.writeBytes address bytes).readWord a = mem.readWord a := by
  apply readWord_congr
  intro _ _ _
  exact writeBytes_of_apart (by omega)

theorem bytesAt_writeBytes (mem : Memory) (address : Nat) (bytes : List UInt8) :
    (mem.writeBytes address bytes).bytesAt address bytes.length = bytes := by
  apply ext_getElem?
  intro i
  rw [bytesAt, getElem?_map]
  by_cases hi : i < bytes.length
  · rw [getElem?_range hi, Option.map_some, getElem?_eq_getElem hi,
      writeBytes_of_mem (getElem?_eq_getElem hi)]
  · rw [getElem?_eq_none (by simpa using hi), getElem?_eq_none (by omega),
      Option.map_none]

/-- A word that was written is read back. -/
theorem readWord_writeWord (mem : Memory) (address : Nat) (w : Word) :
    (mem.writeWord address w).readWord address = w := by
  have hbytes := bytesAt_writeBytes mem address (littleEndian 8 w.toNat)
  rw [length_littleEndian] at hbytes
  rw [readWord, writeWord, hbytes, Decoding.ofLittleEndian_littleEndian]
  have hlt := w.isLt
  rw [Nat.mod_eq_of_lt (by omega), BitVec.ofNat_toNat, BitVec.setWidth_eq]

theorem readWord_writeWord_of_apart (w : Word) (h : a + 8 ≤ address ∨ address + 8 ≤ a) :
    (mem.writeWord address w).readWord a = mem.readWord a :=
  readWord_writeBytes_of_apart (by rwa [length_littleEndian])

/-- Fresh memory holds zeros. -/
theorem readWord_writeBytes_zero {size : Nat} (h : address ≤ a) (h' : a + 8 ≤ address + size) :
    (mem.writeBytes address (List.replicate size 0)).readWord a = 0 := by
  have hbytes : (mem.writeBytes address (List.replicate size 0)).bytesAt a 8 =
      List.replicate 8 0 := by
    rw [eq_replicate_iff]
    refine ⟨by simp [bytesAt], ?_⟩
    intro _ hb
    obtain ⟨_, hi, rfl⟩ := mem_map.mp hb
    have hi := mem_range.mp hi
    obtain ⟨d, rfl⟩ : ∃ d, a = address + d := ⟨a - address, by omega⟩
    rw [Nat.add_assoc]
    exact writeBytes_of_mem (getElem?_replicate_of_lt (by omega))
  rw [readWord, hbytes]
  rfl

end Memory

/-! ## Addresses -/

theorem signExtend_ofInt (h : -2 ^ 31 ≤ d) (h' : d < 2 ^ 31) :
    (Int32.ofInt d).toBitVec.signExtend 64 = BitVec.ofInt 64 d := by
  apply BitVec.eq_of_toInt_eq
  rw [BitVec.toInt_signExtend_of_le (by omega), BitVec.toInt_ofInt]
  have hd : (Int32.ofInt d).toBitVec.toInt = d := by
    show (Int32.ofInt d).toInt = d
    exact Int32.toInt_ofInt_of_le (by omega) (by omega)
  rw [hd, Int.bmod_eq_of_le (by omega) (by omega)]

theorem ofNat_add_ofInt {b : Nat} (h : (a : Int) + d = b) :
    BitVec.ofNat 64 a + BitVec.ofInt 64 d = BitVec.ofNat 64 b := by
  apply BitVec.eq_of_toInt_eq
  rw [← BitVec.ofInt_natCast, ← BitVec.ofInt_natCast, ← BitVec.ofInt_add, h]

theorem toNat_ofNat_add_ofInt {b : Nat} (h : (a : Int) + d = b) (hb : b < 2 ^ 64) :
    (BitVec.ofNat 64 a + BitVec.ofInt 64 d).toNat = b := by
  rw [ofNat_add_ofInt h, BitVec.toNat_ofNat, Nat.mod_eq_of_lt hb]

/-- A displacement that fits into 32 bits moves an address by itself. -/
theorem address_of_disp {m : Machine} {base : Reg} {b : Nat}
    (hbase : m.regs base = BitVec.ofNat 64 a) (h : (a : Int) + d = b) (hb : b < 2 ^ 64)
    (hd : -2 ^ 31 ≤ d) (hd' : d < 2 ^ 31) : m.address ⟨base, Int32.ofInt d⟩ = b := by
  rw [Machine.address, hbase, signExtend_ofInt hd hd', toNat_ofNat_add_ofInt h hb]

end Execution

end MiniJava
