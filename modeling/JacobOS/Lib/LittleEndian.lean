import Mathlib.Data.Nat.Bitwise
import Mathlib.Tactic.IntervalCases

/-!
# Little-endian words and the bits of a byte
-/

namespace LittleEndian

/-- Byte `r` of a 32-bit word, least significant first. -/
def wordByte (w : UInt32) (r : Nat) : UInt8 := UInt8.ofNat (w.toNat / 256 ^ r)

/-- The 32-bit word with the given bytes, least significant first. -/
def ofBytes (b0 b1 b2 b3 : UInt8) : UInt32 :=
  UInt32.ofNat (b0.toNat + 256 * b1.toNat + 65536 * b2.toNat + 16777216 * b3.toNat)

theorem wordByte_toNat (w : UInt32) (r : Nat) : (wordByte w r).toNat = w.toNat / 256 ^ r % 256 := by
  unfold wordByte
  rw [UInt8.toNat_ofNat']

theorem ofBytes_toNat (b0 b1 b2 b3 : UInt8) : (ofBytes b0 b1 b2 b3).toNat =
    b0.toNat + 256 * b1.toNat + 65536 * b2.toNat + 16777216 * b3.toNat := by
  have h0 := b0.toNat_lt
  have h1 := b1.toNat_lt
  have h2 := b2.toNat_lt
  have h3 := b3.toNat_lt
  unfold ofBytes
  rw [UInt32.toNat_ofNat', Nat.mod_eq_of_lt (by omega)]

@[simp] theorem ofBytes_wordByte (w : UInt32) :
    ofBytes (wordByte w 0) (wordByte w 1) (wordByte w 2) (wordByte w 3) = w := by
  have hw := w.toNat_lt
  apply UInt32.toNat_inj.mp
  rw [ofBytes_toNat]
  simp only [wordByte_toNat, pow_zero, pow_one, Nat.div_one, Nat.reducePow]
  omega

@[simp] theorem ofBytes_zero : ofBytes 0 0 0 0 = 0 := rfl

/-! ## Bits of a byte, tested and changed with shifted masks -/

def bitSet (x : UInt8) (j : Nat) : Bool := x &&& (1 <<< UInt8.ofNat j) != 0

def orBit (x : UInt8) (j : Nat) : UInt8 := x ||| (1 <<< UInt8.ofNat j)

def clearBit (x : UInt8) (j : Nat) : UInt8 := x &&& ~~~(1 <<< UInt8.ofNat j)

theorem mask_toNat {j : Nat} (hj : j < 8) : ((1 : UInt8) <<< UInt8.ofNat j).toNat = 2 ^ j := by
  interval_cases j <;> rfl

theorem bitSet_eq_testBit (x : UInt8) {j : Nat} (hj : j < 8) :
    bitSet x j = x.toNat.testBit j := by
  unfold bitSet
  have hval : (x &&& 1 <<< UInt8.ofNat j).toNat = 2 ^ j * (x.toNat.testBit j).toNat := by
    rw [UInt8.toNat_and, mask_toNat hj, Nat.and_two_pow]
    exact Nat.mul_comm _ _
  have hpos : 0 < 2 ^ j := Nat.two_pow_pos j
  cases hb : x.toNat.testBit j with
  | false =>
    have hz : x &&& 1 <<< UInt8.ofNat j = 0 := by
      apply UInt8.toNat_inj.mp
      rw [hval, hb]
      rfl
    rw [hz]
    rfl
  | true =>
    have hne : x &&& 1 <<< UInt8.ofNat j ≠ 0 := by
      intro hz
      rw [hz, hb] at hval
      change 0 = 2 ^ j * 1 at hval
      omega
    simpa using hne

theorem bitSet_orBit (x : UInt8) {j k : Nat} (hj : j < 8) (hk : k < 8) :
    bitSet (orBit x j) k = (bitSet x k || decide (j = k)) := by
  rw [bitSet_eq_testBit _ hk, bitSet_eq_testBit _ hk, orBit, UInt8.toNat_or, mask_toNat hj,
    Nat.testBit_or, Nat.testBit_two_pow]

theorem bitSet_clearBit (x : UInt8) {j k : Nat} (hj : j < 8) (hk : k < 8) :
    bitSet (clearBit x j) k = (bitSet x k && !decide (j = k)) := by
  have hmask : (~~~((1 : UInt8) <<< UInt8.ofNat j)).toNat = 255 - 2 ^ j := by
    rw [UInt8.toNat_not, mask_toNat hj]
    simp only [UInt8.size]
  have hbits : (255 - 2 ^ j).testBit k = !decide (j = k) := by
    interval_cases j <;> interval_cases k <;> rfl
  rw [bitSet_eq_testBit _ hk, bitSet_eq_testBit _ hk, clearBit, UInt8.toNat_and, hmask,
    Nat.testBit_and, hbits]

@[simp] theorem bitSet_zero (j : Nat) : bitSet 0 j = false := by
  simp [bitSet]

end LittleEndian
