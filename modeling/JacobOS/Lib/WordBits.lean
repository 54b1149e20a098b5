import Mathlib.Data.Nat.Bitwise

/-!
# Bits of a 32-bit word, tested and changed with shifted masks
-/

namespace WordBits

def mask (j : Nat) : UInt32 := 1 <<< UInt32.ofNat j

theorem toNat_mask {j : Nat} (hj : j < 32) : (mask j).toNat = 2 ^ j := by
  have hpow : 2 ^ j < 2 ^ 32 := Nat.pow_lt_pow_right (by decide) hj
  unfold mask
  have hshift : j % 2 ^ 32 % 32 = j := by omega
  rw [UInt32.toNat_shiftLeft, UInt32.toNat_ofNat', hshift]
  show 1 <<< j % 2 ^ 32 = 2 ^ j
  rw [Nat.one_shiftLeft, Nat.mod_eq_of_lt hpow]

theorem and_mask_ne_zero_iff (w : UInt32) {j : Nat} (hj : j < 32) :
    w &&& mask j ≠ 0 ↔ w.toNat.testBit j = true := by
  have hval : (w &&& mask j).toNat = (w.toNat.testBit j).toNat * 2 ^ j := by
    rw [UInt32.toNat_and, toNat_mask hj, Nat.and_two_pow]
  have hpos : 0 < 2 ^ j := Nat.two_pow_pos j
  rw [Ne, ← UInt32.toNat_inj, hval]
  cases w.toNat.testBit j with
  | false => simp
  | true => simp

theorem or_mask_and_mask (w : UInt32) {j k : Nat} (hj : j < 32) (hk : k < 32) :
    (w ||| mask j) &&& mask k ≠ 0 ↔ k = j ∨ w &&& mask k ≠ 0 := by
  rw [and_mask_ne_zero_iff _ hk, and_mask_ne_zero_iff _ hk, UInt32.toNat_or, toNat_mask hj,
    Nat.testBit_or, Nat.testBit_two_pow, Bool.or_eq_true, decide_eq_true_eq, or_comm, eq_comm]

theorem clear_mask_and_mask (w : UInt32) {j k : Nat} (hj : j < 32) (hk : k < 32) :
    (w &&& ~~~mask j) &&& mask k ≠ 0 ↔ k ≠ j ∧ w &&& mask k ≠ 0 := by
  have hbit : (~~~mask j).toNat.testBit k = !decide (j = k) := by
    have hnot : (~~~mask j).toNat = 2 ^ 32 - (2 ^ j + 1) := by
      rw [UInt32.toNat_not, toNat_mask hj]
      show 2 ^ 32 - 1 - 2 ^ j = _
      omega
    rw [hnot, Nat.testBit_two_pow_sub_succ (Nat.pow_lt_pow_right (by decide) hj),
      Nat.testBit_two_pow, decide_eq_true hk, Bool.true_and]
  rw [and_mask_ne_zero_iff _ hk, and_mask_ne_zero_iff _ hk, UInt32.toNat_and, Nat.testBit_and, hbit,
    Bool.and_eq_true, Bool.not_eq_true', decide_eq_false_iff_not, and_comm, eq_comm]

end WordBits
