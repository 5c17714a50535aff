import Mathlib.Data.Nat.Bitwise

/-! Words of a fixed width with their low bits cleared. -/

namespace Masks
variable {x w k : ℕ}

/-- The mask with the low `k` of `w` bits cleared rounds down to a multiple of `2 ^ k`. -/
theorem and_mask (hx : x < 2 ^ w) (hk : k ≤ w) : x &&& (2 ^ w - 2 ^ k) = x / 2 ^ k * 2 ^ k := by
  have hmask : 2 ^ w - 2 ^ k = (2 ^ (w - k) - 1) <<< k := by
    rw [Nat.shiftLeft_eq, Nat.sub_mul, ← pow_add, Nat.sub_add_cancel hk, Nat.one_mul]
  rw [hmask, ← Nat.shiftRight_eq_div_pow, ← Nat.shiftLeft_eq]
  refine Nat.eq_of_testBit_eq fun j => ?_
  rw [Nat.testBit_and, Nat.testBit_shiftLeft, Nat.testBit_shiftLeft, Nat.testBit_shiftRight,
    Nat.testBit_two_pow_sub_one]
  by_cases hj : k ≤ j
  · have hsum : k + (j - k) = j := by omega
    by_cases hj' : j < w
    · have hlt : j - k < w - k := by omega
      simp only [hj, hlt, hsum, decide_true, Bool.and_true, Bool.true_and]
    · have hz : x.testBit j = false :=
        Nat.testBit_lt_two_pow (hx.trans_le (Nat.pow_le_pow_right (by decide) (by omega)))
      simp only [hsum, hz, Bool.and_false, Bool.false_and]
  · simp only [hj, decide_false, Bool.false_and, Bool.and_false]

end Masks
