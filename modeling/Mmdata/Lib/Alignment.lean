import Mathlib.Data.Nat.Bitwise

/-! Rounding to powers of two, on natural numbers and on words of a fixed width. -/

namespace Mmdata.Lib

/-- Masking with the negative of a power of two, in words of `w` bits, rounds down. -/
theorem and_neg_two_pow {x k w : Nat} (hx : x < 2 ^ w) (hk : k ≤ w) :
    x &&& (2 ^ w - 2 ^ k) = x / 2 ^ k * 2 ^ k := by
  have hmask : 2 ^ w - 2 ^ k = (2 ^ (w - k) - 1) <<< k := by
    rw [Nat.shiftLeft_eq, Nat.sub_mul, Nat.one_mul, ← Nat.pow_add, Nat.sub_add_cancel hk]
  have hround : x / 2 ^ k * 2 ^ k = (x >>> k) <<< k := by
    rw [Nat.shiftLeft_eq, Nat.shiftRight_eq_div_pow]
  rw [hmask, hround]
  apply Nat.eq_of_testBit_eq
  intro j
  rw [Nat.testBit_and, Nat.testBit_shiftLeft, Nat.testBit_shiftLeft, Nat.testBit_two_pow_sub_one,
    Nat.testBit_shiftRight]
  by_cases hj : k ≤ j
  · rw [show k + (j - k) = j by omega]
    by_cases hw : j < w
    · simp [hj, show j - k < w - k by omega]
    · have hlt : x < 2 ^ j :=
        Nat.lt_of_lt_of_le hx (Nat.pow_le_pow_right (by decide) (by omega))
      simp [Nat.testBit_lt_two_pow hlt]
  · simp [hj]

/-- The next multiple of `a`. -/
def roundUp (x a : Nat) : Nat := (x + a - 1) / a * a

theorem dvd_roundUp (x a : Nat) : a ∣ roundUp x a := Nat.dvd_mul_left a _

theorem le_roundUp {x a : Nat} (ha : 0 < a) : x ≤ roundUp x a := by
  have hmod := Nat.mod_lt (x + a - 1) ha
  have hdiv := Nat.div_add_mod' (x + a - 1) a
  unfold roundUp
  omega

theorem roundUp_lt {x a : Nat} (ha : 0 < a) : roundUp x a < x + a := by
  have hle := Nat.div_mul_le_self (x + a - 1) a
  unfold roundUp
  omega

/-- What is no multiple is rounded up by something. -/
theorem lt_roundUp {x a : Nat} (ha : 0 < a) (hx : x % a ≠ 0) : x < roundUp x a := by
  have hle := le_roundUp (x := x) ha
  by_contra hge
  have he : roundUp x a = x := by omega
  exact hx (Nat.mod_eq_zero_of_dvd (he ▸ dvd_roundUp x a))

/-- Rounding down what is short of the next multiple by less than the divisor. -/
theorem and_neg_roundUp {x k w : Nat} (hx : x + 2 ^ k - 1 < 2 ^ w) (hk : k ≤ w) :
    (x + 2 ^ k - 1) &&& (2 ^ w - 2 ^ k) = roundUp x (2 ^ k) := and_neg_two_pow hx hk

end Mmdata.Lib
