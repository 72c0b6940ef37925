import Mathlib.Data.Nat.Bitwise
import Mmdata.Lib.Words

namespace Mmdata.Lib

/-- Around bit `i`: the higher bits, the bit, the lower bits. -/
theorem split_bit (x i : Nat) :
    x = 2 ^ i * (2 * (x / 2 ^ (i + 1)) + (x.testBit i).toNat) + x % 2 ^ i := by
  have hb : (x.testBit i).toNat = x / 2 ^ i % 2 := by rw [Nat.toNat_testBit]
  have hq : x / 2 ^ (i + 1) = x / 2 ^ i / 2 := by rw [Nat.pow_succ, Nat.div_div_eq_div_mul]
  have hd := Nat.div_add_mod x (2 ^ i)
  have hh : 2 * (x / 2 ^ (i + 1)) + (x.testBit i).toNat = x / 2 ^ i := by
    rw [hb, hq]
    exact Nat.div_add_mod _ 2
  rw [hh]
  exact hd.symm

theorem testBit_split {i r : Nat} (q : Nat) (b : Bool) (hr : r < 2 ^ i) (j : Nat) :
    (2 ^ i * (2 * q + b.toNat) + r).testBit j =
      if j < i then r.testBit j else if j = i then b else q.testBit (j - i - 1) := by
  rw [Nat.testBit_two_pow_mul_add _ hr]
  split
  · rfl
  · split
    · rename_i hj
      subst hj
      cases b <;> simp
    · rename_i h1 h2
      obtain ⟨k, hk⟩ : ∃ k, j - i = k + 1 := ⟨j - i - 1, by omega⟩
      have hk' : j - i - 1 = k := by omega
      rw [hk', hk, Nat.testBit_succ]
      have hhalf : (2 * q + b.toNat) / 2 = q := by
        cases b
        · simp
        · simp only [Bool.toNat_true]
          omega
      rw [hhalf]

/-- Clearing one bit. -/
theorem testBit_clear (x i j : Nat) :
    (x - (x &&& 2 ^ i)).testBit j = (x.testBit j && decide (i ≠ j)) := by
  have hr : x % 2 ^ i < 2 ^ i := Nat.mod_lt _ (Nat.two_pow_pos i)
  have hx := split_bit x i
  have hc : x - (x &&& 2 ^ i) =
      2 ^ i * (2 * (x / 2 ^ (i + 1)) + false.toNat) + x % 2 ^ i := by
    rw [Nat.and_two_pow]
    have hm : 2 ^ i * (2 * (x / 2 ^ (i + 1)) + (x.testBit i).toNat) =
        2 ^ i * (2 * (x / 2 ^ (i + 1)) + false.toNat) + (x.testBit i).toNat * 2 ^ i := by
      simp only [Bool.toNat_false]
      ring
    omega
  have hxj := testBit_split (x / 2 ^ (i + 1)) (x.testBit i) hr j
  rw [← hx] at hxj
  rw [hc, testBit_split _ false hr, hxj]
  by_cases h : j < i
  · have hne : i ≠ j := by omega
    simp [h, hne]
  · by_cases hj : j = i
    · simp [hj]
    · have hne : i ≠ j := fun he => hj he.symm
      simp [h, hj, hne]

theorem testBit_set (x i j : Nat) : (x ||| 2 ^ i).testBit j = (x.testBit j || decide (i = j)) := by
  rw [Nat.testBit_or, Nat.testBit_two_pow]

theorem and_two_pow_ne_zero (x i : Nat) : (x &&& 2 ^ i != 0) = x.testBit i := by
  rw [Nat.and_two_pow]
  have hp : 2 ^ i ≠ 0 := Nat.pos_iff_ne_zero.mp (Nat.two_pow_pos i)
  cases x.testBit i <;> simp

/-- A nonzero word has a lowest set bit. -/
theorem exists_lowest (x : Nat) (h : x ≠ 0) :
    ∃ i, x.testBit i = true ∧ ∀ j, j < i → x.testBit j = false := by
  have he := Nat.exists_testBit_of_ne_zero h
  refine ⟨Nat.find he, Nat.find_spec he, fun j hj => ?_⟩
  simpa using Nat.find_min he hj

/-- `x & -x` keeps exactly the lowest set bit. -/
theorem testBit_and_neg {x n i : Nat} (hx : x < 2 ^ n) (hi : x.testBit i = true)
    (hl : ∀ j, j < i → x.testBit j = false) (j : Nat) :
    (x &&& ((2 ^ n - x) % 2 ^ n)).testBit j = decide (i = j) := by
  have hmod : x % 2 ^ i = 0 := by
    apply Nat.eq_of_testBit_eq
    intro k
    rw [Nat.testBit_mod_two_pow, Nat.zero_testBit]
    by_cases hk : k < i
    · simp [hk, hl k hk]
    · simp [hk]
  have hsplit := split_bit x i
  rw [hi, hmod] at hsplit
  have hone : 0 < 2 ^ i := Nat.two_pow_pos i
  have hpos : 0 < x := by
    rw [hsplit]
    simp only [Bool.toNat_true]
    positivity
  have hin : i < n := by
    by_contra hge
    have hlt : x < 2 ^ i := Nat.lt_of_lt_of_le hx (Nat.pow_le_pow_right (by omega) (by omega))
    simp [Nat.testBit_lt_two_pow hlt] at hi
  -- below the lowest set bit, `x - 1` is all ones; above it, it is `x`
  have hpred : x - 1 = 2 ^ i * (2 * (x / 2 ^ (i + 1)) + false.toNat) + (2 ^ i - 1) := by
    simp only [Bool.toNat_true, Bool.toNat_false, Nat.add_zero] at hsplit ⊢
    have hm : 2 ^ i * (2 * (x / 2 ^ (i + 1)) + 1) =
        2 ^ i * (2 * (x / 2 ^ (i + 1))) + 2 ^ i := by ring
    omega
  have hneg : (2 ^ n - x) % 2 ^ n = 2 ^ n - (x - 1 + 1) := by
    rw [Nat.mod_eq_of_lt (by omega)]
    congr 1
    omega
  have hlow : 2 ^ i - 1 < 2 ^ i := by omega
  have hxj := testBit_split (x / 2 ^ (i + 1)) true (Nat.two_pow_pos i) j
  simp only [Nat.add_zero] at hxj hsplit
  rw [← hsplit] at hxj
  rw [Nat.testBit_and, hneg, Nat.testBit_two_pow_sub_succ (by omega), hpred,
    testBit_split _ false hlow, hxj]
  by_cases hj : j < i
  · have hne : i ≠ j := by omega
    simp [hj, hne]
  · by_cases he : j = i
    · subst he
      simp [hin]
    · have hne : i ≠ j := fun hc => he hc.symm
      simp only [hj, he, hne, if_false, decide_false]
      cases (x / 2 ^ (i + 1)).testBit (j - i - 1) <;> simp

/-- Finding the lowest set bit of a word with exactly one bit set. -/
theorem find_only_bit {x n i : Nat} (hi : i < n) (h : ∀ j, x.testBit j = decide (i = j)) :
    (List.range n).find? (fun j => x.testBit j) = some i := by
  apply List.find?_range_eq_some.mpr
  refine ⟨by simp [h], by simpa using hi, fun j hj => ?_⟩
  have hne : i ≠ j := by omega
  simp [h, hne]

end Mmdata.Lib
