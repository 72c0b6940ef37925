import Mmdata.Lib.TrieSearch
import Mmdata.Proofs.Binned

namespace Mmdata.Proofs
open Lib Malloc

/-- The tree index of a size, all of `S >> TREEBIN_SHIFT` taken into account, as in the
branches of `compute_tree_index` where `X` is a `size_t`. -/
def wholeTreeIndex (s : Nat) : Nat :=
  let x := s >>> 8
  if x = 0 then 0
  else if x > 0xFFFF then 31
  else
    let k := Nat.log2 x
    (k <<< 1) + ((s >>> (k + 7)) &&& 1)

/-- Sizes that get the index of the whole size, although `X` has 32 bits. -/
def Uncut (s : Nat) : Prop := computeTreeIndex s = wholeTreeIndex s

instance : Decidable (Uncut s) := inferInstanceAs (Decidable (_ = _))

/-- The sizes that belong in tree `i`, of those not cut. -/
def OfTree (i s : Nat) : Prop := 256 ≤ s ∧ s < 2 ^ 64 ∧ Uncut s ∧ computeTreeIndex s = i

section

variable {i j s t d nb : Nat}

theorem uncut_of_lt (h : s < 2 ^ 40) : Uncut s := by
  have hx : (s >>> 8) % 2 ^ 32 = s >>> 8 := by
    rw [Nat.shiftRight_eq_div_pow]
    omega
  unfold Uncut computeTreeIndex wholeTreeIndex
  simp only [hx]

theorem wholeTreeIndex_large (h : 2 ^ 40 ≤ s) : wholeTreeIndex s = 31 := by
  have hx : s >>> 8 > 0xFFFF := by
    rw [Nat.shiftRight_eq_div_pow]
    omega
  simp only [wholeTreeIndex]
  rw [if_neg (by omega), if_pos hx]

/-- Only a size of 2^40 bytes or more can be cut, and not if its index is the last one. -/
theorem uncut_iff : Uncut s ↔ s < 2 ^ 40 ∨ computeTreeIndex s = 31 := by
  by_cases hs : s < 2 ^ 40
  · exact iff_of_true (uncut_of_lt hs) (Or.inl hs)
  · rw [Uncut, wholeTreeIndex_large (by omega)]
    omega

theorem minsize_eq (i : Nat) : minsizeForTreeIndex i = (2 + i % 2) * 2 ^ (i / 2 + 7) := by
  have hhalf : i >>> 1 = i / 2 := by rw [Nat.shiftRight_eq_div_pow, Nat.pow_one]
  have hlt : (i % 2) * 2 ^ (i / 2 + 7) < 2 ^ (i / 2 + 8) := by
    have hpos : 0 < 2 ^ (i / 2 + 7) := Nat.two_pow_pos _
    have hm : i % 2 ≤ 1 := by omega
    have hle : (i % 2) * 2 ^ (i / 2 + 7) ≤ 1 * 2 ^ (i / 2 + 7) := Nat.mul_le_mul_right _ hm
    have hpow : 2 ^ (i / 2 + 8) = 2 ^ (i / 2 + 7) * 2 := Nat.pow_succ ..
    omega
  unfold minsizeForTreeIndex
  rw [hhalf, Nat.and_one_is_mod, Nat.shiftLeft_eq, Nat.shiftLeft_eq, Nat.add_sub_assoc (by decide),
    Nat.one_mul]
  rw [← Nat.one_mul (2 ^ (i / 2 + 8)), ← Nat.shiftLeft_eq 1, ← Nat.shiftLeft_add_eq_or_of_lt hlt,
    Nat.shiftLeft_eq, Nat.pow_succ]
  ring

theorem minsize_next (i : Nat) :
    minsizeForTreeIndex (i + 1) = (3 + i % 2) * 2 ^ (i / 2 + 7) := by
  rw [minsize_eq]
  cases Nat.mod_two_eq_zero_or_one i with
  | inl h =>
    rw [h, show (i + 1) % 2 = 1 by omega, show (i + 1) / 2 = i / 2 by omega]
  | inr h =>
    have hpow : 2 ^ (i / 2 + 1 + 7) = 2 ^ (i / 2 + 7) * 2 := Nat.pow_succ ..
    rw [h, show (i + 1) % 2 = 0 by omega, show (i + 1) / 2 = i / 2 + 1 by omega, hpow]
    omega

theorem minsize_succ (i : Nat) : minsizeForTreeIndex i < minsizeForTreeIndex (i + 1) := by
  rw [minsize_eq, minsize_next]
  exact Nat.mul_lt_mul_of_pos_right (by omega) (Nat.two_pow_pos _)

theorem minsize_mono (h : i ≤ j) : minsizeForTreeIndex i ≤ minsizeForTreeIndex j := by
  induction j with
  | zero =>
    have hi : i = 0 := by omega
    rw [hi]
  | succ j ih =>
    by_cases hij : i = j + 1
    · rw [hij]
    · exact Nat.le_trans (ih (by omega)) (Nat.le_of_lt (minsize_succ j))

/-- A size is in the range of its tree. -/
theorem OfTree.bounds (h : OfTree i s) :
    minsizeForTreeIndex i ≤ s ∧ (i < 31 → s < minsizeForTreeIndex (i + 1)) := by
  obtain ⟨h256, _, hcut, hi⟩ := h
  by_cases h40 : s < 2 ^ 40
  swap
  · have hlast := uncut_iff.mp hcut
    have hmin : minsizeForTreeIndex 31 = 12582912 := by decide
    have hi31 : i = 31 := by omega
    subst hi31
    exact ⟨by omega, by omega⟩
  have hx : (s >>> 8) % 2 ^ 32 = s / 256 := by
    rw [Nat.shiftRight_eq_div_pow]
    omega
  unfold computeTreeIndex at hi
  simp only [hx] at hi
  rw [if_neg (by omega)] at hi
  by_cases hbig : s / 256 > 0xFFFF
  · rw [if_pos hbig] at hi
    subst hi
    have hmin : minsizeForTreeIndex 31 = 12582912 := by decide
    exact ⟨by omega, by omega⟩
  · rw [if_neg hbig] at hi
    -- the power of two below the size, and the bit below its highest
    generalize hk : Nat.log2 (s / 256) = k at hi
    have hne : s / 256 ≠ 0 := by omega
    have hlo : 2 ^ k ≤ s / 256 := hk ▸ Nat.log2_self_le hne
    have hhi : s / 256 < 2 ^ (k + 1) := hk ▸ Nat.lt_log2_self
    have hp : 0 < 2 ^ (k + 7) := Nat.two_pow_pos _
    have h7 : 2 ^ (k + 7) = 2 ^ k * 128 := Nat.pow_add 2 k 7
    have h1 : 2 ^ (k + 1) = 2 ^ k * 2 := Nat.pow_succ ..
    rw [Nat.shiftLeft_eq, Nat.and_one_is_mod, Nat.shiftRight_eq_div_pow] at hi
    have hq : 2 ≤ s / 2 ^ (k + 7) ∧ s / 2 ^ (k + 7) < 4 := by
      constructor
      · rw [Nat.le_div_iff_mul_le hp]
        omega
      · rw [Nat.div_lt_iff_lt_mul hp]
        omega
    have hdiv : 2 ^ (k + 7) * (s / 2 ^ (k + 7)) + s % 2 ^ (k + 7) = s := Nat.div_add_mod ..
    have hmod : s % 2 ^ (k + 7) < 2 ^ (k + 7) := Nat.mod_lt _ hp
    generalize s / 2 ^ (k + 7) = q at *
    have hi2 : i / 2 = k := by omega
    rw [minsize_eq, minsize_next, hi2]
    have hcase : q = 2 ∧ i % 2 = 0 ∨ q = 3 ∧ i % 2 = 1 := by omega
    rcases hcase with ⟨rfl, h2⟩ | ⟨rfl, h2⟩
    · rw [h2]
      omega
    · rw [h2]
      omega

/-- What an earlier tree holds is below what a later tree holds. -/
theorem OfTree.lt (hs : OfTree i s) (ht : OfTree j t) (h : i < j) : s < t := by
  have hj : j < 32 := ht.2.2.2 ▸ computeTreeIndex_lt t
  have h1 := hs.bounds.2 (by omega)
  have h2 := minsize_mono (show i + 1 ≤ j from h)
  have h3 := ht.bounds.1
  omega

/-- The bits of tree `i` are those of the size from this one down. -/
def topBit (i : Nat) : Nat := 63 - leftshiftForTreeIndex i

theorem sizeBit_eq (hi : i < 32) : sizeBit i s d = (decide (d ≤ topBit i) && s.testBit (topBit i - d)) := by
  have hshift : leftshiftForTreeIndex i ≤ 63 := by
    unfold leftshiftForTreeIndex
    split
    · omega
    · omega
  unfold sizeBit topBit
  rw [shlSize, Nat.testBit_mod_two_pow, Nat.testBit_shiftLeft]
  by_cases hd : d ≤ 63 - leftshiftForTreeIndex i
  · rw [show 63 - leftshiftForTreeIndex i - d = 63 - (leftshiftForTreeIndex i + d) by omega]
    simp [hd, show leftshiftForTreeIndex i + d ≤ 63 by omega]
  · simp [hd, show ¬ leftshiftForTreeIndex i + d ≤ 63 by omega]

/-- Above the bits that it branches on, the sizes of a tree agree. -/
theorem OfTree.high (hs : OfTree i s) (ht : OfTree i t) (h : topBit i < j) :
    s.testBit j = t.testBit j := by
  have hi : i < 32 := hs.2.2.2 ▸ computeTreeIndex_lt s
  have hs64 := hs.2.1
  have ht64 := ht.2.1
  by_cases h31 : i = 31
  · subst h31
    have hj : 64 ≤ j := by
      simp only [topBit, leftshiftForTreeIndex, if_true] at h
      omega
    have hpow : 2 ^ 64 ≤ 2 ^ j := Nat.pow_le_pow_right (by decide) hj
    rw [Nat.testBit_lt_two_pow (by omega), Nat.testBit_lt_two_pow (by omega)]
  · have htop : topBit i = i / 2 + 6 := by
      simp only [topBit, leftshiftForTreeIndex, if_neg h31, Nat.shiftRight_eq_div_pow, Nat.pow_one]
      omega
    -- both sizes start with the same two bits
    have hfirst : ∀ u, OfTree i u → u / 2 ^ (i / 2 + 7) = 2 + i % 2 := by
      intro u hu
      obtain ⟨h1, h2⟩ := hu.bounds
      have h3 := h2 (by omega)
      rw [minsize_eq] at h1
      rw [minsize_next, show 3 + i % 2 = 2 + i % 2 + 1 by omega] at h3
      exact Nat.div_eq_of_lt_le h1 h3
    have hbit : ∀ u, u.testBit j = (u / 2 ^ (i / 2 + 7)).testBit (j - (i / 2 + 7)) := by
      intro u
      rw [← Nat.shiftRight_eq_div_pow, Nat.testBit_shiftRight]
      congr 1
      omega
    rw [hbit s, hbit t, hfirst s hs, hfirst t ht]

/-- The bits that a tree branches on order its sizes. -/
theorem ofTree_bitOrder (i : Nat) : BitOrder (sizeBit i) (OfTree i) := by
  intro x y d hx hy hagree hxd hyd
  have hi : i < 32 := hx.2.2.2 ▸ computeTreeIndex_lt x
  rw [sizeBit_eq hi] at hxd hyd
  rw [Bool.and_eq_true, decide_eq_true_iff] at hyd
  obtain ⟨hd, hyd⟩ := hyd
  simp only [hd, decide_true, Bool.true_and] at hxd
  apply Nat.lt_of_testBit (topBit i - d) hxd hyd
  intro j hj
  by_cases hjt : topBit i < j
  · exact hx.high hy hjt
  · have ha := hagree (topBit i - j) (by omega)
    rw [sizeBit_eq hi, sizeBit_eq hi] at ha
    have hle : topBit i - j ≤ topBit i := by omega
    simp only [hle, decide_true, Bool.true_and] at ha
    rwa [show topBit i - (topBit i - j) = j by omega] at ha

end

end Mmdata.Proofs
