import Mmdata.Lib.Bits
import Mmdata.Malloc.Layout

namespace Mmdata.Proofs
open Lib Malloc

/-- The head word of a chunk: its size, whether it is in use, and whether its
predecessor is. -/
def headWord (s : Nat) (pu cu : Bool) : Nat :=
  s + (if cu then 2 else 0) + (if pu then 1 else 0)

theorem and_seven (x : Nat) : x &&& 7 = x % 8 := Nat.and_two_pow_sub_one_eq_mod x 3

theorem and_three (x : Nat) : x &&& 3 = x % 4 := Nat.and_two_pow_sub_one_eq_mod x 2

theorem and_two (x : Nat) : x &&& 2 = x / 2 % 2 * 2 := by
  have h := Nat.and_two_pow x 1
  rw [Nat.toNat_testBit] at h
  simpa using h

section Words

variable {s : Nat} {pu cu : Bool}

theorem clearBits_headWord (hs : s % 8 = 0) : clearBits (headWord s pu cu) flagBits = s := by
  simp only [clearBits, flagBits, and_seven, headWord]
  cases pu <;> cases cu <;> simp <;> omega

theorem headWord_cinuse (hs : s % 8 = 0) : (headWord s pu cu &&& cinuseBit != 0) = cu := by
  simp only [cinuseBit, and_two, headWord]
  cases pu <;> cases cu <;> simp <;> omega

theorem headWord_pinuse (hs : s % 8 = 0) : (headWord s pu cu &&& pinuseBit != 0) = pu := by
  simp only [pinuseBit, Nat.and_one_is_mod, headWord]
  cases pu <;> cases cu <;> simp <;> omega

theorem headWord_inuse (hs : s % 8 = 0) :
    headWord s pu cu &&& inuseBits = inuseBits ↔ pu = true ∧ cu = true := by
  simp only [inuseBits, and_three, headWord]
  cases pu <;> cases cu <;> simp <;> omega

theorem or_pinuse (hs : s % 8 = 0) : s ||| pinuseBit = headWord s true false := by
  simp only [pinuseBit, or_one, headWord]
  simp
  omega

theorem or_both (hs : s % 8 = 0) : s ||| pinuseBit ||| cinuseBit = headWord s true true := by
  have h := Nat.two_pow_add_eq_or_of_lt (show 3 < 2 ^ 3 by omega) (s / 8)
  have hs8 : 2 ^ 3 * (s / 8) = s := by omega
  rw [hs8] at h
  rw [Nat.or_assoc]
  simpa [pinuseBit, cinuseBit, headWord] using h.symm

theorem low_or_inuse (hs : s % 8 = 0) :
    (if pu then 1 else 0) ||| s ||| cinuseBit = headWord s pu true := by
  cases pu with
  | true =>
    rw [if_pos rfl, Nat.or_comm 1 s]
    exact or_both hs
  | false =>
    have h := Nat.two_pow_add_eq_or_of_lt (show 2 < 2 ^ 3 by omega) (s / 8)
    have hs8 : 2 ^ 3 * (s / 8) = s := by omega
    rw [hs8] at h
    simpa [cinuseBit, headWord] using h.symm

theorem headWord_inj {t : Nat} {pv cv : Bool} (hs : s % 8 = 0) (ht : t % 8 = 0)
    (he : headWord s pu cu = headWord t pv cv) : s = t ∧ cu = cv := by
  simp only [headWord] at he
  cases pu <;> cases pv <;> cases cu <;> cases cv <;> simp at he ⊢ <;> omega

theorem headWord_low (hs : s % 8 = 0) : headWord s pu cu % 2 = if pu then 1 else 0 := by
  simp only [headWord]
  cases pu <;> cases cu <;> simp <;> omega

theorem headWord_setLow (hs : s % 8 = 0) : headWord s pu cu / 2 * 2 + 1 = headWord s true cu := by
  simp only [headWord]
  cases pu <;> cases cu <;> simp <;> omega

theorem clearBits_pinuse (hs : s % 8 = 0) :
    clearBits (headWord s pu cu) pinuseBit = headWord s false cu := by
  simp only [clearBits, pinuseBit, Nat.and_one_is_mod, headWord]
  cases pu <;> cases cu <;> simp <;> omega

theorem headWord_lt (h : s + 3 < 2 ^ 64) : headWord s pu cu < 256 ^ 8 := by
  simp only [headWord]
  cases pu <;> cases cu <;> simp <;> omega

end Words

/-! Reading heads. -/

section Rules

variable {D : Trap → Prop} {σ : State} {p s : Nat} {pu cu : Bool}

theorem wp_chunksize {Q : Nat → State → Prop} (h : σ.get 8 (p + 8) = some (headWord s pu cu))
    (hs : s % 8 = 0) : wp D (chunksize p) Q σ ↔ Q s σ := by
  rw [chunksize, wp_bind]
  simp only [head]
  rw [wp_load h, wp_pure, clearBits_headWord hs]

theorem wp_cinuse {Q : Bool → State → Prop} (h : σ.get 8 (p + 8) = some (headWord s pu cu))
    (hs : s % 8 = 0) : wp D (cinuse p) Q σ ↔ Q cu σ := by
  rw [cinuse, wp_bind]
  simp only [head]
  rw [wp_load h, wp_pure, headWord_cinuse hs]

theorem wp_pinuse {Q : Bool → State → Prop} (h : σ.get 8 (p + 8) = some (headWord s pu cu))
    (hs : s % 8 = 0) : wp D (pinuse p) Q σ ↔ Q pu σ := by
  rw [pinuse, wp_bind]
  simp only [head]
  rw [wp_load h, wp_pure, headWord_pinuse hs]

theorem wp_check {Q : Unit → State → Prop} {b : Bool} (h : b = true) :
    wp D (check b) Q σ ↔ Q () σ := by
  simp only [check, h, if_true]
  exact Iff.rfl

theorem wp_setSizeAndPinuseOfInuseChunk {Q : Unit → State → Prop} (hs : s % 8 = 0)
    (hp : σ.mapped (p + 8) 8 = true) :
    wp D (setSizeAndPinuseOfInuseChunk p s) Q σ ↔ Q () (σ.put 8 (p + 8) (headWord s true true)) := by
  simp only [setSizeAndPinuseOfInuseChunk, head, or_both hs]
  exact wp_store hp

theorem wp_setSizeAndPinuseOfFreeChunk {Q : Unit → State → Prop} (hs : s % 8 = 0)
    (hp : σ.mapped (p + 8) 8 = true) (hf : σ.mapped (p + s) 8 = true) :
    wp D (setSizeAndPinuseOfFreeChunk p s) Q σ ↔
      Q () ((σ.put 8 (p + 8) (headWord s true false)).put 8 (p + s) s) := by
  simp only [setSizeAndPinuseOfFreeChunk, setFoot, prevFoot, head, or_pinuse hs, wp_bind]
  rw [wp_store hp]
  exact wp_store hf

theorem wp_setInuseAndPinuse {Q : Unit → State → Prop} (hs : s % 8 = 0)
    (hp : σ.mapped (p + 8) 8 = true) (hn : σ.mapped (p + s + 8) 8 = true) :
    wp D (setInuseAndPinuse p s) Q σ ↔
      Q () ((σ.put 8 (p + 8) (headWord s true true)).setLow (p + s + 8)) := by
  simp only [setInuseAndPinuse, head, or_both hs, wp_bind]
  rw [wp_store hp]
  exact wp_setLowBit hn

/-- Every address from the base of the image on passes the address check. -/
theorem wp_okAddress {Q : Bool → State → Prop} {m a base : Nat}
    (h : σ.getPtr (m + 24) = some base) (ha : base ≤ a) :
    wp D (okAddress m a) Q σ ↔ Q true σ := by
  rw [okAddress, wp_bind]
  simp only [leastAddr]
  rw [wp_loadPtr h, wp_pure, decide_eq_true ha]

end Rules

/-! Bin maps. -/

theorem idx2bit_eq {i : Nat} (h : i < 32) : idx2bit i = 2 ^ i := by
  rw [idx2bit, Nat.one_shiftLeft]
  exact Nat.mod_eq_of_lt (Nat.pow_lt_pow_right (by omega) h)

theorem marked_eq {w i : Nat} (h : i < 32) : (w &&& idx2bit i != 0) = w.testBit i := by
  rw [idx2bit_eq h]
  exact and_two_pow_ne_zero w i

theorem mark_testBit {w i : Nat} (h : i < 32) (j : Nat) :
    (w ||| idx2bit i).testBit j = (w.testBit j || decide (i = j)) := by
  rw [idx2bit_eq h]
  exact testBit_set w i j

theorem clear_testBit {w i : Nat} (h : i < 32) (j : Nat) :
    (clearBits w (idx2bit i)).testBit j = (w.testBit j && decide (i ≠ j)) := by
  rw [idx2bit_eq h]
  exact testBit_clear w i j

theorem mark_lt {w i : Nat} (hw : w < 2 ^ 32) (h : i < 32) : w ||| idx2bit i < 2 ^ 32 := by
  rw [idx2bit_eq h]
  exact Nat.or_lt_two_pow hw (Nat.pow_lt_pow_right (by omega) h)

theorem clear_lt {w i : Nat} (hw : w < 2 ^ 32) : clearBits w (idx2bit i) < 2 ^ 32 := by
  simp only [clearBits]
  omega

/-- The bit tricks find the lowest set bit of a bin map. -/
theorem bit2idx_lowest {x : Nat} (hx : x < 2 ^ 32) (h : x ≠ 0) :
    computeBit2idx (leastBit x) < 32 ∧ x.testBit (computeBit2idx (leastBit x)) = true ∧
      ∀ j, j < computeBit2idx (leastBit x) → x.testBit j = false := by
  obtain ⟨i, hi, hl⟩ := exists_lowest x h
  have hi32 : i < 32 := by
    by_contra hge
    have hlt : x < 2 ^ i := Nat.lt_of_lt_of_le hx (Nat.pow_le_pow_right (by omega) (by omega))
    simp [Nat.testBit_lt_two_pow hlt] at hi
  have he : computeBit2idx (leastBit x) = i := by
    rw [computeBit2idx, leastBit, find_only_bit hi32 (testBit_and_neg hx hi hl)]
    rfl
  rw [he]
  exact ⟨hi32, hi, hl⟩

/-- The mask of the bins after `i`. -/
theorem leftBits_testBit {i j : Nat} (hi : i < 32) (hj : j < 32) :
    (leftBits (idx2bit i)).testBit j = decide (i < j) := by
  have h : ∀ a : Fin 32, ∀ b : Fin 32,
      (leftBits (idx2bit a)).testBit b = decide (a.val < b.val) := by decide
  exact h ⟨i, hi⟩ ⟨j, hj⟩

theorem leftBits_lt {i : Nat} (hi : i < 32) : leftBits (idx2bit i) < 2 ^ 32 := by
  have h : ∀ a : Fin 32, leftBits (idx2bit a) < 2 ^ 32 := by decide
  exact h ⟨i, hi⟩

end Mmdata.Proofs
