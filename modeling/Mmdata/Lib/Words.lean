import Mathlib.Tactic.Ring
import Mathlib.Tactic.Linarith

namespace Mmdata.Lib

/-- What is known of a byte: its value, nothing, or only that its lowest bit
is set (an indeterminate byte into which that bit was or-ed). -/
inductive Cell
  | known (b : UInt8)
  | unknown
  | lowSet
deriving DecidableEq

abbrev Bytes := Nat → Cell

/-- The byte read through a cell, when it is determinate. -/
def Cell.get? : Cell → Option UInt8
  | .known b => some b
  | _ => none

def Cell.setLow : Cell → Cell
  | .known b => .known (b ||| 1)
  | _ => .lowSet

def Cell.low? : Cell → Option Nat
  | .known b => some (b.toNat % 2)
  | .unknown => none
  | .lowSet => some 1

/-- The little-endian word of `n` bytes at `a`, when every byte of it is determinate. -/
def loadLE (m : Bytes) (a : Nat) : Nat → Option Nat
  | 0 => some 0
  | n + 1 =>
    match (m a).get?, loadLE m (a + 1) n with
    | some b, some r => some (b.toNat + 256 * r)
    | _, _ => none

def storeLE (m : Bytes) (a n v : Nat) : Bytes := fun b =>
  if a ≤ b ∧ b < a + n then .known (UInt8.ofNat (v / 256 ^ (b - a))) else m b

def fillBytes (m : Bytes) (a n : Nat) (v : UInt8) : Bytes := fun b =>
  if a ≤ b ∧ b < a + n then .known v else m b

def setLowByte (m : Bytes) (a : Nat) : Bytes := fun b =>
  if b = a then (m b).setLow else m b

def copyBytes (m : Bytes) (dst src n : Nat) : Bytes := fun b =>
  if dst ≤ b ∧ b < dst + n then m (src + (b - dst)) else m b

theorem loadLE_lt {m : Bytes} {a n v : Nat} (h : loadLE m a n = some v) : v < 256 ^ n := by
  induction n generalizing a v with
  | zero => simp only [loadLE, Option.some.injEq] at h; subst h; simp
  | succ n ih =>
    simp only [loadLE] at h
    split at h
    · rename_i b r hb hr
      have hlt := ih hr
      have hb8 := b.toNat_lt
      simp only [Option.some.injEq] at h
      subst h
      rw [Nat.pow_succ]
      omega
    · contradiction

/-- A word is the same where its bytes are. -/
theorem loadLE_shift {m m' : Bytes} {a b n : Nat} (h : ∀ i < n, m (a + i) = m' (b + i)) :
    loadLE m a n = loadLE m' b n := by
  induction n generalizing a b with
  | zero => rfl
  | succ n ih =>
    have hrest : ∀ i < n, m (a + 1 + i) = m' (b + 1 + i) := by
      intro i hi
      rw [Nat.add_assoc, Nat.add_assoc, Nat.add_comm 1 i]
      exact h (i + 1) (by omega)
    have hfirst : m a = m' b := h 0 (by omega)
    simp only [loadLE]
    rw [hfirst, ih hrest]

theorem loadLE_congr {m m' : Bytes} {a n : Nat}
    (h : ∀ b, a ≤ b → b < a + n → m b = m' b) : loadLE m a n = loadLE m' a n :=
  loadLE_shift fun i hi => h (a + i) (by omega) (by omega)

/-- A word survives a store that touches none of its bytes. -/
theorem loadLE_storeLE_disjoint {m : Bytes} {a n v b k : Nat}
    (h : b + k ≤ a ∨ a + n ≤ b) : loadLE (storeLE m a n v) b k = loadLE m b k := by
  apply loadLE_congr
  intro c hc hc'
  have hne : ¬ (a ≤ c ∧ c < a + n) := by omega
  simp [storeLE, hne]

/-- The bytes of a stored word, read back from an address inside it. -/
theorem loadLE_storeLE_tail (m : Bytes) (a n v i k : Nat) (h : i + k ≤ n) :
    loadLE (storeLE m a n v) (a + i) k = some (v / 256 ^ i % 256 ^ k) := by
  induction k generalizing i with
  | zero => simp [loadLE, Nat.mod_one]
  | succ k ih =>
    have hin : a ≤ a + i ∧ a + i < a + n := by omega
    have hrest := ih (i + 1) (by omega)
    rw [← Nat.add_assoc] at hrest
    have hbyte : (storeLE m a n v (a + i)).get? = some (UInt8.ofNat (v / 256 ^ i)) := by
      simp only [storeLE, hin, and_self, if_true, Cell.get?]
      rw [show a + i - a = i by omega]
    simp only [loadLE, hbyte, hrest, Option.some.injEq]
    have hsplit : v / 256 ^ i % 256 ^ (k + 1) =
        v / 256 ^ i % 256 + 256 * (v / 256 ^ i / 256 % 256 ^ k) := by
      rw [Nat.pow_succ, Nat.mul_comm, Nat.mod_mul]
    rw [hsplit, Nat.div_div_eq_div_mul, ← Nat.pow_succ]
    simp [UInt8.toNat_ofNat']

theorem loadLE_storeLE_same (m : Bytes) (a n v : Nat) (h : v < 256 ^ n) :
    loadLE (storeLE m a n v) a n = some v := by
  have ht := loadLE_storeLE_tail m a n v 0 n (by omega)
  simpa [Nat.mod_eq_of_lt h] using ht

/-- The first byte of a determinate word. -/
theorem loadLE_head {m : Bytes} {a n v : Nat} (h : loadLE m a (n + 1) = some v) :
    ∃ b r, m a = .known b ∧ loadLE m (a + 1) n = some r ∧ v = b.toNat + 256 * r := by
  simp only [loadLE] at h
  split at h
  · rename_i b r hb hr
    simp only [Option.some.injEq] at h
    cases hc : m a with
    | known c =>
      simp only [hc, Cell.get?, Option.some.injEq] at hb
      subst hb
      exact ⟨c, r, rfl, hr, h.symm⟩
    | unknown => simp [hc, Cell.get?] at hb
    | lowSet => simp [hc, Cell.get?] at hb
  · contradiction

/-- The bytes of a determinate word. -/
theorem loadLE_byte {m : Bytes} {a n v i : Nat} (h : loadLE m a n = some v) (hi : i < n) :
    m (a + i) = .known (UInt8.ofNat (v / 256 ^ i)) := by
  induction n generalizing a v i with
  | zero => omega
  | succ n ih =>
    obtain ⟨b, r, hb, hr, hv⟩ := loadLE_head h
    have hb8 := b.toNat_lt
    cases i with
    | zero =>
      rw [Nat.add_zero, hb, Nat.pow_zero, Nat.div_one]
      congr 1
      apply UInt8.toNat_inj.mp
      rw [UInt8.toNat_ofNat']
      omega
    | succ i =>
      have hrest := ih hr (Nat.lt_of_succ_lt_succ hi)
      rw [show a + (i + 1) = a + 1 + i by omega, hrest]
      have hdiv : v / 256 ^ (i + 1) = r / 256 ^ i := by
        rw [Nat.pow_succ', ← Nat.div_div_eq_div_mul]
        congr 1
        omega
      rw [hdiv]

/-- Storing what is there changes nothing. -/
theorem storeLE_self {m : Bytes} {a n v : Nat} (h : loadLE m a n = some v) :
    storeLE m a n v = m := by
  funext b
  unfold storeLE
  split
  · rename_i hb
    have hbyte := loadLE_byte h (show b - a < n by omega)
    rw [show a + (b - a) = b by omega] at hbyte
    exact hbyte.symm
  · rfl

theorem or_one (n : Nat) : n ||| 1 = n / 2 * 2 + 1 := by
  have hd : (n ||| 1) / 2 = n / 2 := by simp [Nat.or_div_two]
  have hm : (n ||| 1) % 2 = 1 := Nat.or_mod_two_eq_one.mpr (Or.inr rfl)
  omega

theorem or_one_toNat (b : UInt8) : (b ||| 1).toNat = b.toNat / 2 * 2 + 1 := by
  rw [UInt8.toNat_or]
  exact or_one b.toNat

/-- Setting the lowest bit of the first byte sets the lowest bit of the word. -/
theorem loadLE_setLow_same {m : Bytes} {a n v : Nat} (h : loadLE m a (n + 1) = some v) :
    loadLE (setLowByte m a) a (n + 1) = some (v / 2 * 2 + 1) := by
  obtain ⟨b, r, hb, hr, hv⟩ := loadLE_head h
  have hrest : loadLE (setLowByte m a) (a + 1) n = some r := by
    rw [← hr]
    apply loadLE_congr
    intro c hc _
    have hne : c ≠ a := by omega
    simp [setLowByte, hne]
  have hfirst : (setLowByte m a a).get? = some (b ||| 1) := by
    simp [setLowByte, hb, Cell.setLow, Cell.get?]
  simp only [loadLE, hfirst, hrest, or_one_toNat, Option.some.injEq]
  omega

theorem loadLE_setLow_disjoint {m : Bytes} {a b k : Nat} (h : b + k ≤ a ∨ a < b) :
    loadLE (setLowByte m a) b k = loadLE m b k := by
  apply loadLE_congr
  intro c hc hc'
  have hne : c ≠ a := by omega
  simp [setLowByte, hne]

theorem loadLE_fill_zero (m : Bytes) (a n b k : Nat) (h : a ≤ b) (h' : b + k ≤ a + n) :
    loadLE (fillBytes m a n 0) b k = some 0 := by
  induction k generalizing b with
  | zero => rfl
  | succ k ih =>
    have hin : a ≤ b ∧ b < a + n := by omega
    simp only [loadLE, ih (b + 1) (by omega) (by omega)]
    simp [fillBytes, hin, Cell.get?]

theorem loadLE_fill_disjoint {m : Bytes} {a n b k : Nat} {v : UInt8}
    (h : b + k ≤ a ∨ a + n ≤ b) : loadLE (fillBytes m a n v) b k = loadLE m b k := by
  apply loadLE_congr
  intro c hc hc'
  have hne : ¬ (a ≤ c ∧ c < a + n) := by omega
  simp [fillBytes, hne]

end Mmdata.Lib
