import Mathlib.Data.Nat.Digits.Lemmas
import Mathlib.Logic.Equiv.Defs
import Mmdata.Kcfg.Json

namespace Mmdata.Kcfg

/-- `boost::lexical_cast` of a type of keys to `std::string` and back; no result is
`bad_lexical_cast`. A key comes back, and one whose text has a NUL comes back from texts
with a NUL only. -/
structure LexicalCast (K : Type) where
  toText : K → Option Chars
  ofText : Chars → Option K
  back : ∀ k, ∃ t, toText k = some t ∧ ofText t = some k
  nul : ∀ k t t', toText k = some t → 0 ∈ t → ofText t' = some k → 0 ∈ t'

/-- Strings are cast to themselves. -/
def LexicalCast.string : LexicalCast Chars where
  toText := some
  ofText := some
  back := fun k => ⟨k, rfl, rfl⟩
  nul := by
    intro k t t' ht h0 ht'
    cases ht
    cases ht'
    exact h0

/-- An integer of 8 bits is cast as one character. -/
def LexicalCast.character {K : Type} (byte : K ≃ UInt8) : LexicalCast K where
  toText := fun k => some [byte k]
  ofText := fun t =>
    match t with
    | [c] => some (byte.symm c)
    | _ => none
  back := fun k => ⟨[byte k], rfl, congrArg some (byte.symm_apply_apply k)⟩
  nul := by
    intro k t t' ht h0 ht'
    cases ht
    split at ht'
    · cases ht'
      rw [byte.apply_symm_apply] at h0
      exact h0
    · cases ht'

/-! The other integers are cast as decimals. -/

def digit (d : Nat) : UInt8 := UInt8.ofNat (48 + d)

def natText (n : Nat) : Chars :=
  if n = 0 then [digit 0] else (Nat.digits 10 n).reverse.map digit

def isDigit (c : UInt8) : Bool := 48 ≤ c.toNat && c.toNat < 58

def natOfText (t : Chars) : Option Nat :=
  if t ≠ [] ∧ t.all isDigit = true then
    some (Nat.ofDigits 10 (t.reverse.map fun c => c.toNat - 48))
  else none

/-- With a minus sign, 45, where it is negative. -/
def intText (i : Int) : Chars :=
  if i < 0 then 45 :: natText i.natAbs else natText i.natAbs

def intOfText : Chars → Option Int
  | 45 :: t => (natOfText t).map fun n => -Int.ofNat n
  | 43 :: t => (natOfText t).map Int.ofNat
  | t => (natOfText t).map Int.ofNat

theorem digit_toNat {d : Nat} (h : d < 10) : (digit d).toNat = 48 + d := by
  unfold digit
  rw [UInt8.toNat_ofNat']
  omega

theorem isDigit_digit {d : Nat} (h : d < 10) : isDigit (digit d) = true := by
  unfold isDigit
  rw [digit_toNat h]
  simp
  omega

theorem natText_isDigit (n : Nat) : ∀ c ∈ natText n, isDigit c = true := by
  intro c hc
  unfold natText at hc
  split at hc
  · rw [List.mem_singleton.mp hc]
    exact isDigit_digit (by decide)
  · obtain ⟨d, hd, rfl⟩ := List.mem_map.mp hc
    exact isDigit_digit (Nat.digits_lt_base (by decide) (List.mem_reverse.mp hd))

theorem natOfText_natText (n : Nat) : natOfText (natText n) = some n := by
  have hall : (natText n).all isDigit = true := List.all_eq_true.mpr (natText_isDigit n)
  have hne : natText n ≠ [] := by
    unfold natText
    split
    · simp
    · rename_i h0
      simpa [Nat.digits_ne_nil_iff_ne_zero] using h0
  unfold natOfText
  rw [if_pos ⟨hne, hall⟩, Option.some.injEq]
  unfold natText
  split
  · rename_i h0
    rw [h0]
    rfl
  · have hback : ((Nat.digits 10 n).map digit).map (fun c => c.toNat - 48) = Nat.digits 10 n := by
      rw [List.map_map]
      apply (List.map_congr_left ?_).trans (List.map_id _)
      intro d hd
      have hlt : d < 10 := Nat.digits_lt_base (by decide) hd
      simp only [Function.comp, digit_toNat hlt, id]
      omega
    rw [← List.map_reverse, List.reverse_reverse, hback, Nat.ofDigits_digits]

theorem intOfText_intText (i : Int) : intOfText (intText i) = some i := by
  unfold intText
  split
  · simp only [intOfText, natOfText_natText, Option.map_some, Option.some.injEq,
      Int.ofNat_eq_natCast]
    omega
  · have hsign : ∀ c ∈ natText i.natAbs, c ≠ 45 ∧ c ≠ 43 := by
      intro c hc
      have hd := natText_isDigit _ c hc
      constructor
      · rintro rfl
        revert hd
        decide
      · rintro rfl
        revert hd
        decide
    have hplain : intOfText (natText i.natAbs) =
        (natOfText (natText i.natAbs)).map Int.ofNat := by
      unfold intOfText
      split
      · rename_i h
        exact absurd rfl (hsign 45 (h ▸ List.mem_cons_self)).1
      · rename_i h
        exact absurd rfl (hsign 43 (h ▸ List.mem_cons_self)).2
      · rfl
    rw [hplain, natOfText_natText, Option.map_some, Option.some.injEq]
    exact Int.natAbs_of_nonneg (by omega)

theorem intText_noNul (i : Int) : 0 ∉ intText i := by
  have hn : 0 ∉ natText i.natAbs := by
    intro h0
    have hd := natText_isDigit _ 0 h0
    revert hd
    decide
  unfold intText
  split
  · intro h0
    cases h0 with
    | tail _ h0 => exact hn h0
  · exact hn

/-- A number as a value of an integer type. For an unsigned type a negative one whose digits are
in its range counts down from the end of the range. -/
def inRange (lo hi i : Int) : Option { i : Int // lo ≤ i ∧ i ≤ hi } :=
  if h : lo ≤ i ∧ i ≤ hi then some ⟨i, h⟩
  else if h : lo = 0 ∧ -hi ≤ i ∧ i < 0 then some ⟨hi + 1 + i, by omega⟩
  else none

/-- An integer type of more than 8 bits, by its bounds. -/
def LexicalCast.decimal (lo hi : Int) : LexicalCast { i : Int // lo ≤ i ∧ i ≤ hi } where
  toText := fun k => some (intText k.1)
  ofText := fun t => (intOfText t).bind (inRange lo hi)
  back := by
    intro k
    refine ⟨intText k.1, rfl, ?_⟩
    rw [intOfText_intText, Option.bind_some, inRange, dif_pos k.2]
  nul := by
    intro k t t' ht h0 _
    cases ht
    exact absurd h0 (intText_noNul k.1)

example : (LexicalCast.decimal 0 65535).ofText [45, 49] = some ⟨65535, by decide⟩ := by decide +kernel

end Mmdata.Kcfg
