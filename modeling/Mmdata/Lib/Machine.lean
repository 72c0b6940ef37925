import Mmdata.Lib.Words

namespace Mmdata.Lib

/-- Why a run stops. A plain load of an indeterminate byte and a stored
pointer that leaves the mapped memory are reported here, where compiled code
would carry on; a run without a trap is a run of the compiled code. -/
inductive Trap
  | segv
  | indeterminate
  | wild
  | divZero
  | abort
  | syscall
  | fuel
  | misuse
deriving DecidableEq, Repr

/-- Memory, the mapped ranges `[lo, hi)` and the process-wide variables. -/
structure Machine (γ : Type) where
  byte : Bytes
  maps : List (Nat × Nat)
  glob : γ

namespace Machine

/-- One mapped range holds all `n` bytes at `a`. -/
def mapped (σ : Machine γ) (a n : Nat) : Bool :=
  σ.maps.any fun r => decide (r.1 ≤ a) && decide (a + n ≤ r.2)

def get (σ : Machine γ) (n a : Nat) : Option Nat :=
  if σ.mapped a n then loadLE σ.byte a n else none

def put (σ : Machine γ) (n a v : Nat) : Machine γ := { σ with byte := storeLE σ.byte a n v }

def fill (σ : Machine γ) (a n : Nat) (v : UInt8) : Machine γ :=
  { σ with byte := fillBytes σ.byte a n v }

def setLow (σ : Machine γ) (a : Nat) : Machine γ := { σ with byte := setLowByte σ.byte a }

def copy (σ : Machine γ) (dst src n : Nat) : Machine γ :=
  { σ with byte := copyBytes σ.byte dst src n }

end Machine

/-- The word a self-relative pointer at `self` stores for `target`: the
difference of the addresses, and the reserved value 1 for null. -/
def offsetTo (self target : Nat) : Nat :=
  if target = 0 then 1 else (target + 2 ^ 64 - self) % 2 ^ 64

/-- The target of a stored word that is not null. -/
def pointsTo (self w : Nat) : Nat := (self + w) % 2 ^ 64

/-- The self-relative pointer stored at `a`: null or an address in mapped memory. -/
def Machine.getPtr (σ : Machine γ) (a : Nat) : Option Nat :=
  match σ.get 8 a with
  | none => none
  | some w =>
    if w = 1 then some 0
    else if σ.mapped (pointsTo a w) 1 then some (pointsTo a w)
    else none

def Machine.putPtr (σ : Machine γ) (a t : Nat) : Machine γ := σ.put 8 a (offsetTo a t)

/-- A program step by step over the machine. -/
def Prog (γ α : Type) := Machine γ → Except Trap (α × Machine γ)

instance : Monad (Prog γ) where
  pure r := fun σ => .ok (r, σ)
  bind x f := fun σ =>
    match x σ with
    | .ok (r, τ) => f r τ
    | .error e => .error e

def trap (e : Trap) : Prog γ α := fun _ => .error e

def globals : Prog γ γ := fun σ => .ok (σ.glob, σ)

def setGlobals (g : γ) : Prog γ Unit := fun σ => .ok ((), { σ with glob := g })

def load (n : Nat) (a : Nat) : Prog γ Nat := fun σ =>
  if σ.mapped a n then
    match loadLE σ.byte a n with
    | some v => .ok (v, σ)
    | none => .error .indeterminate
  else .error .segv

def store (n : Nat) (a : Nat) (v : Nat) : Prog γ Unit := fun σ =>
  if σ.mapped a n then .ok ((), σ.put n a v) else .error .segv

/-- Read-modify-write of one word. -/
def update (n : Nat) (a : Nat) (f : Nat → Nat) : Prog γ Unit := do
  let v ← load n a
  store n a (f v)

/-- `*a & 1` on a 64-bit word, which needs no other bit of it. -/
def loadLow (a : Nat) : Prog γ Nat := fun σ =>
  if σ.mapped a 8 then
    match (σ.byte a).low? with
    | some v => .ok (v, σ)
    | none => .error .indeterminate
  else .error .segv

/-- `*a |= 1` on a 64-bit word. -/
def setLowBit (a : Nat) : Prog γ Unit := fun σ =>
  if σ.mapped a 8 then .ok ((), σ.setLow a) else .error .segv

/-- A pointer that is read, or computed from another, stays in mapped memory. -/
def checkPtr (t : Nat) : Prog γ Nat := fun σ =>
  if σ.mapped t 1 then .ok (t, σ) else .error .wild

def loadPtr (a : Nat) : Prog γ Nat := do
  let w ← load 8 a
  if w = 1 then return 0
  checkPtr (pointsTo a w)

def storePtr (a t : Nat) : Prog γ Unit := store 8 a (offsetTo a t)

def memset (a n : Nat) (v : UInt8) : Prog γ Unit := fun σ =>
  if σ.mapped a n then .ok ((), σ.fill a n v) else .error .segv

def memcpy (dst src n : Nat) : Prog γ Unit := fun σ =>
  if σ.mapped dst n ∧ σ.mapped src n then .ok ((), σ.copy dst src n) else .error .segv

/-- A program over part of the globals, run over all of them. -/
def zoom (view : δ → γ) (set : γ → δ → δ) (x : Prog γ α) : Prog δ α := fun σ =>
  match x ⟨σ.byte, σ.maps, view σ.glob⟩ with
  | .ok (r, τ) => .ok (r, ⟨τ.byte, τ.maps, set τ.glob σ.glob⟩)
  | .error e => .error e

/-- The run of `x` from `σ` ends in `Q`, or in a trap that `D` tolerates. -/
def wp (D : Trap → Prop) (x : Prog γ α) (Q : α → Machine γ → Prop) (σ : Machine γ) : Prop :=
  match x σ with
  | .ok (r, τ) => Q r τ
  | .error e => D e

section Rules

variable {γ α β : Type} {D : Trap → Prop} {σ : Machine γ} {Q : α → Machine γ → Prop}

theorem wp_pure {r : α} : wp D (pure r : Prog γ α) Q σ ↔ Q r σ := Iff.rfl

theorem wp_bind {x : Prog γ β} {f : β → Prog γ α} :
    wp D (x >>= f) Q σ ↔ wp D x (fun r τ => wp D (f r) Q τ) σ := by
  simp only [wp, bind]
  cases x σ <;> rfl

theorem wp_if_pos {c : Prop} [Decidable c] {x y : Prog γ α} (h : c) :
    wp D (if c then x else y) Q σ ↔ wp D x Q σ := by
  rw [if_pos h]

theorem wp_if_neg {c : Prop} [Decidable c] {x y : Prog γ α} (h : ¬ c) :
    wp D (if c then x else y) Q σ ↔ wp D y Q σ := by
  rw [if_neg h]

/-- The rule of consequence. -/
theorem wp_mono {x : Prog γ α} {Q' : α → Machine γ → Prop} (h : wp D x Q' σ)
    (hq : ∀ r τ, Q' r τ → Q r τ) : wp D x Q σ := by
  simp only [wp] at h ⊢
  split at h
  · exact hq _ _ h
  · exact h

/-- More traps are tolerated. -/
theorem wp_weaken {D' : Trap → Prop} {x : Prog γ α} (hD : ∀ e, D e → D' e) (h : wp D x Q σ) :
    wp D' x Q σ := by
  unfold wp at h ⊢
  split
  · rename_i hx
    rw [hx] at h
    exact h
  · rename_i hx
    rw [hx] at h
    exact hD _ h

theorem wp_and {x : Prog γ α} {Q' : α → Machine γ → Prop} (h : wp D x Q σ) (h' : wp D x Q' σ) :
    wp D x (fun r τ => Q r τ ∧ Q' r τ) σ := by
  simp only [wp] at h h' ⊢
  split <;> simp_all

/-- A run that ended well ended in the postcondition. -/
theorem wp_ok {x : Prog γ α} {r : α} {τ : Machine γ} (h : wp D x Q σ) (hx : x σ = .ok (r, τ)) :
    Q r τ := by
  simpa only [wp, hx] using h

theorem wp_error {x : Prog γ α} {e : Trap} (h : wp D x Q σ) (hx : x σ = .error e) : D e := by
  simpa only [wp, hx] using h

/-- What a run returns, unless it ends in a trap. -/
def result (x : Prog γ α) (σ : Machine γ) : Option α :=
  match x σ with
  | .ok (r, _) => some r
  | .error _ => none

theorem result_ok {x : Prog γ α} {r : α} (h : result x σ = some r) : ∃ τ, x σ = .ok (r, τ) := by
  unfold result at h
  split at h
  · rename_i s τ hx
    exact ⟨τ, by rw [hx, Option.some.inj h]⟩
  · contradiction

/-- A run of two parts is a run of each. -/
theorem result_bind {x : Prog γ β} {f : β → Prog γ α} {r : β} {τ : Machine γ}
    (h : x σ = .ok (r, τ)) : result (x >>= f) σ = result (f r) τ := by
  simp only [result, bind, h]

theorem bind_of_ok {x : Prog γ β} {f : β → Prog γ α} {s : β} {τ : Machine γ}
    (h : x σ = .ok (s, τ)) : (x >>= f) σ = f s τ := by
  simp only [bind, h]

theorem bind_ok {x : Prog γ β} {f : β → Prog γ α} {r : α} {τ : Machine γ}
    (h : (x >>= f) σ = .ok (r, τ)) : ∃ s υ, x σ = .ok (s, υ) ∧ f s υ = .ok (r, τ) := by
  simp only [bind] at h
  cases hx : x σ with
  | ok p =>
    obtain ⟨s, υ⟩ := p
    rw [hx] at h
    exact ⟨s, υ, rfl, h⟩
  | error e =>
    rw [hx] at h
    contradiction

/-- What a run returns may be taken as known. -/
theorem wp_of_run {x : Prog γ α} (h : wp D x (fun r τ => x σ = .ok (r, τ) → Q r τ) σ) :
    wp D x Q σ := by
  unfold wp at h ⊢
  cases hx : x σ with
  | ok p =>
    rw [hx] at h
    exact h rfl
  | error e =>
    rw [hx] at h
    exact h

/-- Runs without a trap that `D` does not tolerate. -/
theorem ok_of_wp {x : Prog γ α} (h : wp (fun _ => False) x Q σ) :
    ∃ r τ, x σ = .ok (r, τ) ∧ Q r τ := by
  unfold wp at h
  split at h
  · rename_i r τ hx
    exact ⟨r, τ, hx, h⟩
  · exact h.elim

theorem wp_zoom {δ : Type} {view : δ → γ} {set : γ → δ → δ} {x : Prog γ α} {σ : Machine δ}
    {Q : α → Machine δ → Prop} : wp D (zoom view set x) Q σ ↔
      wp D x (fun r τ => Q r ⟨τ.byte, τ.maps, set τ.glob σ.glob⟩) ⟨σ.byte, σ.maps, view σ.glob⟩ := by
  unfold wp zoom
  cases x ⟨σ.byte, σ.maps, view σ.glob⟩ with
  | ok p => exact Iff.rfl
  | error e => exact Iff.rfl

theorem wp_globals {Q : γ → Machine γ → Prop} : wp D globals Q σ ↔ Q σ.glob σ := Iff.rfl

theorem wp_setGlobals {g : γ} {Q : Unit → Machine γ → Prop} :
    wp D (setGlobals g) Q σ ↔ Q () { σ with glob := g } := Iff.rfl

theorem wp_load {n a v : Nat} {Q : Nat → Machine γ → Prop} (h : σ.get n a = some v) :
    wp D (load n a) Q σ ↔ Q v σ := by
  simp only [Machine.get] at h
  split at h
  · rename_i hm
    simp [wp, load, hm, h]
  · contradiction

/-- A load of bytes that may be indeterminate. -/
theorem wp_load_any {n a : Nat} {Q : Nat → Machine γ → Prop} (hm : σ.mapped a n = true)
    (hd : σ.get n a = none → D .indeterminate) (hQ : ∀ v, σ.get n a = some v → Q v σ) :
    wp D (load n a) Q σ := by
  simp only [Machine.get, hm, if_true] at hd hQ
  simp only [wp, load, hm, if_true]
  cases hl : loadLE σ.byte a n with
  | none => exact hd hl
  | some v => exact hQ v hl

theorem load_ok {n a v : Nat} {τ : Machine γ} (h : load n a σ = .ok (v, τ)) :
    σ.get n a = some v ∧ τ = σ := by
  unfold load at h
  split at h
  · rename_i hm
    split at h
    · rename_i u hu
      cases h
      exact ⟨by simp only [Machine.get, hm, if_true, hu], rfl⟩
    · contradiction
  · contradiction

theorem loadPtr_ok {a v : Nat} {τ : Machine γ} (h : loadPtr a σ = .ok (v, τ)) :
    σ.getPtr a = some v ∧ τ = σ := by
  obtain ⟨u, υ, hu, hv⟩ := bind_ok h
  obtain ⟨hget, rfl⟩ := load_ok hu
  unfold Machine.getPtr
  rw [hget]
  by_cases h1 : u = 1
  · rw [if_pos h1] at hv
    cases hv
    exact ⟨if_pos h1, rfl⟩
  · rw [if_neg h1] at hv
    unfold checkPtr at hv
    split at hv
    · rename_i hm
      cases hv
      exact ⟨(if_neg h1).trans (if_pos hm), rfl⟩
    · contradiction

theorem wp_store {n a v : Nat} {Q : Unit → Machine γ → Prop} (h : σ.mapped a n = true) :
    wp D (store n a v) Q σ ↔ Q () (σ.put n a v) := by
  simp [wp, store, h]

theorem wp_update {n a v : Nat} {f : Nat → Nat} {Q : Unit → Machine γ → Prop}
    (h : σ.get n a = some v) : wp D (update n a f) Q σ ↔ Q () (σ.put n a (f v)) := by
  have hm : σ.mapped a n = true := by
    simp only [Machine.get] at h
    split at h
    · assumption
    · contradiction
  rw [update, wp_bind, wp_load h, wp_store hm]

theorem wp_loadLow {a v : Nat} {Q : Nat → Machine γ → Prop} (hm : σ.mapped a 8 = true)
    (h : (σ.byte a).low? = some v) : wp D (loadLow a) Q σ ↔ Q v σ := by
  simp [wp, loadLow, hm, h]

theorem wp_setLowBit {a : Nat} {Q : Unit → Machine γ → Prop} (hm : σ.mapped a 8 = true) :
    wp D (setLowBit a) Q σ ↔ Q () (σ.setLow a) := by
  simp [wp, setLowBit, hm]

theorem wp_loadPtr {a t : Nat} {Q : Nat → Machine γ → Prop} (h : σ.getPtr a = some t) :
    wp D (loadPtr a) Q σ ↔ Q t σ := by
  simp only [Machine.getPtr] at h
  split at h
  · contradiction
  · rename_i w hw
    rw [loadPtr, wp_bind, wp_load hw]
    split at h
    · rename_i h1
      rw [wp_if_pos h1, wp_pure, Option.some.inj h]
    · rename_i h1
      rw [wp_if_neg h1]
      split at h
      · rename_i ht
        rw [← Option.some.inj h]
        simp only [wp, checkPtr, ht, if_true]
      · contradiction

theorem wp_checkPtr {t : Nat} {Q : Nat → Machine γ → Prop} (h : σ.mapped t 1 = true) :
    wp D (checkPtr t) Q σ ↔ Q t σ := by
  simp only [wp, checkPtr, h, if_true]

theorem wp_storePtr {a t : Nat} {Q : Unit → Machine γ → Prop} (h : σ.mapped a 8 = true) :
    wp D (storePtr a t) Q σ ↔ Q () (σ.putPtr a t) := wp_store h

theorem wp_memset {a n : Nat} {v : UInt8} {Q : Unit → Machine γ → Prop}
    (h : σ.mapped a n = true) : wp D (memset a n v) Q σ ↔ Q () (σ.fill a n v) := by
  simp [wp, memset, h]

theorem wp_memcpy {dst src n : Nat} {Q : Unit → Machine γ → Prop} (h : σ.mapped dst n = true)
    (h' : σ.mapped src n = true) : wp D (memcpy dst src n) Q σ ↔ Q () (σ.copy dst src n) := by
  simp [wp, memcpy, h, h']

end Rules

namespace Machine

variable {γ : Type} {σ τ υ : Machine γ}

theorem mapped_of_mem {lo hi a n : Nat} (h : (lo, hi) ∈ σ.maps) (hl : lo ≤ a)
    (hh : a + n ≤ hi) : σ.mapped a n = true :=
  List.any_eq_true.mpr ⟨(lo, hi), h, by simp [hl, hh]⟩

@[simp] theorem maps_put (n a v : Nat) : (σ.put n a v).maps = σ.maps := rfl
@[simp] theorem glob_put (n a v : Nat) : (σ.put n a v).glob = σ.glob := rfl
@[simp] theorem maps_putPtr (a t : Nat) : (σ.putPtr a t).maps = σ.maps := rfl
@[simp] theorem glob_putPtr (a t : Nat) : (σ.putPtr a t).glob = σ.glob := rfl
@[simp] theorem maps_fill (a n : Nat) (v : UInt8) : (σ.fill a n v).maps = σ.maps := rfl
@[simp] theorem glob_fill (a n : Nat) (v : UInt8) : (σ.fill a n v).glob = σ.glob := rfl
@[simp] theorem maps_setLow (a : Nat) : (σ.setLow a).maps = σ.maps := rfl
@[simp] theorem glob_setLow (a : Nat) : (σ.setLow a).glob = σ.glob := rfl
@[simp] theorem maps_copy (d s n : Nat) : (σ.copy d s n).maps = σ.maps := rfl

theorem mapped_congr (h : τ.maps = σ.maps) (a n : Nat) : τ.mapped a n = σ.mapped a n := by
  simp [mapped, h]

theorem get_lt {n a v : Nat} (h : σ.get n a = some v) : v < 256 ^ n := by
  simp only [get] at h
  split at h
  · exact loadLE_lt h
  · contradiction

theorem mapped_of_get {n a v : Nat} (h : σ.get n a = some v) : σ.mapped a n = true := by
  simp only [get] at h
  split at h
  · assumption
  · contradiction

theorem byte_of_get {n a v i : Nat} (h : σ.get n a = some v) (hi : i < n) :
    σ.byte (a + i) = .known (UInt8.ofNat (v / 256 ^ i)) := by
  have hm := mapped_of_get h
  simp only [get, hm, if_true] at h
  exact loadLE_byte h hi

theorem get_put_same {n a v : Nat} (hm : σ.mapped a n = true) (hv : v < 256 ^ n) :
    (σ.put n a v).get n a = some v := by
  simp only [get, mapped_congr (maps_put n a v), hm, if_true]
  exact loadLE_storeLE_same _ _ _ _ hv

theorem get_put_ne {n a v b k : Nat} (h : b + k ≤ a ∨ a + n ≤ b) :
    (σ.put n a v).get k b = σ.get k b := by
  simp only [get, mapped_congr (maps_put n a v)]
  simp only [put, loadLE_storeLE_disjoint h]

theorem get_fill_zero {a n b k : Nat} (hm : σ.mapped b k = true) (h : a ≤ b)
    (h' : b + k ≤ a + n) : (σ.fill a n 0).get k b = some 0 := by
  simp only [get, mapped_congr (maps_fill a n 0), hm, if_true]
  exact loadLE_fill_zero _ _ _ _ _ h h'

theorem get_fill_ne {a n b k : Nat} {v : UInt8} (h : b + k ≤ a ∨ a + n ≤ b) :
    (σ.fill a n v).get k b = σ.get k b := by
  simp only [get, mapped_congr (maps_fill a n v)]
  simp only [fill, loadLE_fill_disjoint h]

theorem get_setLow_same {a v : Nat} (h : σ.get 8 a = some v) :
    (σ.setLow a).get 8 a = some (v / 2 * 2 + 1) := by
  have hm := mapped_of_get h
  simp only [get, hm, if_true] at h
  simp only [get, mapped_congr (maps_setLow a), hm, if_true]
  exact loadLE_setLow_same h

theorem get_setLow_ne {a b k : Nat} (h : b + k ≤ a ∨ a < b) :
    (σ.setLow a).get k b = σ.get k b := by
  simp only [get, mapped_congr (maps_setLow a)]
  simp only [setLow, loadLE_setLow_disjoint h]

theorem low_of_get {a v : Nat} (h : σ.get 8 a = some v) :
    (σ.byte a).low? = some (v % 2) := by
  simp only [get, mapped_of_get h, if_true] at h
  obtain ⟨b, r, hb, _, hv⟩ := loadLE_head h
  simp only [hb, Cell.low?, Option.some.injEq]
  omega

/-- Setting a bit that is set changes nothing. -/
theorem setLow_of_odd {a v : Nat} (h : σ.get 8 a = some v) (hv : v % 2 = 1) : σ.setLow a = σ := by
  simp only [get, mapped_of_get h, if_true] at h
  obtain ⟨b, r, hb, _, hr⟩ := loadLE_head h
  have hor : b ||| 1 = b := by
    apply UInt8.toNat_inj.mp
    rw [or_one_toNat]
    omega
  have hbytes : setLowByte σ.byte a = σ.byte := by
    funext c
    by_cases hc : c = a
    · simp [setLowByte, hc, hb, Cell.setLow, hor]
    · simp [setLowByte, hc]
  simp only [setLow, hbytes]

/-- Storing what is there changes nothing. -/
theorem put_self {n a v : Nat} (h : σ.get n a = some v) : σ.put n a v = σ := by
  simp only [get, mapped_of_get h, if_true] at h
  simp only [put, storeLE_self h]

/-- The last store counts. -/
theorem put_put (n a v w : Nat) : (σ.put n a v).put n a w = σ.put n a w := by
  simp only [put]
  congr 1
  funext b
  simp only [storeLE]
  split <;> rfl

theorem low_setLow (a : Nat) : ((σ.setLow a).byte a).low? = some 1 := by
  simp only [setLow, setLowByte, if_true]
  cases σ.byte a with
  | known b => simp only [Cell.setLow, Cell.low?, or_one_toNat, Option.some.injEq]; omega
  | unknown => rfl
  | lowSet => rfl

end Machine

theorem offsetTo_zero (a : Nat) : offsetTo a 0 = 1 := rfl

/-- Aligned pointers do not meet the word for null. -/
theorem offsetTo_ne_one {a t : Nat} (ht : t ≠ 0) (ha8 : a % 8 = 0)
    (ht8 : t % 8 = 0) : offsetTo a t ≠ 1 := by
  unfold offsetTo
  rw [if_neg ht]
  omega

theorem pointsTo_offsetTo {a t : Nat} (ha : a < 2 ^ 64) (ht : t < 2 ^ 64) (h0 : t ≠ 0) :
    pointsTo a (offsetTo a t) = t := by
  unfold pointsTo offsetTo
  rw [if_neg h0]
  omega

theorem offsetTo_lt (a t : Nat) : offsetTo a t < 256 ^ 8 := by
  unfold offsetTo
  split <;> omega

namespace Machine

variable {γ : Type} {σ τ υ : Machine γ}

theorem getPtr_putPtr_same {a t : Nat} (hm : σ.mapped a 8 = true)
    (ht : t = 0 ∨ σ.mapped t 1 = true) (ha : a < 2 ^ 64) (hlt : t < 2 ^ 64)
    (ha8 : a % 8 = 0) (ht8 : t % 8 = 0) : (σ.putPtr a t).getPtr a = some t := by
  have hg : (σ.putPtr a t).get 8 a = some (offsetTo a t) := get_put_same hm (offsetTo_lt a t)
  by_cases h0 : t = 0
  · subst h0
    simp only [getPtr, hg, offsetTo_zero, if_true]
  · have ht1 : σ.mapped t 1 = true := by
      cases ht with
      | inl ht => exact absurd ht h0
      | inr ht => exact ht
    simp only [getPtr, hg, offsetTo_ne_one h0 ha8 ht8, if_false, pointsTo_offsetTo ha hlt h0,
      mapped_congr (maps_putPtr a t), ht1, if_true]

theorem getPtr_of_get {a : Nat} (hm : τ.maps = σ.maps) (h : τ.get 8 a = σ.get 8 a) :
    τ.getPtr a = σ.getPtr a := by
  simp only [getPtr, h, mapped_congr hm]

theorem getPtr_put_ne {n a v b : Nat} (h : b + 8 ≤ a ∨ a + n ≤ b) :
    (σ.put n a v).getPtr b = σ.getPtr b := getPtr_of_get rfl (get_put_ne h)

theorem get_putPtr_ne {a t b k : Nat} (h : b + k ≤ a ∨ a + 8 ≤ b) :
    (σ.putPtr a t).get k b = σ.get k b := get_put_ne h

theorem getPtr_putPtr_ne {a t b : Nat} (h : b + 8 ≤ a ∨ a + 8 ≤ b) :
    (σ.putPtr a t).getPtr b = σ.getPtr b := getPtr_of_get rfl (get_put_ne h)

/-- The target of a stored pointer is mapped. -/
theorem mapped_of_getPtr_ne_zero {a t : Nat} (h : σ.getPtr a = some t) (h0 : t ≠ 0) :
    σ.mapped t 1 = true := by
  simp only [getPtr] at h
  split at h
  · contradiction
  · split at h
    · exact absurd (Option.some.inj h).symm h0
    · split at h
      · rename_i ht
        rw [← Option.some.inj h]
        exact ht
      · contradiction

end Machine

/-- `τ` differs from `σ` only in bytes of `W`. -/
structure Frame (W : Nat → Prop) (σ τ : Machine γ) : Prop where
  maps : τ.maps = σ.maps
  glob : τ.glob = σ.glob
  byte : ∀ a, ¬ W a → τ.byte a = σ.byte a

namespace Frame

variable {γ : Type} {W W' : Nat → Prop} {σ τ υ : Machine γ}

theorem refl (W : Nat → Prop) (σ : Machine γ) : Frame W σ σ := ⟨rfl, rfl, fun _ _ => rfl⟩

theorem trans (h : Frame W σ τ) (h' : Frame W τ υ) : Frame W σ υ :=
  ⟨h'.maps.trans h.maps, h'.glob.trans h.glob,
    fun a ha => (h'.byte a ha).trans (h.byte a ha)⟩

theorem mono (h : Frame W σ τ) (hw : ∀ a, W a → W' a) : Frame W' σ τ :=
  ⟨h.maps, h.glob, fun a ha => h.byte a (fun hW => ha (hw a hW))⟩

theorem put (h : Frame W σ τ) {n a v : Nat} (hw : ∀ b, a ≤ b → b < a + n → W b) :
    Frame W σ (τ.put n a v) := by
  refine ⟨h.maps, h.glob, fun b hb => ?_⟩
  have hne : ¬ (a ≤ b ∧ b < a + n) := fun hc => hb (hw b hc.1 hc.2)
  simpa [Machine.put, storeLE, hne] using h.byte b hb

theorem putPtr (h : Frame W σ τ) {a t : Nat} (hw : ∀ b, a ≤ b → b < a + 8 → W b) :
    Frame W σ (τ.putPtr a t) := h.put hw

theorem fill (h : Frame W σ τ) {n a : Nat} {v : UInt8}
    (hw : ∀ b, a ≤ b → b < a + n → W b) : Frame W σ (τ.fill a n v) := by
  refine ⟨h.maps, h.glob, fun b hb => ?_⟩
  have hne : ¬ (a ≤ b ∧ b < a + n) := fun hc => hb (hw b hc.1 hc.2)
  simpa [Machine.fill, fillBytes, hne] using h.byte b hb

theorem setLow (h : Frame W σ τ) {a : Nat} (hw : W a) : Frame W σ (τ.setLow a) := by
  refine ⟨h.maps, h.glob, fun b hb => ?_⟩
  have hne : b ≠ a := fun hc => hb (hc ▸ hw)
  simpa [Machine.setLow, setLowByte, hne] using h.byte b hb

theorem copy (h : Frame W σ τ) {d s n : Nat}
    (hw : ∀ b, d ≤ b → b < d + n → W b) : Frame W σ (τ.copy d s n) := by
  refine ⟨h.maps, h.glob, fun b hb => ?_⟩
  have hne : ¬ (d ≤ b ∧ b < d + n) := fun hc => hb (hw b hc.1 hc.2)
  simpa [Machine.copy, copyBytes, hne] using h.byte b hb

theorem get (h : Frame W σ τ) {n a : Nat} (hd : ∀ b, a ≤ b → b < a + n → ¬ W b) :
    τ.get n a = σ.get n a := by
  simp only [Machine.get, Machine.mapped_congr h.maps]
  rw [loadLE_congr (fun b hb hb' => h.byte b (hd b hb hb'))]

theorem getPtr (h : Frame W σ τ) {a : Nat} (hd : ∀ b, a ≤ b → b < a + 8 → ¬ W b) :
    τ.getPtr a = σ.getPtr a := Machine.getPtr_of_get h.maps (h.get hd)

end Frame

/-- The machine `σ` with the bytes of `A` as `τ` has them. -/
def Machine.overlay {γ : Type} (σ τ : Machine γ) (A : Nat → Prop) [DecidablePred A] : Machine γ :=
  { σ with byte := fun b => if A b then τ.byte b else σ.byte b }

namespace Frame

variable {γ : Type} {W A : Nat → Prop} [DecidablePred A] {σ τ υ : Machine γ}

theorem overlay : Frame A σ (σ.overlay τ A) := ⟨rfl, rfl, fun _ ha => if_neg ha⟩

/-- What was written to `A` may as well have been there before. -/
theorem to_overlay (h : Frame (fun b => W b ∨ A b) σ τ) : Frame W (σ.overlay τ A) τ := by
  refine ⟨h.maps, h.glob, fun b hb => ?_⟩
  by_cases ha : A b
  · exact (if_pos ha).symm
  · have he := h.byte b fun hc => hc.elim hb ha
    exact he.trans (if_neg ha).symm

theorem overlay_both (h : Frame W σ τ) : Frame W (σ.overlay υ A) (τ.overlay υ A) := by
  refine ⟨h.maps, h.glob, fun b hb => ?_⟩
  by_cases ha : A b
  · exact (if_pos ha).trans (if_pos ha).symm
  · exact (if_neg ha).trans ((h.byte b hb).trans (if_neg ha).symm)

end Frame

/-- The bytes of the words at `fs`. -/
def Words (fs : List Nat) (b : Nat) : Prop := ∃ f ∈ fs, f ≤ b ∧ b < f + 8

namespace Frame

variable {γ : Type} {σ τ : Machine γ} {fs : List Nat}

theorem word (h : Frame (Words fs) σ τ) (f t : Nat) :
    Frame (Words (f :: fs)) σ (τ.putPtr f t) := by
  have hm : ∀ b, Words fs b → Words (f :: fs) b := by
    rintro b ⟨g, hg, hb⟩
    exact ⟨g, List.mem_cons_of_mem _ hg, hb⟩
  exact (h.mono hm).putPtr (fun b hb hb' => ⟨f, List.mem_cons_self, hb, hb'⟩)

theorem getPtr_words (h : Frame (Words fs) σ τ) {a : Nat}
    (hd : ∀ f ∈ fs, a + 8 ≤ f ∨ f + 8 ≤ a) : τ.getPtr a = σ.getPtr a := by
  refine h.getPtr ?_
  rintro b hb hb' ⟨f, hf, h1, h2⟩
  have hdf := hd f hf
  omega

end Frame

/-- The second machine shows every word and every pointer that the first shows. -/
structure Shows {γ : Type} (σ τ : Machine γ) : Prop where
  maps : ∀ r ∈ σ.maps, ∃ r' ∈ τ.maps, r'.1 ≤ r.1 ∧ r.2 ≤ r'.2
  get : ∀ {n a v : Nat}, σ.get n a = some v → τ.get n a = some v
  getPtr : ∀ {a v : Nat}, σ.getPtr a = some v → τ.getPtr a = some v

/-- It does so when it maps as much and has the same bytes there. -/
theorem shows_of_bytes {γ : Type} {σ τ : Machine γ}
    (hm : ∀ r ∈ σ.maps, ∃ r' ∈ τ.maps, r'.1 ≤ r.1 ∧ r.2 ≤ r'.2)
    (hb : ∀ r ∈ σ.maps, ∀ a, r.1 ≤ a → a < r.2 → τ.byte a = σ.byte a) : Shows σ τ := by
  have hsame : ∀ {a n}, σ.mapped a n = true →
      τ.mapped a n = true ∧ loadLE τ.byte a n = loadLE σ.byte a n := by
    intro a n h
    obtain ⟨r, hr, hin⟩ := List.any_eq_true.mp h
    obtain ⟨r', hr', h1, h2⟩ := hm r hr
    simp only [Bool.and_eq_true, decide_eq_true_eq] at hin
    constructor
    · exact Machine.mapped_of_mem hr' (by omega) (by omega)
    · exact loadLE_congr fun b hb1 hb2 => hb r hr b (by omega) (by omega)
  have hget : ∀ {n a v : Nat}, σ.get n a = some v → τ.get n a = some v := by
    intro n a v h
    have hma := Machine.mapped_of_get h
    obtain ⟨hmt, hl⟩ := hsame hma
    simp only [Machine.get, hma, hmt, if_true] at h ⊢
    rw [hl]
    exact h
  refine ⟨hm, hget, ?_⟩
  intro a v h
  simp only [Machine.getPtr] at h ⊢
  cases hw : σ.get 8 a with
  | none =>
    rw [hw] at h
    contradiction
  | some w =>
    rw [hw] at h
    rw [hget hw]
    simp only at h ⊢
    by_cases h1 : w = 1
    · rw [if_pos h1] at h ⊢
      exact h
    · rw [if_neg h1] at h ⊢
      by_cases hp : σ.mapped (pointsTo a w) 1 = true
      · rw [if_pos hp] at h
        rw [if_pos (hsame hp).1]
        exact h
      · rw [if_neg hp] at h
        contradiction

end Mmdata.Lib
