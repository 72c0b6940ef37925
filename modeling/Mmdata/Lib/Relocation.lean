import Mmdata.Lib.Machine

namespace Mmdata.Lib

/-- A stretch of memory and the place it is moved to. A cell of the one matches a cell of
the other, which tells at least as much, and just as much where the relocation is exact. So
do the process-wide variables. The stretch keeps away from the null pointer and keeps its
alignment. -/
structure Relocation (γ : Type) where
  src : Nat
  dst : Nat
  size : Nat
  cell : Cell → Cell → Prop
  glob : γ → γ → Prop
  exact : Prop
  low : 64 ≤ src
  pos : 0 < dst
  srcWord : src + size ≤ 2 ^ 64
  dstWord : dst + size ≤ 2 ^ 64
  align : src % 8 = dst % 8
  known : ∀ b, cell (.known b) (.known b)
  get : ∀ {c d b}, cell c d → c.get? = some b → d.get? = some b
  lowBit : ∀ {c d v}, cell c d → c.low? = some v → d.low? = some v
  setLow : ∀ {c d}, cell c d → cell c.setLow d.setLow
  exactGet : ∀ {c d}, exact → cell c d → c.get? = none → d.get? = none
  exactLow : ∀ {c d}, exact → cell c d → c.low? = none → d.low? = none

namespace Relocation

variable {γ : Type} (L : Relocation γ)

/-- Traps that do not come of a narrower view of memory. -/
def Loud (e : Trap) : Prop := e ≠ .segv ∧ e ≠ .wild ∧ (e = .indeterminate → L.exact)

/-- The address `t` of the stretch, or beyond it, moves to `t'`. -/
def Moves (t t' : Nat) : Prop := L.src ≤ t ∧ t + L.dst = t' + L.src

/-- Both null, or an address and where it moves. -/
def Points (t t' : Nat) : Prop := t = 0 ∧ t' = 0 ∨ L.Moves t t'

/-- Where an access at `a` is inside the stretch, `a'` is where `a` moves. -/
def Aims (a a' : Nat) : Prop := L.src ≤ a → L.Moves a a'

/-- The first machine has nothing mapped but the stretch, and the second has there what the
first has. -/
structure Match (σ τ : Machine γ) : Prop where
  only : σ.maps = [(L.src, L.src + L.size)]
  mapped : ∃ r ∈ τ.maps, r.1 ≤ L.dst ∧ L.dst + L.size ≤ r.2
  cells : ∀ i < L.size, L.cell (σ.byte (L.src + i)) (τ.byte (L.dst + i))
  glob : L.glob σ.glob τ.glob

/-- The machine keeps its mappings and the bytes outside the place moved to. -/
structure Inside (τ υ : Machine γ) : Prop where
  maps : υ.maps = τ.maps
  byte : ∀ a, a < L.dst ∨ L.dst + L.size ≤ a → υ.byte a = τ.byte a

/-- From machines that match, the first run is followed by the second: they end alike, with
machines that match. Where the first faults for its narrower view, nothing is said. -/
def Alike {α β : Type} (x : Prog γ α) (y : Prog γ β) (R : α → β → Prop) : Prop :=
  ∀ σ τ, L.Match σ τ →
    match x σ with
    | .ok (r, σ') => ∃ r' τ', y τ = .ok (r', τ') ∧ R r r' ∧ L.Match σ' τ' ∧ L.Inside τ τ'
    | .error e => L.Loud e → y τ = .error e

/-- The program always faults in the narrower view. -/
def Faults {α : Type} (x : Prog γ α) : Prop :=
  ∀ σ, σ.maps = [(L.src, L.src + L.size)] → x σ = .error .segv

/-- The program faults, or it keeps what is mapped. -/
def Timid {α : Type} (x : Prog γ α) : Prop :=
  ∀ σ, σ.maps = [(L.src, L.src + L.size)] →
    (∃ r σ', x σ = .ok (r, σ') ∧ σ'.maps = σ.maps) ∨ x σ = .error .segv

section

variable {L} {α β α' β' : Type} {σ τ υ : Machine γ} {a a' b b' t t' u u' n k : Nat}

/-! Addresses. -/

theorem Moves.add (h : L.Moves t t') (k : Nat) : L.Moves (t + k) (t' + k) := by
  obtain ⟨h1, h2⟩ := h
  exact ⟨by omega, by omega⟩

theorem Moves.sub (h : L.Moves t t') (hk : L.src + k ≤ t) : L.Moves (t - k) (t' - k) := by
  obtain ⟨h1, h2⟩ := h
  exact ⟨by omega, by omega⟩

theorem Moves.ne_zero (h : L.Moves t t') : t ≠ 0 ∧ t' ≠ 0 := by
  obtain ⟨h1, h2⟩ := h
  have hlow := L.low
  have hpos := L.pos
  exact ⟨by omega, by omega⟩

theorem Moves.eq_iff (h : L.Moves t t') (g : L.Moves u u') : t = u ↔ t' = u' := by
  obtain ⟨_, h2⟩ := h
  obtain ⟨_, g2⟩ := g
  omega

theorem Moves.le_iff (h : L.Moves t t') (g : L.Moves u u') : t ≤ u ↔ t' ≤ u' := by
  obtain ⟨_, h2⟩ := h
  obtain ⟨_, g2⟩ := g
  omega

theorem Moves.align (h : L.Moves t t') : t % 8 = t' % 8 := by
  obtain ⟨_, h2⟩ := h
  have hal := L.align
  omega

theorem Moves.points (h : L.Moves t t') : L.Points t t' := Or.inr h

theorem Moves.aims (h : L.Moves t t') : L.Aims t t' := fun _ => h

theorem points_null : L.Points 0 0 := Or.inl ⟨rfl, rfl⟩

theorem Points.zero_iff (h : L.Points t t') : t = 0 ↔ t' = 0 := by
  cases h with
  | inl h => exact iff_of_true h.1 h.2
  | inr h => exact iff_of_false h.ne_zero.1 h.ne_zero.2

theorem Points.moves (h : L.Points t t') (h0 : t ≠ 0) : L.Moves t t' := by
  cases h with
  | inl h => exact absurd h.1 h0
  | inr h => exact h

theorem Points.eq_iff (h : L.Points t t') (g : L.Points u u') : t = u ↔ t' = u' := by
  cases h with
  | inl h =>
    obtain ⟨rfl, rfl⟩ := h
    rw [eq_comm, g.zero_iff]
    exact eq_comm
  | inr h =>
    cases g with
    | inl g =>
      obtain ⟨rfl, rfl⟩ := g
      exact iff_of_false h.ne_zero.1 h.ne_zero.2
    | inr g => exact h.eq_iff g

theorem Points.le_iff (h : L.Points t t') (g : L.Points u u') : t ≤ u ↔ t' ≤ u' := by
  cases h with
  | inl h =>
    obtain ⟨rfl, rfl⟩ := h
    exact iff_of_true (Nat.zero_le u) (Nat.zero_le u')
  | inr h =>
    cases g with
    | inl g =>
      obtain ⟨rfl, rfl⟩ := g
      have hne := h.ne_zero
      omega
    | inr g => exact h.le_iff g

/-- A field of an object that may be null. -/
theorem Points.field (h : L.Points t t') (hk : k < 64) : L.Aims (t + k) (t' + k) := by
  intro hsrc
  cases h with
  | inl h =>
    have hlow := L.low
    omega
  | inr h => exact h.add k

/-! Machines that match. -/

theorem inside_refl (τ : Machine γ) : L.Inside τ τ := ⟨rfl, fun _ _ => rfl⟩

theorem Inside.trans (h : L.Inside σ τ) (g : L.Inside τ υ) : L.Inside σ υ :=
  ⟨g.maps.trans h.maps, fun a ha => (g.byte a ha).trans (h.byte a ha)⟩

theorem mapped_only (h : σ.maps = [(L.src, L.src + L.size)]) :
    σ.mapped a n = true ↔ L.src ≤ a ∧ a + n ≤ L.src + L.size := by
  simp [Machine.mapped, h]

/-- What the first machine can access, the second can access where it moved. -/
theorem Match.access (M : L.Match σ τ) (h : L.Aims a a') (hm : σ.mapped a n = true) :
    L.Moves a a' ∧ a + n ≤ L.src + L.size ∧ τ.mapped a' n = true := by
  obtain ⟨h1, h2⟩ := (mapped_only M.only).mp hm
  have hmoves := h h1
  obtain ⟨r, hr, hlo, hhi⟩ := M.mapped
  have heq := hmoves.2
  exact ⟨hmoves, h2, Machine.mapped_of_mem hr (by omega) (by omega)⟩

theorem Match.cell_at (M : L.Match σ τ) (h : L.Moves a a') (ha : a < L.src + L.size) :
    L.cell (σ.byte a) (τ.byte a') := by
  obtain ⟨h1, h2⟩ := h
  have hc := M.cells (a - L.src) (by omega)
  rw [show L.src + (a - L.src) = a by omega, show L.dst + (a - L.src) = a' by omega] at hc
  exact hc

theorem Match.word (M : L.Match σ τ) {v : Nat} (h : L.Moves a a') (hn : a + n ≤ L.src + L.size)
    (hv : loadLE σ.byte a n = some v) : loadLE τ.byte a' n = some v := by
  induction n generalizing a a' v with
  | zero => exact hv
  | succ n ih =>
    simp only [loadLE] at hv ⊢
    have hc := M.cell_at h (by omega)
    split at hv
    · rename_i b r hb hr
      rw [L.get hc hb, ih (h.add 1) (by omega) hr]
      exact hv
    · contradiction

/-- Where the relocation is exact, a word that cannot be read cannot be read where it moves. -/
theorem Match.noWord (M : L.Match σ τ) (hL : L.exact) (h : L.Moves a a')
    (hn : a + n ≤ L.src + L.size) (hv : loadLE σ.byte a n = none) :
    loadLE τ.byte a' n = none := by
  induction n generalizing a a' with
  | zero => contradiction
  | succ n ih =>
    simp only [loadLE] at hv ⊢
    have hc := M.cell_at h (by omega)
    cases hb : (σ.byte a).get? with
    | none => rw [L.exactGet hL hc hb]
    | some b =>
      cases hr : loadLE σ.byte (a + 1) n with
      | none =>
        rw [ih (h.add 1) (by omega) hr]
        split <;> first | rfl | contradiction
      | some r =>
        rw [hb, hr] at hv
        contradiction

/-- A stretch that stays where it is: the second machine shows what the first does. -/
theorem Match.shows (M : L.Match σ τ) (hL : L.dst = L.src) : Shows σ τ := by
  have haims : ∀ a, L.Aims a a := fun a h => ⟨h, by omega⟩
  have hget : ∀ {n a v : Nat}, σ.get n a = some v → τ.get n a = some v := by
    intro n a v h
    have hm := Machine.mapped_of_get h
    obtain ⟨hmove, hn, hm'⟩ := M.access (haims a) hm
    simp only [Machine.get, hm, hm', if_true] at h ⊢
    exact M.word hmove hn h
  refine ⟨?_, hget, ?_⟩
  · intro r hr
    rw [M.only, List.mem_singleton] at hr
    subst hr
    obtain ⟨r', hr', h1, h2⟩ := M.mapped
    exact ⟨r', hr', by simp only; omega, by simp only; omega⟩
  · intro a v h
    simp only [Machine.getPtr] at h ⊢
    cases hw : σ.get 8 a with
    | none =>
      rw [hw] at h
      contradiction
    | some w =>
      rw [hw] at h
      rw [hget hw]
      simp only at h ⊢
      by_cases h1 : w = 1
      · rw [if_pos h1] at h ⊢
        exact h
      · rw [if_neg h1] at h ⊢
        by_cases hp : σ.mapped (pointsTo a w) 1 = true
        · rw [if_pos hp] at h
          rw [if_pos (M.access (haims _) hp).2.2]
          exact h
        · rw [if_neg hp] at h
          contradiction

/-- Both machines change their bytes in the same way. -/
theorem Match.write (M : L.Match σ τ) {m m' : Bytes}
    (hc : ∀ i < L.size, L.cell (m (L.src + i)) (m' (L.dst + i))) :
    L.Match { σ with byte := m } { τ with byte := m' } := ⟨M.only, M.mapped, hc, M.glob⟩

theorem Match.put (M : L.Match σ τ) {v : Nat} (h : L.Moves a a') (hn : a + n ≤ L.src + L.size) :
    L.Match (σ.put n a v) (τ.put n a' v) ∧ L.Inside τ (τ.put n a' v) := by
  obtain ⟨h1, h2⟩ := h
  refine ⟨M.write ?_, rfl, ?_⟩
  · intro i hi
    by_cases hin : a ≤ L.src + i ∧ L.src + i < a + n
    · have hin' : a' ≤ L.dst + i ∧ L.dst + i < a' + n := by omega
      simp only [storeLE, if_pos hin, if_pos hin']
      rw [show L.src + i - a = L.dst + i - a' by omega]
      exact L.known _
    · have hin' : ¬ (a' ≤ L.dst + i ∧ L.dst + i < a' + n) := by omega
      simp only [storeLE, if_neg hin, if_neg hin']
      exact M.cells i hi
  · intro b hb
    have hout : ¬ (a' ≤ b ∧ b < a' + n) := by omega
    simp only [Machine.put, storeLE, if_neg hout]

theorem Match.fill (M : L.Match σ τ) {v : UInt8} (h : L.Moves a a')
    (hn : a + n ≤ L.src + L.size) :
    L.Match (σ.fill a n v) (τ.fill a' n v) ∧ L.Inside τ (τ.fill a' n v) := by
  obtain ⟨h1, h2⟩ := h
  refine ⟨M.write ?_, rfl, ?_⟩
  · intro i hi
    by_cases hin : a ≤ L.src + i ∧ L.src + i < a + n
    · have hin' : a' ≤ L.dst + i ∧ L.dst + i < a' + n := by omega
      simp only [fillBytes, if_pos hin, if_pos hin']
      exact L.known _
    · have hin' : ¬ (a' ≤ L.dst + i ∧ L.dst + i < a' + n) := by omega
      simp only [fillBytes, if_neg hin, if_neg hin']
      exact M.cells i hi
  · intro b hb
    have hout : ¬ (a' ≤ b ∧ b < a' + n) := by omega
    simp only [Machine.fill, fillBytes, if_neg hout]

theorem Match.setLowAt (M : L.Match σ τ) (h : L.Moves a a') (hn : a < L.src + L.size) :
    L.Match (σ.setLow a) (τ.setLow a') ∧ L.Inside τ (τ.setLow a') := by
  obtain ⟨h1, h2⟩ := h
  refine ⟨M.write ?_, rfl, ?_⟩
  · intro i hi
    by_cases hin : L.src + i = a
    · have hin' : L.dst + i = a' := by omega
      simp only [setLowByte, if_pos hin, if_pos hin']
      exact L.setLow (M.cells i hi)
    · have hin' : ¬ L.dst + i = a' := by omega
      simp only [setLowByte, if_neg hin, if_neg hin']
      exact M.cells i hi
  · intro c hc
    have hout : ¬ c = a' := by omega
    simp only [Machine.setLow, setLowByte, if_neg hout]

theorem Match.copy (M : L.Match σ τ) (h : L.Moves a a') (hn : a + n ≤ L.src + L.size)
    (g : L.Moves b b') (gn : b + n ≤ L.src + L.size) :
    L.Match (σ.copy a b n) (τ.copy a' b' n) ∧ L.Inside τ (τ.copy a' b' n) := by
  obtain ⟨h1, h2⟩ := h
  refine ⟨M.write ?_, rfl, ?_⟩
  · intro i hi
    by_cases hin : a ≤ L.src + i ∧ L.src + i < a + n
    · have hin' : a' ≤ L.dst + i ∧ L.dst + i < a' + n := by omega
      simp only [copyBytes, if_pos hin, if_pos hin']
      have hoff : L.dst + i - a' = L.src + i - a := by omega
      rw [hoff]
      exact M.cell_at (g.add _) (by omega)
    · have hin' : ¬ (a' ≤ L.dst + i ∧ L.dst + i < a' + n) := by omega
      simp only [copyBytes, if_neg hin, if_neg hin']
      exact M.cells i hi
  · intro c hc
    have hout : ¬ (a' ≤ c ∧ c < a' + n) := by omega
    simp only [Machine.copy, copyBytes, if_neg hout]

/-! Rules. -/

variable {x : Prog γ α} {y : Prog γ β} {f : α → Prog γ α'} {g : β → Prog γ β'}
  {R : α → β → Prop} {S : α' → β' → Prop}

theorem alike_pure {r : α} {r' : β} (h : R r r') : L.Alike (pure r) (pure r') R :=
  fun _ τ M => ⟨r', τ, rfl, h, M, inside_refl τ⟩

theorem alike_bind (hx : L.Alike x y R) (hf : ∀ r r', R r r' → L.Alike (f r) (g r') S) :
    L.Alike (x >>= f) (y >>= g) S := by
  intro σ τ M
  have h := hx σ τ M
  simp only [bind]
  cases hxσ : x σ with
  | error e =>
    rw [hxσ] at h
    simp only at h ⊢
    intro he
    rw [h he]
  | ok p =>
    obtain ⟨r, σ'⟩ := p
    rw [hxσ] at h
    obtain ⟨r', τ', hy, hR, M', hI⟩ := h
    have h' := hf r r' hR σ' τ' M'
    simp only [hy]
    cases hfσ : f r σ' with
    | error e =>
      rw [hfσ] at h'
      exact h'
    | ok q =>
      obtain ⟨s, σ''⟩ := q
      rw [hfσ] at h'
      obtain ⟨s', τ'', hg, hS, M'', hI'⟩ := h'
      exact ⟨s', τ'', hg, hS, M'', hI.trans hI'⟩

/-- What holds of the first run holds of a run that the second matches. -/
theorem Alike.wp {D : Trap → Prop} {Q : α → Machine γ → Prop} (h : L.Alike x y R)
    (M : L.Match σ τ) (hx : Lib.wp D x Q σ) (hD : ∀ e, D e → L.Loud e) :
    Lib.wp D y (fun r' τ' => ∃ r σ', Q r σ' ∧ R r r' ∧ L.Match σ' τ' ∧ L.Inside τ τ') τ := by
  have h' := h σ τ M
  unfold Lib.wp at hx ⊢
  cases hxσ : x σ with
  | error e =>
    rw [hxσ] at h' hx
    rw [h' (hD e hx)]
    exact hx
  | ok p =>
    obtain ⟨r, σ'⟩ := p
    rw [hxσ] at h' hx
    obtain ⟨r', τ', hy, hR, M', hI⟩ := h'
    rw [hy]
    exact ⟨r, σ', hx, hR, M', hI⟩

theorem alike_trap {e : Trap} : L.Alike (trap e : Prog γ α) (trap e : Prog γ β) R :=
  fun _ _ _ _ => rfl

theorem alike_if {c c' : Prop} [Decidable c] [Decidable c'] {x' : Prog γ α} {y' : Prog γ β}
    (hc : c ↔ c') (h : c → L.Alike x y R) (h' : ¬ c → L.Alike x' y' R) :
    L.Alike (if c then x else x') (if c' then y else y') R := by
  by_cases hcc : c
  · rw [if_pos hcc, if_pos (hc.mp hcc)]
    exact h hcc
  · rw [if_neg hcc, if_neg fun hc' => hcc (hc.mpr hc')]
    exact h' hcc

theorem alike_globals : L.Alike globals globals L.glob :=
  fun _ τ M => ⟨τ.glob, τ, rfl, M.glob, M, inside_refl τ⟩

theorem alike_setGlobals {v v' : γ} (h : L.glob v v') :
    L.Alike (setGlobals v) (setGlobals v') fun _ _ => True := by
  intro σ τ M
  exact ⟨(), { τ with glob := v' }, rfl, trivial, ⟨M.only, M.mapped, M.cells, h⟩, rfl,
    fun _ _ => rfl⟩

theorem alike_load (h : L.Aims a a') : L.Alike (load n a) (load n a') Eq := by
  intro σ τ M
  cases hm : σ.mapped a n with
  | false =>
    have hx : load n a σ = .error .segv := by
      unfold load
      rw [hm]
      rfl
    rw [hx]
    exact fun he => absurd rfl he.1
  | true =>
    obtain ⟨hmoves, hn, hm'⟩ := M.access h hm
    cases hv : loadLE σ.byte a n with
    | none =>
      have hx : load n a σ = .error .indeterminate := by
        simp only [load, hm, hv, if_true]
      rw [hx]
      intro he
      simp only [load, hm', M.noWord (he.2.2 rfl) hmoves hn hv, if_true]
    | some v =>
      have hx : load n a σ = .ok (v, σ) := by
        simp only [load, hm, hv, if_true]
      have hy : load n a' τ = .ok (v, τ) := by
        simp only [load, hm', M.word hmoves hn hv, if_true]
      rw [hx]
      exact ⟨v, τ, hy, rfl, M, inside_refl τ⟩

theorem alike_store {v : Nat} (h : L.Aims a a') :
    L.Alike (store n a v) (store n a' v) fun _ _ => True := by
  intro σ τ M
  cases hm : σ.mapped a n with
  | false =>
    have hx : store n a v σ = .error .segv := by simp [store, hm]
    rw [hx]
    exact fun he => absurd rfl he.1
  | true =>
    obtain ⟨hmoves, hn, hm'⟩ := M.access h hm
    have hx : store n a v σ = .ok ((), σ.put n a v) := by simp [store, hm]
    have hy : store n a' v τ = .ok ((), τ.put n a' v) := by simp [store, hm']
    obtain ⟨M', hI⟩ := M.put hmoves hn (v := v)
    rw [hx]
    exact ⟨(), _, hy, trivial, M', hI⟩

theorem alike_update {v : Nat → Nat} (h : L.Aims a a') :
    L.Alike (update n a v) (update n a' v) fun _ _ => True := by
  apply alike_bind (alike_load h)
  intro w w' hw
  cases hw
  exact alike_store h

theorem alike_loadLow (h : L.Aims a a') : L.Alike (loadLow a) (loadLow a') Eq := by
  intro σ τ M
  cases hm : σ.mapped a 8 with
  | false =>
    have hx : loadLow a σ = .error .segv := by
      unfold loadLow
      rw [hm]
      rfl
    rw [hx]
    exact fun he => absurd rfl he.1
  | true =>
    obtain ⟨hmoves, hn, hm'⟩ := M.access h hm
    have hc := M.cell_at hmoves (by omega)
    cases hv : (σ.byte a).low? with
    | none =>
      have hx : loadLow a σ = .error .indeterminate := by
        simp only [loadLow, hm, hv, if_true]
      rw [hx]
      intro he
      simp only [loadLow, hm', L.exactLow (he.2.2 rfl) hc hv, if_true]
    | some v =>
      have hx : loadLow a σ = .ok (v, σ) := by
        simp only [loadLow, hm, hv, if_true]
      have hy : loadLow a' τ = .ok (v, τ) := by
        simp only [loadLow, hm', L.lowBit hc hv, if_true]
      rw [hx]
      exact ⟨v, τ, hy, rfl, M, inside_refl τ⟩

theorem alike_setLowBit (h : L.Aims a a') :
    L.Alike (setLowBit a) (setLowBit a') fun _ _ => True := by
  intro σ τ M
  cases hm : σ.mapped a 8 with
  | false =>
    have hx : setLowBit a σ = .error .segv := by simp [setLowBit, hm]
    rw [hx]
    exact fun he => absurd rfl he.1
  | true =>
    obtain ⟨hmoves, hn, hm'⟩ := M.access h hm
    have hx : setLowBit a σ = .ok ((), σ.setLow a) := by simp [setLowBit, hm]
    have hy : setLowBit a' τ = .ok ((), τ.setLow a') := by simp [setLowBit, hm']
    obtain ⟨M', hI⟩ := M.setLowAt hmoves (by omega)
    rw [hx]
    exact ⟨(), _, hy, trivial, M', hI⟩

theorem alike_memset {v : UInt8} (h : L.Aims a a') :
    L.Alike (memset a n v) (memset a' n v) fun _ _ => True := by
  intro σ τ M
  cases hm : σ.mapped a n with
  | false =>
    have hx : memset a n v σ = .error .segv := by simp [memset, hm]
    rw [hx]
    exact fun he => absurd rfl he.1
  | true =>
    obtain ⟨hmoves, hn, hm'⟩ := M.access h hm
    have hx : memset a n v σ = .ok ((), σ.fill a n v) := by simp [memset, hm]
    have hy : memset a' n v τ = .ok ((), τ.fill a' n v) := by simp [memset, hm']
    obtain ⟨M', hI⟩ := M.fill hmoves hn (v := v)
    rw [hx]
    exact ⟨(), _, hy, trivial, M', hI⟩

theorem alike_memcpy (h : L.Aims a a') (g : L.Aims b b') :
    L.Alike (memcpy a b n) (memcpy a' b' n) fun _ _ => True := by
  intro σ τ M
  by_cases hm : σ.mapped a n = true ∧ σ.mapped b n = true
  · obtain ⟨hmoves, hn, hm'⟩ := M.access h hm.1
    obtain ⟨gmoves, gn, gm'⟩ := M.access g hm.2
    have hx : memcpy a b n σ = .ok ((), σ.copy a b n) := by simp [memcpy, hm]
    have hy : memcpy a' b' n τ = .ok ((), τ.copy a' b' n) := by simp [memcpy, hm', gm']
    obtain ⟨M', hI⟩ := M.copy hmoves hn gmoves gn
    rw [hx]
    exact ⟨(), _, hy, trivial, M', hI⟩
  · have hx : memcpy a b n σ = .error .segv := by
      unfold memcpy
      rw [if_neg hm]
    rw [hx]
    exact fun he => absurd rfl he.1

theorem alike_checkPtr (h : L.Aims t t') : L.Alike (checkPtr t) (checkPtr t') L.Moves := by
  intro σ τ M
  cases hm : σ.mapped t 1 with
  | false =>
    have hx : checkPtr t σ = .error .wild := by simp [checkPtr, hm]
    rw [hx]
    exact fun he => absurd rfl he.2.1
  | true =>
    obtain ⟨hmoves, hn, hm'⟩ := M.access h hm
    have hx : checkPtr t σ = .ok (t, σ) := by simp [checkPtr, hm]
    have hy : checkPtr t' τ = .ok (t', τ) := by simp [checkPtr, hm']
    rw [hx]
    exact ⟨t', τ, hy, hmoves, M, inside_refl τ⟩

/-- The word of a pointer moves along with its target. -/
theorem Moves.pointsTo {w : Nat} (h : L.Moves a a') (ht : pointsTo a w < L.src + L.size)
    (hsrc : L.src ≤ pointsTo a w) : L.Moves (pointsTo a w) (pointsTo a' w) := by
  obtain ⟨h1, h2⟩ := h
  have hs := L.srcWord
  have hd := L.dstWord
  unfold Lib.pointsTo at ht hsrc ⊢
  exact ⟨hsrc, by omega⟩

theorem alike_loadPtr (h : L.Aims a a') : L.Alike (loadPtr a) (loadPtr a') L.Points := by
  intro σ τ M
  have hload := alike_load h (n := 8) σ τ M
  unfold loadPtr
  simp only [bind]
  cases hw : load 8 a σ with
  | error e =>
    rw [hw] at hload
    simp only at hload ⊢
    intro he
    rw [hload he]
  | ok p =>
    obtain ⟨w, σ₁⟩ := p
    have hmap : σ.mapped a 8 = true ∧ σ₁ = σ := by
      unfold load at hw
      split at hw
      · rename_i hm
        split at hw
        · cases hw
          exact ⟨hm, rfl⟩
        · contradiction
      · contradiction
    obtain ⟨hm, rfl⟩ := hmap
    rw [hw] at hload
    obtain ⟨w', τ₁, hy, rfl, M₁, hI₁⟩ := hload
    have hmoves := (M.access h hm).1
    simp only [hy]
    by_cases h1 : w = 1
    · simp only [if_pos h1]
      exact ⟨0, τ₁, rfl, points_null, M₁, hI₁⟩
    · simp only [if_neg h1]
      cases hp : σ₁.mapped (Lib.pointsTo a w) 1 with
      | false =>
        have hx : checkPtr (Lib.pointsTo a w) σ₁ = .error .wild := by simp [checkPtr, hp]
        rw [hx]
        exact fun he => absurd rfl he.2.1
      | true =>
        have hin := (mapped_only M.only).mp hp
        have hto : L.Moves (Lib.pointsTo a w) (Lib.pointsTo a' w) :=
          hmoves.pointsTo (by omega) hin.1
        obtain ⟨_, _, hp'⟩ := M₁.access hto.aims hp
        have hx : checkPtr (Lib.pointsTo a w) σ₁ = .ok (Lib.pointsTo a w, σ₁) := by
          simp [checkPtr, hp]
        have hy' : checkPtr (Lib.pointsTo a' w) τ₁ = .ok (Lib.pointsTo a' w, τ₁) := by
          simp [checkPtr, hp']
        rw [hx]
        exact ⟨_, τ₁, hy', hto.points, M₁, hI₁⟩

/-- The same word is stored for a pointer and for where it moves. -/
theorem alike_storePtr (h : L.Aims a a') (ht : L.Points t t') :
    L.Alike (storePtr a t) (storePtr a' t') fun _ _ => True := by
  intro σ τ M
  by_cases hm : σ.mapped a 8 = true
  · obtain ⟨hmoves, hn, _⟩ := M.access h hm
    have hword : offsetTo a t = offsetTo a' t' := by
      cases ht with
      | inl ht => rw [ht.1, ht.2]; rfl
      | inr ht =>
        have hs := L.srcWord
        have hd := L.dstWord
        have hne := ht.ne_zero
        obtain ⟨_, h2⟩ := hmoves
        obtain ⟨_, g2⟩ := ht
        unfold offsetTo
        rw [if_neg hne.1, if_neg hne.2, show t + 2 ^ 64 - a = t' + 2 ^ 64 - a' by omega]
    unfold storePtr
    rw [← hword]
    exact alike_store h σ τ M
  · have hx : storePtr a t σ = .error .segv := by simp [storePtr, store, hm]
    rw [hx]
    exact fun he => absurd rfl he.1

/-! Faults. -/

theorem alike_of_faults (h : L.Faults x) : L.Alike x y R := by
  intro σ τ M
  rw [h σ M.only]
  exact fun he => absurd rfl he.1

theorem faults_bind (h : L.Faults x) : L.Faults (x >>= f) := by
  intro σ hσ
  simp only [bind, h σ hσ]

theorem faults_load (h : a < L.src) : L.Faults (load n a) := by
  intro σ hσ
  have hm : ¬ σ.mapped a n = true := by
    rw [mapped_only hσ]
    omega
  unfold load
  rw [if_neg hm]

theorem faults_store {v : Nat} (h : a < L.src) : L.Faults (store n a v) := by
  intro σ hσ
  have hm : ¬ σ.mapped a n = true := by
    rw [mapped_only hσ]
    omega
  unfold store
  rw [if_neg hm]

theorem faults_loadPtr (h : a < L.src) : L.Faults (loadPtr a) := faults_bind (faults_load h)

theorem timid_store {v : Nat} : L.Timid (store n a v) := by
  intro σ _
  by_cases hm : σ.mapped a n = true
  · exact Or.inl ⟨(), σ.put n a v, by simp [store, hm], rfl⟩
  · exact Or.inr (by simp [store, hm])

theorem timid_bind (hx : L.Timid x) (hf : ∀ r, L.Timid (f r)) : L.Timid (x >>= f) := by
  intro σ hσ
  simp only [bind]
  cases hx σ hσ with
  | inl h =>
    obtain ⟨r, σ', hr, hm⟩ := h
    rw [hr]
    have h' := hf r σ' (hm.trans hσ)
    rw [hm] at h'
    exact h'
  | inr h =>
    rw [h]
    exact Or.inr rfl

/-- A fault comes, at the latest, in the second part. -/
theorem faults_after (hx : L.Timid x) (hf : ∀ r, L.Faults (f r)) : L.Faults (x >>= f) := by
  intro σ hσ
  simp only [bind]
  cases hx σ hσ with
  | inl h =>
    obtain ⟨r, σ', hr, hm⟩ := h
    rw [hr]
    exact hf r σ' (hm.trans hσ)
  | inr h => rw [h]

end

end Relocation

end Mmdata.Lib
