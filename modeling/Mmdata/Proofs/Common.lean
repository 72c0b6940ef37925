import Mmdata.Proofs.Twins

namespace Mmdata.Proofs
open Lib Malloc Relocation

/-- The second cell tells at least what the first does. -/
def Tells (c d : Cell) : Prop :=
  (∀ b, c.get? = some b → d.get? = some b) ∧ ∀ v, c.low? = some v → d.low? = some v

/-- What two cells agree on. -/
def meet (c d : Cell) : Cell := if c = d then c else .unknown

/-- A process that maps the stretch only, and has there what both have. -/
def common (σ τ : State) (lo n : Nat) : State :=
  ⟨fun a => meet (σ.byte a) (τ.byte a), [(lo, lo + n)], σ.glob⟩

/-- The mappings stay, and the bytes outside the stretch. -/
def Beside (lo n : Nat) (σ τ : State) : Prop :=
  τ.maps = σ.maps ∧ ∀ a, a < lo ∨ lo + n ≤ a → τ.byte a = σ.byte a

section

variable {c d : Cell} {b : UInt8} {v lo n : Nat} {low : 64 ≤ lo} {word : lo + n ≤ 2 ^ 64}

theorem tells_refl (c : Cell) : Tells c c := ⟨fun _ h => h, fun _ h => h⟩

theorem tells_unknown (d : Cell) : Tells .unknown d := by
  refine ⟨?_, ?_⟩
  · intro b h
    contradiction
  · intro v h
    contradiction

theorem tells_known (b : UInt8) : Tells (.known b) (.known b) := tells_refl _

theorem tells_get (h : Tells c d) (hc : c.get? = some b) : d.get? = some b := h.1 b hc

theorem tells_low (h : Tells c d) (hc : c.low? = some v) : d.low? = some v := h.2 v hc

theorem low_setLow (c : Cell) : c.setLow.low? = some 1 := by
  cases c with
  | known b =>
    have hb := or_one_toNat b
    simp only [Cell.setLow, Cell.low?, hb]
    congr 1
    omega
  | unknown => rfl
  | lowSet => rfl

theorem tells_setLow (h : Tells c d) : Tells c.setLow d.setLow := by
  refine ⟨?_, ?_⟩
  · intro b hb
    cases c with
    | known x =>
      have hd := h.1 x rfl
      cases d with
      | known y =>
        cases hd
        exact hb
      | unknown => contradiction
      | lowSet => contradiction
    | unknown => contradiction
    | lowSet => contradiction
  · intro v hv
    rw [low_setLow] at hv ⊢
    exact hv

theorem tells_inexact {P : Prop} (h : False) : P := h.elim

theorem meet_left (c d : Cell) : Tells (meet c d) c := by
  unfold meet
  split
  · exact tells_refl c
  · exact tells_unknown c

theorem meet_right (c d : Cell) : Tells (meet c d) d := by
  unfold meet
  split
  · rename_i h
    exact h ▸ tells_refl c
  · exact tells_unknown d

/-- The stretch stays where it is, and less may be known of it. -/
def vague (lo n : Nat) (low : 64 ≤ lo) (word : lo + n ≤ 2 ^ 64) : Relocation Globals where
  src := lo
  dst := lo
  size := n
  cell := Tells
  glob := Eq
  exact := False
  low := low
  pos := pos_of_low low
  srcWord := word
  dstWord := word
  align := align_self lo
  known := tells_known
  get := tells_get
  lowBit := tells_low
  setLow := tells_setLow
  exactGet := tells_inexact
  exactLow := tells_inexact

theorem vague_params : ParamsMove (vague lo n low word) := by
  intro g g' hg
  cases (show g = g' from hg)
  exact ⟨rfl, fun o _ hle => ⟨hle, rfl⟩⟩

theorem vague_aims : AimsMove (vague lo n low word) := by
  intro g g' p p' hg hp
  cases (show g = g' from hg)
  have he : p + lo = p' + lo := hp.2
  cases Nat.add_right_cancel he
  exact rfl

theorem vague_points {t t' : Nat} (h : (vague lo n low word).Points t t') : t' = t := by
  cases h with
  | inl h => rw [h.1, h.2]
  | inr h =>
    have he : t + lo = t' + lo := h.2
    omega

end

/-- What the process `V` has of the stretch, both have. -/
structure Agreed (lo n : Nat) (V σ τ : State) : Prop where
  low : 64 ≤ lo
  word : lo + n ≤ 2 ^ 64
  left : (vague lo n low word).Match V σ
  right : (vague lo n low word).Match V τ

/-- Both have an mspace with the same blocks, and the same granularity. -/
def Twofold (base cap : Nat) (live : List Nat) (σ τ : State) : Prop :=
  ∃ V h, Agreed base cap V σ τ ∧ Held V base cap live h ∧ V.glob.pmparams = base ∧
    ∃ g, V.get 8 (paramGranularity base) = some g

section

variable {σ τ V : State} {base cap v n a : Nat} {live : List Nat} {c : Call}

theorem agreed_common (low : 64 ≤ base) (word : base + cap ≤ 2 ^ 64)
    (hσ : ∃ r ∈ σ.maps, r.1 ≤ base ∧ base + cap ≤ r.2)
    (hτ : ∃ r ∈ τ.maps, r.1 ≤ base ∧ base + cap ≤ r.2) (hg : τ.glob = σ.glob) :
    Agreed base cap (common σ τ base cap) σ τ :=
  ⟨low, word, ⟨rfl, hσ, fun _ _ => meet_left _ _, rfl⟩,
    ⟨rfl, hτ, fun _ _ => meet_right _ _, hg.symm⟩⟩

/-- A word that both have. -/
theorem common_get (hσ : σ.get n a = some v) (hτ : τ.get n a = some v) (h1 : base ≤ a)
    (h2 : a + n ≤ base + cap) : (common σ τ base cap).get n a = some v := by
  have hm : (common σ τ base cap).mapped a n = true :=
    Machine.mapped_of_mem List.mem_cons_self h1 h2
  have hmσ := Machine.mapped_of_get hσ
  have hmτ := Machine.mapped_of_get hτ
  simp only [Machine.get, hm, hmσ, hmτ, if_true] at hσ hτ ⊢
  rw [← hσ]
  apply loadLE_congr
  intro b hb1 hb2
  have hb := loadLE_byte hσ (show b - a < n by omega)
  have hb' := loadLE_byte hτ (show b - a < n by omega)
  rw [show a + (b - a) = b by omega] at hb hb'
  show meet (σ.byte b) (τ.byte b) = σ.byte b
  unfold meet
  rw [if_pos (hb.trans hb'.symm)]

/-- What returns with what both have returns in both. -/
theorem Agreed.run {α : Type} {x : Code α} {R : α → α → Prop} {r : α} {V' : State}
    (A : Agreed base cap V σ τ) (hA : (vague base cap A.low A.word).Alike x x R)
    (hR : ∀ r', R r r' → r' = r) (hr : x V = .ok (r, V')) :
    ∃ σ' τ', x σ = .ok (r, σ') ∧ x τ = .ok (r, τ') ∧ Agreed base cap V' σ' τ' ∧
      Beside base cap σ σ' ∧ Beside base cap τ τ' := by
  have hσ := hA V σ A.left
  have hτ := hA V τ A.right
  rw [hr] at hσ hτ
  obtain ⟨r₁, σ', hrσ, h1, Mσ, hIσ⟩ := hσ
  obtain ⟨r₂, τ', hrτ, h2, Mτ, hIτ⟩ := hτ
  cases hR _ h1
  cases hR _ h2
  exact ⟨σ', τ', hrσ, hrτ, ⟨A.low, A.word, Mσ, Mτ⟩, ⟨hIσ.maps, hIσ.byte⟩, ⟨hIτ.maps, hIτ.byte⟩⟩

theorem Agreed.shows (A : Agreed base cap V σ τ) : Shows V σ ∧ Shows V τ :=
  ⟨A.left.shows rfl, A.right.shows rfl⟩

/-- A definite byte is the same in both. -/
theorem Agreed.byte (A : Agreed base cap V σ τ) (hd : ∃ b, V.byte a = .known b) (h1 : base ≤ a)
    (h2 : a < base + cap) : τ.byte a = σ.byte a := by
  obtain ⟨b, hb⟩ := hd
  have hget : ∀ c, Tells (V.byte a) c → c = .known b := by
    intro c hc
    have hv := hc.1 b (by rw [hb]; rfl)
    cases c with
    | known x =>
      cases hv
      rfl
    | unknown => contradiction
    | lowSet => contradiction
  have hσ := hget _ (A.left.cell_at ⟨h1, rfl⟩ h2)
  have hτ := hget _ (A.right.cell_at ⟨h1, rfl⟩ h2)
  rw [hσ, hτ]

/-- Bytes outside the stretch change. -/
theorem Agreed.beside (A : Agreed base cap V σ τ) {σ' τ' : State} {W : Nat → Prop}
    (hσ : Frame W σ σ') (hτ : Frame W τ τ') (hW : ∀ b, W b → b < base) :
    Agreed base cap V σ' τ' := by
  have hmove : ∀ {ρ ρ' : State}, (vague base cap A.low A.word).Match V ρ → Frame W ρ ρ' →
      (vague base cap A.low A.word).Match V ρ' := by
    intro ρ ρ' M hf
    refine ⟨M.only, hf.maps ▸ M.mapped, ?_, hf.glob ▸ M.glob⟩
    intro i hi
    have hc : Tells (V.byte (base + i)) (ρ.byte (base + i)) := M.cells i hi
    show Tells (V.byte (base + i)) (ρ'.byte (base + i))
    rw [hf.byte _ fun hb => absurd (hW _ hb) (Nat.not_lt.mpr (Nat.le_add_right base i))]
    exact hc
  exact ⟨A.low, A.word, hmove A.left hσ, hmove A.right hτ⟩

/-- A call that does not trim over a granularity of zero returns the same in both. -/
theorem Twofold.call (T : Twofold base cap live σ τ)
    (hc : Granular σ ∨ ¬ Trims σ (base + 64) live c) :
    ∃ r σ' τ', perform (base + 64) live c σ = .ok (r, σ') ∧
      perform (base + 64) live c τ = .ok (r, τ') ∧ Twofold base cap r.2 σ' τ' := by
  obtain ⟨V, h, A, H, hpm, g, hg⟩ := T
  have hshow := A.shows.1
  have hglob : V.glob = σ.glob := A.left.glob
  have hgran : CallTrims V (base + 64) h live c → g ≠ 0 := by
    intro hcall
    cases hc with
    | inl hG =>
      obtain ⟨g', hg', hne⟩ := hG
      rw [← hglob, hpm, hshow.get hg] at hg'
      cases hg'
      exact hne
    | inr hno =>
      have htrims := hcall.still A.left rfl (show base ≤ base + 64 by omega)
      exact absurd ⟨h, (H.shows hshow).sound, htrims⟩ hno
  have hrun : wp (fun _ => False) (perform (base + 64) live c) (fun r V' => ∃ h',
      Outcome V (base + 64) (base + 48) (base + cap) h live c r.1 r.2 V' h') V := by
    apply H.ok.wp_perform H.blocks
    intro hcall
    have hne := hgran hcall
    unfold paramGranularity at hg
    refine ⟨Or.inl (by omega), ?_, ?_, ?_⟩
    all_goals rw [hpm]
    · exact Machine.mapped_of_get hg
    · rw [hg]
      exact Option.some_ne_none g
    · rw [hg]
      exact fun hz => hne (Option.some.inj hz)
  obtain ⟨r, V', hr, h', hR⟩ := ok_of_wp hrun
  have hlive : LiveMoves (vague base cap A.low A.word) live live := by
    apply List.forall₂_same.mpr
    intro x hx
    obtain ⟨k, hk⟩ := List.getElem?_of_mem hx
    obtain ⟨p, s, rfl, hp⟩ := H.blocks.chunk hk
    have hb := H.ok.core.chunk_bounds (mem_live.mp hp)
    simp only at hb
    exact ⟨p, p, ⟨show base ≤ p by omega, rfl⟩, rfl, rfl⟩
  have hA := @alike_perform (vague base cap A.low A.word) (base + 64) (base + 64) vague_params
    ⟨Nat.le_add_right base 64, rfl⟩ live live hlive c
  obtain ⟨σ', τ', hσ, hτ, A', _, _⟩ := A.run hA (fun r' h => Prod.ext (mem_still rfl h.1)
    (live_still rfl h.2)) hr
  have hf := hR.frame H.ok
  refine ⟨r, σ', τ', hσ, hτ, V', h', A', H.outcome hR, by rw [hf.glob, hpm], g, ?_⟩
  rw [hf.get]
  · exact hg
  · intro b _ hb2 hw
    have hw1 := hw.1
    unfold paramGranularity at hb2
    omega

end

end Mmdata.Proofs
