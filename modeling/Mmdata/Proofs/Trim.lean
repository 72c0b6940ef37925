import Mmdata.Proofs.Merge

namespace Mmdata.Proofs
open Lib Malloc

/-- The granularity that `sys_trim` divides by is in mapped memory outside the
arena. Where it is indeterminate, or zero, the trap counts as tolerated. -/
structure TrimOk (D : Trap → Prop) (σ : State) (m hi : Nat) : Prop where
  outside : σ.glob.pmparams + 24 ≤ m ∨ hi ≤ σ.glob.pmparams + 16
  mapped : σ.mapped (σ.glob.pmparams + 16) 8 = true
  known : σ.get 8 (σ.glob.pmparams + 16) = none → D .indeterminate
  nonzero : σ.get 8 (σ.glob.pmparams + 16) = some 0 → D .divZero

/-- The parameters of the process say what `sys_trim` divides by. -/
def Granular (σ : State) : Prop :=
  ∃ g, σ.get 8 (paramGranularity σ.glob.pmparams) = some g ∧ g ≠ 0

section

variable {D : Trap → Prop} {σ τ : State} {P : Nat → Prop} {m lo hi : Nat} {h : Heap}

theorem TrimOk.get (T : TrimOk D σ m hi) (hf : Frame (Own m hi P) σ τ) :
    τ.get 8 (σ.glob.pmparams + 16) = σ.get 8 (σ.glob.pmparams + 16) := by
  have hout := T.outside
  refine hf.get ?_
  rintro b h1 h2 ⟨h3, h4, _⟩
  omega

theorem TrimOk.frame (T : TrimOk D σ m hi) (hf : Frame (Own m hi P) σ τ) : TrimOk D τ m hi := by
  have hout := T.outside
  have hget := T.get hf
  refine ⟨?_, ?_, ?_, ?_⟩
  all_goals rw [hf.glob]
  · exact hout
  · rw [Machine.mapped_congr hf.maps]
    exact T.mapped
  · rw [hget]
    exact T.known
  · rw [hget]
    exact T.nonzero

theorem TrimOk.granular (T : TrimOk D σ m hi) (hf : Frame (Own m hi P) σ τ) (hG : Granular τ) :
    Granular σ := by
  obtain ⟨g, hg, h0⟩ := hG
  rw [hf.glob] at hg
  exact ⟨g, (T.get hf).symm.trans hg, h0⟩

/-- A top of `n` bytes is trimmed: it exceeds the trim threshold, and its foot. -/
def Exceeds (σ : State) (m n : Nat) : Prop :=
  topFootSize < n ∧ ∃ tc, σ.get 8 (m + 48) = some tc ∧ tc < n

theorem Exceeds.congr {n : Nat} (hE : Exceeds τ m n) (hw : τ.get 8 (m + 48) = σ.get 8 (m + 48)) :
    Exceeds σ m n := by
  obtain ⟨hfoot, tc, htc, hlt⟩ := hE
  exact ⟨hfoot, tc, hw.symm.trans htc, hlt⟩

theorem Exceeds.mono {n k : Nat} (hE : Exceeds σ m n) (hn : n ≤ k) : Exceeds σ m k := by
  obtain ⟨hfoot, tc, htc, hlt⟩ := hE
  exact ⟨by omega, tc, htc, by omega⟩

theorem own_of_quiet (hf : Frame (Quiet m hi P) σ τ) : Frame (Own m hi P) σ τ :=
  hf.mono fun _ hb => hb.own

/-- The trim threshold outlives everything but trimming. -/
theorem quiet_trimWord (hf : Frame (Quiet m hi P) σ τ) : τ.get 8 (m + 48) = σ.get 8 (m + 48) :=
  hf.get fun b h1 h2 hb => by
    have hw := hb.2
    omega

theorem loopFuel_succ : loopFuel = (2 ^ 64 - 1) + 1 := rfl

theorem wp_trimStore {a v : Nat} {Q : Unit → State → Prop} (O : Ok σ m lo hi h)
    (hv : v < 2 ^ 64) (ha : a = m + 48 ∨ a = m + 56)
    (hQ : ∀ τ, Ok τ m lo hi h → Frame (Own m hi (Payload h.chunks)) σ τ → Q () τ) :
    wp D (store 8 a v) Q σ := by
  have hhigh := O.core.arena.high
  refine O.core.arena.wp_store rfl (by omega) (by omega) ?_
  refine hQ _ ⟨O.core.setChecks inBins_free hv ha, O.dvOk⟩ ((Frame.refl _ σ).put ?_)
  exact fun b h1 h2 => O.core.scalar_own (by omega) (by omega)

/-- There is no other segment to release. -/
theorem wp_releaseUnusedSegments {Q : Nat → State → Prop} (O : Ok σ m lo hi h)
    (hQ : ∀ τ, Ok τ m lo hi h → Frame (Own m hi (Payload h.chunks)) σ τ → Q 0 τ) :
    wp D (releaseUnusedSegments m) Q σ := by
  unfold releaseUnusedSegments
  simp only [wp_bind, seg, segNext, releaseChecks]
  rw [wp_loadPtr O.core.scalars.segNext]
  have hloop : ∀ fuel, releaseLoop m (fuel + 1) 0 0 = pure 0 := fun _ => rfl
  rw [loopFuel_succ, hloop, wp_pure]
  refine wp_trimStore O (by decide) (Or.inr rfl) ?_
  intro τ hO hf
  exact hQ τ hO hf

/-- The segment is extern: trimming gives nothing back. It divides by the granularity where
top is larger than what is to stay. -/
theorem wp_sysTrim {Q : Nat → State → Prop} {pad : Nat} (O : Ok σ m lo hi h)
    (T : addSize pad topFootSize < h.topsize → TrimOk D σ m hi)
    (hQ : ∀ r τ, Ok τ m lo hi h → Frame (Own m hi (Payload h.chunks)) σ τ →
      (pad < maxRequest → addSize pad topFootSize < h.topsize → Granular σ) → Q r τ) :
    wp D (sysTrim m pad) Q σ := by
  have C := O.core
  have htop := C.tiled.le
  have hlow := C.arena.low
  have hword := C.arena.word
  obtain ⟨hpos, hfits⟩ := C.topFits
  -- what follows once no segment has been shrunk
  have hrest : (pad < maxRequest → addSize pad topFootSize < h.topsize → Granular σ) →
      wp D (releaseUnusedSegments m) (fun released τ =>
      wp D (load 8 (topsize m)) (fun ts τ =>
        wp D (load 8 (trimCheck m)) (fun tc τ =>
          wp D (if released = 0 ∧ ts > tc then do
              store 8 (trimCheck m) maxSizeT
              pure (if released ≠ 0 then 1 else 0)
            else pure (if released ≠ 0 then 1 else 0)) Q τ) τ) τ) σ := by
    intro hgran
    refine wp_releaseUnusedSegments O ?_
    intro τ hO hf
    obtain ⟨tc, htc⟩ := hO.core.scalars.trimWord
    simp only [topsize, trimCheck]
    rw [wp_load hO.core.scalars.topWord, wp_load htc]
    by_cases hc : True ∧ h.topsize > tc
    · rw [wp_if_pos hc]
      simp only [wp_bind]
      refine wp_trimStore hO (by decide) (Or.inl rfl) ?_
      intro υ hO' hf'
      exact hQ _ υ hO' (hf.trans hf') hgran
    · rw [wp_if_neg hc]
      exact hQ _ τ hO hf hgran
  unfold sysTrim
  simp only [wp_bind, top]
  rw [wp_loadPtr C.scalars.topPtr]
  by_cases hpad : pad < maxRequest
  swap
  · rw [wp_if_neg fun hc => hpad hc.1]
    exact hQ 0 σ O (Frame.refl _ σ) fun hlt => absurd hlt hpad
  rw [wp_if_pos ⟨hpad, by omega⟩]
  simp only [wp_bind]
  simp only [topsize] at hrest ⊢
  rw [wp_load C.scalars.topWord]
  by_cases hts : h.topsize > addSize pad topFootSize
  · have T := T hts
    rw [wp_if_pos hts]
    simp only [wp_bind, paramGranularity]
    rw [wp_globals]
    refine wp_load_any T.mapped T.known ?_
    intro u hu
    by_cases hu0 : u = 0
    · rw [wp_if_pos hu0, wp_bind]
      exact T.nonzero (hu0 ▸ hu)
    · rw [wp_if_neg hu0]
      have hseg : ∀ fuel, wp D (segmentHolding h.top (fuel + 1) (seg m))
          (fun sp τ => sp = seg m ∧ σ = τ) σ := by
        intro fuel
        simp only [segmentHolding, wp_bind, seg, segBase, segSize]
        have hlo : σ.mapped lo 1 = true :=
          Machine.mapped_of_getPtr_ne_zero C.scalars.segBase (Nat.ne_of_gt C.arena.pos)
        rw [wp_loadPtr C.scalars.segBase, wp_checkPtr hlo,
          wp_load (show σ.get 8 (m + 880 + 8) = _ from C.scalars.segSize),
          wp_if_pos ⟨by omega, by omega⟩]
        exact ⟨rfl, rfl⟩
      simp only [wp_bind]
      rw [loopFuel_succ]
      refine wp_mono (hseg (2 ^ 64 - 1)) ?_
      rintro _ _ ⟨rfl, rfl⟩
      simp only [seg, segFlags]
      rw [wp_load (show σ.get 4 (m + 880 + 24) = _ from C.scalars.segFlags),
        wp_if_neg (by decide)]
      simp only [wp_bind]
      exact hrest fun _ _ => ⟨u, hu, hu0⟩
  · rw [wp_if_neg hts]
    simp only [wp_bind]
    exact hrest fun _ hlt => absurd hlt hts

end

end Mmdata.Proofs
