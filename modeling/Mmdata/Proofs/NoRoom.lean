import Mmdata.Proofs.BestFit

namespace Mmdata.Proofs
open Lib Malloc

/-- Every binned free chunk and `dv` is too small for `nb` bytes, and top is not larger. -/
def NothingFits (h : Heap) (nb : Nat) : Prop :=
  (∀ a s, h.inBins a s → s < nb) ∧ h.dvsize < nb ∧ h.topsize ≤ nb

/-- If anything fits `nb` bytes, so does `dv`, top, or a binned chunk that the search comes
across. -/
def InView (h : Heap) (nb : Nat) : Prop := h.Fits nb → h.Finds nb

section

variable {σ τ : State} {m lo hi a s nb base cap ms : Nat} {h : Heap} {live : List Nat}

theorem nothingFits_iff : NothingFits h nb ↔ ¬ h.Fits nb := by
  constructor
  · rintro ⟨hbins, hdv, htop⟩ (⟨a, s, ha, hle⟩ | hle | hlt)
    · have hs := hbins a s ha
      omega
    · omega
    · omega
  · intro hn
    refine ⟨fun a s ha => ?_, ?_, ?_⟩
    · by_contra hge
      exact hn (Or.inl ⟨a, s, ha, by omega⟩)
    · by_contra hge
      exact hn (Or.inr (Or.inl (by omega)))
    · by_contra hgt
      exact hn (Or.inr (Or.inr (by omega)))

theorem Heap.Finds.fits (hf : h.Finds nb) : h.Fits nb := by
  rcases hf with ⟨a, s, ha, hle, _⟩ | hf
  · exact Or.inl ⟨a, s, ha, hle⟩
  · exact Or.inr hf

/-- The search comes across a chunk that fits if there is one and neither index was cut. -/
theorem Ok.meets {τ : State} (O : Ok τ m lo hi h) (hnb : nb < 2 ^ 64) (hcut : Uncut nb)
    (ha : h.inBins a s) (hs : Uncut s) (hle : nb ≤ s) : h.Meets nb := by
  by_cases hsmall : nb < 256
  · exact ⟨a, s, ha, hle, Or.inl hsmall⟩
  · have h256 : 256 ≤ nb := by omega
    have hrun : wp (fun _ => False) (tmallocLargeSearch m nb) (fun _ _ => h.Meets nb) τ := by
      apply wp_tmallocLargeSearch O h256 hnb
      intro best S hpath
      exact (O.meets_iff h256).mpr (hpath.mp (S.found hcut a s ha (by omega) hs hle))
    obtain ⟨_, _, _, hmeets⟩ := ok_of_wp hrun
    exact hmeets

theorem Ok.inView {τ : State} (O : Ok τ m lo hi h) (hnb : nb < 2 ^ 64) (hcut : Uncut nb)
    (hall : ∀ a s, h.inBins a s → nb ≤ s → ∃ b t, h.inBins b t ∧ nb ≤ t ∧ Uncut t) :
    InView h nb := by
  rintro (⟨a, s, ha, hle⟩ | hf)
  · obtain ⟨b, t, hb, hle', ht⟩ := hall a s ha hle
    exact Or.inl (O.meets hnb hcut hb ht hle')
  · exact Or.inr hf

theorem Ok.inView_small {τ : State} (O : Ok τ m lo hi h) (hnb : nb < 2 ^ 64)
    (hsize : hi ≤ m + 2 ^ 40) : InView h nb := by
  have hlt : ∀ a s, h.inBins a s → s < 2 ^ 40 := by
    intro a s ha
    have hb := O.core.chunk_bounds ha.1
    simp only at hb
    omega
  by_cases hcut : Uncut nb
  · exact O.inView hnb hcut fun a s ha hle => ⟨a, s, ha, hle, uncut_of_lt (hlt a s ha)⟩
  · rintro (⟨a, s, ha, hle⟩ | hf)
    · have hs := hlt a s ha
      exact absurd (uncut_of_lt (by omega)) hcut
    · exact Or.inr hf

/-- In every state reached `mspace_malloc` returns, and it returns null exactly if nothing fits,
just when what fits is in view of the search. So it is if a binned chunk fits whose index was
not cut, nor that of the request, and always in an image of up to 2^40 bytes. -/
theorem malloc_null_iff (R : Reach base cap ms σ live) : ∃ h, Sound σ ms h ∧
    ∀ bytes < maxRequest, (∃ v τ, mspaceMalloc ms bytes σ = .ok (v, τ) ∧
      ((v = 0 ↔ NothingFits h (request2size bytes)) ↔ InView h (request2size bytes))) ∧
      (∀ a s, h.inBins a s → request2size bytes ≤ s → Uncut s → Uncut (request2size bytes) →
        InView h (request2size bytes)) ∧
      (cap ≤ 2 ^ 40 → InView h (request2size bytes)) := by
  obtain ⟨rfl, T, h, H⟩ := reach_held R
  refine ⟨h, H.sound, fun bytes hb => ?_⟩
  have hnb := (request2size_spec hb).2.2.2
  refine ⟨?_, ?_, ?_⟩
  · apply ok_of_wp
    apply wp_mspaceMalloc H.ok
    · intro hno
      constructor
      · intro hiff hfits
        exact absurd hfits (nothingFits_iff.mp (hiff.mp rfl))
      · intro hview
        exact iff_of_true rfl (nothingFits_iff.mpr fun hfits => hno hb (hview hfits))
    · intro hfinds v τ h' sz _ _ _ _ _
      refine iff_of_true ?_ (fun _ => hfinds)
      exact iff_of_false (by omega) fun hn => nothingFits_iff.mp hn hfinds.fits
  · intro a s ha hle hs hcut
    exact H.ok.inView hnb hcut fun _ _ _ _ => ⟨a, s, ha, hle, hs⟩
  · intro hcap
    exact H.ok.inView_small hnb (by omega)

set_option maxRecDepth 100000 in
/-- In an image of 16 pages, chunks of 704, 568 and 648 bytes are free and top is not large
enough either: there is no room for 70000 bytes. -/
theorem malloc_null_iff_full : ∃ σ h τ, Sound σ 4160 h ∧ TreeChunk h 5080 704 ∧
    TreeChunk h 5816 568 ∧ TreeChunk h 6416 648 ∧ mspaceMalloc 4160 70000 σ = .ok (0, τ) ∧
    NothingFits h (request2size 70000) := by
  have hrun : result (do
      let (ms, _, live) ← session 4096 65536 0 [.malloc 696, .malloc 16, .malloc 560, .malloc 16,
        .malloc 640, .malloc 16, .malloc 560, .malloc 16, .free 7, .free 5, .free 3, .free 1]
      let tops ← topOfTree ms 2
      return (ms, live, tops, ← mspaceMalloc ms 70000)) zeroed = some (4160,
        [7680, 7080, 6400, 5800], [(5080, 704), (5816, 568), (6416, 648)], 0) := by
    decide +kernel
  obtain ⟨τ, hτ⟩ := result_ok hrun
  obtain ⟨⟨ms, vs, live⟩, σ, hσ, hrest⟩ := bind_ok hτ
  obtain ⟨tops, σ₁, htops, hrest⟩ := bind_ok hrest
  obtain ⟨v, υ, hv, hpure⟩ := bind_ok hrest
  cases hpure
  have R := reach_session zeroed_ready hσ (by decide)
  obtain ⟨h, hs, hall⟩ := malloc_null_iff R
  obtain ⟨rfl, hp, hq, hr⟩ := hs.topOfTree (by decide) htops (by decide) (by decide) (by decide)
  obtain ⟨⟨v, ω, hok, hiff⟩, _, hview⟩ := hall 70000 (by decide)
  obtain ⟨rfl, rfl⟩ := Prod.mk.injEq .. ▸ Except.ok.inj (hv.symm.trans hok)
  exact ⟨_, h, _, hs, hp, hq, hr, hok, (hiff.mpr (hview (by decide))).mp rfl⟩

/-- In every state reached, a call of `mspace_malloc`, or of `mspace_realloc` for a live block,
that returns null leaves everything as it was, whatever size is asked for. -/
theorem refusal_changes_nothing (R : Reach base cap ms σ live) (bytes : Nat) :
    (∀ τ, mspaceMalloc ms bytes σ = .ok (0, τ) → τ = σ) ∧
      ∀ p ∈ live, ∀ τ, mspaceRealloc ms p bytes σ = .ok (0, τ) → τ = σ := by
  obtain ⟨rfl, T, h, H⟩ := reach_held R
  constructor
  · intro τ hr
    have hrun : wp (fun _ => True) (mspaceMalloc (base + 64) bytes) (fun v τ => v = 0 → τ = σ) σ := by
      apply wp_mspaceMalloc H.ok
      · exact fun _ _ => rfl
      · intro _ v τ h' s _ _ _ _ _ h0
        exact absurd h0 (by omega)
    exact wp_ok hrun hr rfl
  · intro p hp τ hr
    obtain ⟨⟨a, s⟩, he, rfl⟩ := List.mem_map.mp (H.blocks.mem_iff.mp hp)
    have hne : blockOf (a, s) ≠ 0 := Nat.succ_ne_zero _
    rw [mspaceRealloc, if_neg hne] at hr
    have hrun : wp (· = .divZero) (internalRealloc (base + 64) (a + 16) bytes)
        (fun v τ => v = 0 → τ = σ) σ := by
      apply H.ok.wp_internalRealloc (fun _ => T) he
      · exact fun _ _ => rfl
      · intro v s' τ h' _ _ h0
        exact absurd h0 (by omega)
    exact wp_ok hrun hr rfl

set_option maxRecDepth 100000 in
/-- A heap of 16 pages with one block: neither a second block of 70000 bytes, nor the block
made that large. -/
theorem refusal_changes_nothing_full : ∃ σ, Reach 4096 65536 4160 σ [5096] ∧
    mspaceMalloc 4160 70000 σ = .ok (0, σ) ∧ mspaceRealloc 4160 5096 70000 σ = .ok (0, σ) := by
  have hrun : result (do
      let (ms, _, live) ← session 4096 65536 0 [.malloc 100]
      let v ← mspaceMalloc ms 70000
      return (ms, live, v, ← mspaceRealloc ms 5096 70000)) zeroed = some (4160, [5096], 0, 0) := by
    decide +kernel
  obtain ⟨τ, hτ⟩ := result_ok hrun
  obtain ⟨⟨ms, vs, live⟩, σ, hσ, hrest⟩ := bind_ok hτ
  obtain ⟨v, σ₁, hv, hrest⟩ := bind_ok hrest
  obtain ⟨w, σ₂, hw, hpure⟩ := bind_ok hrest
  cases hpure
  have R := reach_session zeroed_ready hσ (by decide)
  obtain ⟨hmalloc, hrealloc⟩ := refusal_changes_nothing R 70000
  have h1 := hmalloc σ₁ hv
  subst h1
  have h2 := hrealloc 5096 List.mem_cons_self τ hw
  subst h2
  exact ⟨_, R, hv, hw⟩

/-- A process with one buffer of zeros, a little over 2^40 bytes large. -/
def vast : State := ⟨fun _ => .known 0, [(4096, 4096 + (2 ^ 40 + 65536))], ⟨0, 4096⟩⟩

theorem vast_ready : Ready vast 4096 (2 ^ 40 + 65536) := by
  refine ⟨by decide, ⟨12, by decide, by decide, rfl⟩, by decide, by decide, ?_, ?_⟩
  · exact ⟨(4096, 4096 + (2 ^ 40 + 65536)), List.mem_cons_self, by decide, by decide⟩
  · exact fun b _ _ => ⟨0, rfl⟩

set_option maxRecDepth 100000 in
/-- A free chunk of 2^40 bytes is filed under index 0, and a request for 2^40 - 256
looks for it from index 31 on. -/
theorem null_though_fits : ∃ σ τ h live, Reach 4096 (2 ^ 40 + 65536) 4160 σ live ∧ Sound σ 4160 h ∧
    mspaceMalloc 4160 (2 ^ 40 - 264) σ = .ok (0, τ) ∧
    ¬ NothingFits h (request2size (2 ^ 40 - 264)) := by
  have hrun : result (do
      let (ms, _, live) ← session 4096 (2 ^ 40 + 65536) 0
        [.malloc (2 ^ 40 - 8), .malloc 16, .free 1]
      let p ← loadPtr (treebinAt ms 0)
      let s ← chunksize p
      return (ms, live, p, s, ← mspaceMalloc ms (2 ^ 40 - 264))) vast =
        some (4160, [1099511632872], 5080, 2 ^ 40, 0) := by
    decide +kernel
  obtain ⟨τ, hτ⟩ := result_ok hrun
  obtain ⟨⟨ms, vs, live⟩, σ, hσ, hrest⟩ := bind_ok hτ
  obtain ⟨p, σ₁, hp, hrest⟩ := bind_ok hrest
  obtain ⟨s, σ₂, hs, hrest⟩ := bind_ok hrest
  obtain ⟨v, υ, hv, hpure⟩ := bind_ok hrest
  cases hpure
  have R := reach_session vast_ready hσ (by decide)
  obtain ⟨_, _, h, H⟩ := reach_held R
  have S : Sound σ 4160 h := H.sound
  obtain ⟨rfl, Rp⟩ := S.root (by decide) hp (by decide)
  obtain ⟨rfl, hps⟩ := Rp.treeChunk S hs
  refine ⟨_, _, h, _, R, S, hv, fun hn => ?_⟩
  exact absurd (hn.1 _ _ (H.ok.treeChunk_iff.mp hps).1) (by decide)

end

end Mmdata.Proofs
