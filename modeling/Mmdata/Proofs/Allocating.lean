import Mmdata.Proofs.EmptyHeap
import Mmdata.Proofs.HeapSound
import Mmdata.Proofs.ShrinkFit

namespace Mmdata.Proofs
open Lib Malloc Image

/-- The block that a reallocation of `p` returns: of the same space, large enough, and with
what fits of the old contents. -/
structure Moved (σ τ : State) (space : Nat) (memsize : Int) (p bytes q : Nat) : Prop where
  nonnull : q ≠ 0
  inside : space ≤ q ∧ ((q + usableSize τ q : Nat) : Int) ≤ space + memsize
  room : bytes ≤ usableSize τ q
  contents : ∀ i, i < usableSize σ p → i < bytes → τ.byte (q + i) = σ.byte (p + i)

/-- The reallocation of a block of an image gives memory back that makes top exceed the trim
threshold. -/
def TrimsIn (σ : State) (space p bytes : Nat) : Prop :=
  ∃ ms h a s, getMspace space σ = .ok (ms, σ) ∧ Sound σ ms h ∧ p = a + 16 ∧ (a, s) ∈ h.live ∧
    ReallocTrims σ ms h a s bytes

section

variable {σ τ : State} {m lo hi buf cap size bytes p count k : Nat} {h : Heap} {live : List Nat}
  {libc : Libc} {K : Objects} {held : State → List Nat} {memsize : Int} {T : TypeLayout}

/-- What an empty heap gives are the bytes at its start. -/
theorem Unused.from_top {nb : Nat} (U : Unused σ m hi) (h0 : 0 < nb) :
    wp Any (mallocFromDvOrTop m nb) (fun r _ => ∀ e, r = some e → e.1 = m + 936) σ := by
  have hts : σ.get 8 (m + 16) = some (hi - m - 944) := U.topsize
  have hptr : σ.getPtr (m + 40) = some (m + 920) := U.top
  have hmap : σ.mapped (m + 16) 8 = true := Machine.mapped_of_get hts
  have hne : ¬ nb ≤ 0 := by omega
  generalize hi - m - 944 = ts at hts
  unfold mallocFromDvOrTop
  simp only [wp_bind, Malloc.topsize, Malloc.top]
  rw [wp_load U.dvsize, wp_if_neg hne]
  simp only [wp_bind]
  rw [wp_load hts]
  by_cases hlt : nb < ts
  · rw [wp_if_pos hlt]
    simp only [wp_bind]
    rw [wp_store hmap, wp_loadPtr (by rw [Machine.getPtr_put_ne (by omega)]; exact hptr)]
    apply wp_mono (wp_any _)
    intro _ _ _
    apply wp_mono (wp_any _)
    intro _ _ _
    apply wp_mono (wp_any _)
    intro _ _ _ e he
    cases he
    exact rfl
  · rw [wp_if_neg hlt]
    intro e he
    contradiction

theorem wp_found {r : Option (Nat × Nat)} {τ : State} (hr : ∀ e, r = some e → e.1 = m + 936) :
    wp Any (match r with
      | none => return 0
      | some (mem, size) => do
        update 8 (exts m) fun e => addSize e size
        return mem) (fun v _ => v = 0 ∨ v = m + 936) τ := by
  cases r with
  | none => exact Or.inl rfl
  | some e =>
    rw [wp_bind]
    apply wp_mono (wp_any _)
    intro _ _ _
    exact Or.inr (hr e rfl)

theorem Unused.malloc (U : Unused σ m hi) :
    wp Any (mspaceMalloc m bytes) (fun v _ => v = 0 ∨ v = m + 936) σ := by
  unfold mspaceMalloc
  by_cases hsmall : bytes ≤ maxSmallRequest
  · rw [wp_if_pos hsmall, wp_bind]
    have hnb : 32 ≤ request2size bytes :=
      (request2size_spec (by simp only [maxSmallRequest, maxRequest] at hsmall ⊢; omega)).1
    have hrun : wp Any (mallocSmall m (request2size bytes))
        (fun r _ => ∀ e, r = some e → e.1 = m + 936) σ := by
      unfold mallocSmall
      simp only [wp_bind]
      rw [wp_load U.smallmap, Nat.zero_shiftRight, wp_if_neg (by decide)]
      simp only [wp_bind]
      rw [wp_load U.dvsize, wp_if_pos (by omega), wp_if_neg (by decide), wp_bind,
        wp_load U.treemap, wp_if_neg (by decide)]
      exact U.from_top (by omega)
    exact wp_mono hrun fun _ _ => wp_found
  · rw [wp_if_neg hsmall]
    by_cases hbig : bytes ≥ maxRequest
    · rw [wp_if_pos hbig, wp_bind]
      exact wp_mono (U.from_top (by decide)) fun _ _ => wp_found
    · rw [wp_if_neg hbig, wp_bind]
      have hpad := padRequest_spec (Nat.lt_of_not_ge hbig)
      have hrun : wp Any (mallocLarge m (padRequest bytes))
          (fun r _ => ∀ e, r = some e → e.1 = m + 936) σ := by
        unfold mallocLarge
        rw [wp_bind, wp_load U.treemap, wp_if_neg (by decide)]
        exact U.from_top (by omega)
      exact wp_mono hrun fun _ _ => wp_found

/-- An image in a buffer of zeros, without blocks. -/
theorem ZeroBuf.attached {i : Int} (Z : ZeroBuf σ buf k i) (hi : i = size) (h0 : buf ≠ 0)
    (hk : 12 ≤ k) (hk32 : k < 32) (h63 : size < 2 ^ 63) (hroom : 2 ^ k + 4096 ≤ size)
    (hlow : ∀ m ∈ σ.maps, 4096 ≤ m.1) :
    ∃ τ, Attached libc zeros (fun _ => []) buf i τ [] ∧
      Sited τ buf ((size - 4096) / 2 ^ k * 2 ^ k) size [] := by
  have hword := Z.word
  have hpage : 2 ^ 12 ∣ 2 ^ k := Nat.pow_dvd_pow 2 hk
  have halign : 4096 ∣ buf := hpage.trans Z.align
  have hpos : 4096 ≤ 2 ^ k := Nat.le_of_dvd (Nat.two_pow_pos k) hpage
  obtain ⟨d', τ, hr, R⟩ :=
    Z.created (d := MMData.new) hi zeros_done hk hk32 (by omega) h63
  have hcap : (size - 4096) / 2 ^ k * 2 ^ k ≠ 0 := by
    rw [Nat.mul_ne_zero_iff, Nat.div_ne_zero_iff]
    exact ⟨⟨by omega, by omega⟩, by omega⟩
  unfold Recorded at R
  rw [if_neg hcap] at R
  have hms : result (getMspace buf) τ = some (buf + 4160) := by
    have hsub : subSize (buf + 4160) buf = 4160 := by
      simp only [subSize]
      omega
    have hget : wp (fun _ => False) (getMspace buf) (fun v _ => v = buf + 4160) τ :=
      wp_getMspace (by rw [hsub]; exact R.1) (by omega) (by omega) rfl
    obtain ⟨v, υ, hv, rfl⟩ := ok_of_wp hget
    rw [result, hv]
  obtain ⟨r, hr1, hlo, hhi⟩ := Z.mapped
  obtain ⟨σ₁, _, L, ht⟩ := created_laid hi h0 h63 (by omega) (by omega) hk Z.page
    ⟨r, hr1, hlo, by omega⟩ hlow hr
  refine ⟨τ, .created h0 (by omega) (by omega) hword hk Z.page Z.mapped hlow hr hms (by omega), ?_⟩
  have hu : Uses libc buf size (σ₁, []) (τ, []) := zeros_tableConstructs σ₁ τ ht
  exact (L.uses hu hms (by omega)).1

def narrow : TypeLayout := ⟨8, 8, Nat.succ_pos 7, ⟨3, rfl⟩, Nat.dvd_refl 8⟩

/-- A block in an image. -/
theorem Sited.moved {h' : Heap} {v s : Nat} (I : Sited σ buf cap size live) (hi : memsize = size)
    (O : Ok τ (buf + 4096 + 64) (buf + 4096 + 48) (buf + 4096 + cap) h') (hv : (v, s) ∈ h'.live)
    (hs : bytes + 8 ≤ s) (hc : ∀ i, i < usableSize σ p → i < bytes →
      τ.byte (v + 16 + i) = σ.byte (p + i)) : Moved σ τ buf memsize p bytes (v + 16) := by
  have hfits := I.fits
  obtain ⟨_, _, _, hlo, hhi⟩ := O.core.chunk_bounds (mem_live.mp hv)
  simp only at hlo hhi
  refine ⟨by omega, ⟨by omega, ?_⟩, ?_, hc⟩
  · rw [O.usableSize_eq hv]
    omega
  · rw [O.usableSize_eq hv]
    omega

/-- A reallocation that returns has found what `sys_trim` divides by, where it trims. -/
theorem Sited.granular {v : Option Nat} (I : Sited σ buf cap size live)
    (hr : Image.realloc buf p bytes σ = .ok (v, τ)) (hT : TrimsIn σ buf p bytes) : Granular σ := by
  obtain ⟨ms, h', a, s, hget, S', rfl, ha', hT⟩ := hT
  obtain ⟨h, H⟩ := I.heap
  rw [I.getMspace] at hget
  cases hget
  obtain ⟨htop, hsize, hchunks⟩ := H.sound.same S'
  have ha : (a, s) ∈ h.live := (live_congr hchunks) ▸ ha'
  have hT' : ReallocTrims σ (buf + 4096 + 64) h a s bytes := by
    unfold ReallocTrims at hT ⊢
    rwa [htop, hsize] at hT
  have hrun : wp Any (Image.realloc buf (a + 16) bytes) (fun _ _ => Granular σ) σ := by
    unfold Image.realloc
    rw [wp_if_neg I.nonnull]
    simp only [wp_bind]
    have hms : wp Any (Image.getMspace buf) (fun r τ => r = buf + 4096 + 64 ∧ τ = σ) σ := by
      unfold wp
      rw [I.getMspace]
      exact ⟨rfl, rfl⟩
    apply wp_mono hms
    rintro ms υ ⟨hat, hsame⟩
    subst hat hsame
    rw [mspaceRealloc, if_neg (Nat.succ_ne_zero _)]
    apply H.ok.wp_internalRealloc (fun _ => I.trim) ha
    · exact fun hnot => absurd hT' hnot
    · exact fun _ _ _ _ _ hgran => hgran hT'
  exact wp_ok hrun hr

end

end Mmdata.Proofs
