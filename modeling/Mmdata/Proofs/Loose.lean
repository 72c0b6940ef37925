import Mmdata.Proofs.HeapSteps

namespace Mmdata.Proofs
open Lib Malloc

/-- The chunks in use, as address and size. -/
def Heap.live (h : Heap) : List (Nat × Nat) :=
  (h.chunks.filter (·.used)).map (fun c => (c.addr, c.size))

/-- The heap while the free chunk `v` is in no bin, on its way somewhere. -/
structure Loose (σ : State) (m lo hi : Nat) (h : Heap) (v s : Nat) : Prop where
  core : Core σ m lo hi h (fun a t => h.inBins a t ∧ a ≠ v)
  dvOk : h.DvOk
  mem : ⟨v, s, false⟩ ∈ h.chunks
  ne : v ≠ h.dv

section

variable {D : Trap → Prop} {σ τ : State} {m lo hi i v s p nb rs : Nat} {h : Heap}
  {F F' : Nat → Nat → Prop} {l₁ l₂ : List Chunk}

theorem inBins_free (a t : Nat) (hb : h.inBins a t) : ⟨a, t, false⟩ ∈ h.chunks := hb.1

theorem Core.congr (C : Core σ m lo hi h F) (hF : ∀ a t, F a t ↔ F' a t) :
    Core σ m lo hi h F' := by
  have he : F = F' := by
    funext a t
    exact propext (hF a t)
  exact he ▸ C

theorem Core.free_unique (C : Core σ m lo hi h F) {a t t' : Nat} {u u' : Bool}
    (h1 : ⟨a, t, u⟩ ∈ h.chunks) (h2 : ⟨a, t', u'⟩ ∈ h.chunks) : t = t' ∧ u = u' := by
  have he := C.tiled.eq_of_addr h1 h2 rfl
  simp only [Chunk.mk.injEq, true_and] at he
  exact he

/-- Where the chunk `v` sits, no other does. -/
theorem Tiled.others_ne {pu pu' : Bool} {p q : Nat} {c d : Chunk}
    (ht : Tiled σ pu p (l₁ ++ c :: l₂) pu' q) (hd : d ∈ l₁ ++ l₂) : d.addr ≠ c.addr := by
  obtain ⟨pv, r, h1, h2, hc, h3⟩ := tiled_append.mp ht
  have hl := hc.large
  rcases List.mem_append.mp hd with hd | hd
  · obtain ⟨_, h5, _, hdd⟩ := h1.mem hd
    have hdl := hdd.large
    omega
  · have h4 := (h3.mem hd).1
    omega

/-- A binned chunk is taken out of its bin. -/
theorem Ok.unbin (O : Ok σ m lo hi h) (hv : h.inBins v s) :
    ∀ a t, (h.inBins a t ∧ a ≠ v) ↔ h.inBins a t ∧ ¬ (a = v ∧ t = s) := by
  intro a t
  constructor
  · rintro ⟨h1, h2⟩
    exact ⟨h1, fun hc => h2 hc.1⟩
  · rintro ⟨h1, h2⟩
    refine ⟨h1, fun hc => h2 ⟨hc, ?_⟩⟩
    subst hc
    exact (O.core.free_unique h1.1 hv.1).1

theorem Ok.loosen {B : Bins} (O : Ok σ m lo hi h) (hv : h.inBins v s)
    (hB : Binned τ m hi B (fun a t => h.inBins a t ∧ a ≠ v))
    (hf : Frame (BinZone m h.inBins) σ τ) :
    Loose τ m lo hi { h with bins := B } v s ∧ Frame (Quiet m hi (Payload h.chunks)) σ τ :=
  ⟨⟨O.core.rebin inBins_free hf hB, O.dvOk, hv.1, hv.2⟩,
    hf.mono (O.core.binZone_quiet inBins_free)⟩

theorem Ok.wp_unlinkLargeChunk {Q : Unit → State → Prop} (O : Ok σ m lo hi h)
    (hv : h.inBins v s) (hs : 256 ≤ s)
    (hQ : ∀ τ B, Loose τ m lo hi { h with bins := B } v s →
      Frame (Quiet m hi (Payload h.chunks)) σ τ → Q () τ) :
    wp D (unlinkLargeChunk m v) Q σ := by
  refine wp_unbinLarge O.core.arena (O.core.spread inBins_free) O.core.binned hv hs
    (O.unbin hv) ?_
  intro τ B hB hf
  obtain ⟨hl, hfr⟩ := O.loosen hv hB hf
  exact hQ τ B hl hfr

/-- The first chunk of a small bin that is not empty. -/
theorem Ok.wp_unlinkFirst {Q : Unit → State → Prop} {l : List Nat} (O : Ok σ m lo hi h)
    (hi32 : i < 32) (hl : h.bins.small i = v :: l)
    (hQ : ∀ τ B, Loose τ m lo hi { h with bins := B } v (8 * i) →
      Frame (Quiet m hi (Payload h.chunks)) σ τ → Q () τ) :
    wp D (unlinkFirstSmallChunk m (smallbinAt m i) v i) Q σ := by
  have hv : h.inBins v (8 * i) := (O.core.binned.smallMem i hi32 v).mp (by simp [hl])
  refine wp_unbinFirst O.core.arena (O.core.spread inBins_free) O.core.binned hi32 hl
    (O.unbin hv) ?_
  intro τ B hB hf
  obtain ⟨hl, hfr⟩ := O.loosen hv hB hf
  exact hQ τ B hl hfr

theorem Loose.rebinned (L : Loose σ m lo hi h v s) :
    ∀ a t, h.inBins a t ↔ (h.inBins a t ∧ a ≠ v) ∨ (a = v ∧ t = s) := by
  intro a t
  constructor
  · intro hb
    by_cases he : a = v
    · subst he
      exact Or.inr ⟨rfl, (L.core.free_unique hb.1 L.mem).1⟩
    · exact Or.inl ⟨hb, he⟩
  · rintro (hb | ⟨rfl, rfl⟩)
    · exact hb.1
    · exact ⟨L.mem, L.ne⟩

/-- A loose chunk is binned. -/
theorem Loose.bin {B : Bins} (L : Loose σ m lo hi h v s) (hB : Binned τ m hi B h.inBins)
    (hf : Frame (BinZone m h.inBins) σ τ) :
    Ok τ m lo hi { h with bins := B } ∧ Frame (Quiet m hi (Payload h.chunks)) σ τ :=
  ⟨⟨L.core.rebin inBins_free hf hB, L.dvOk⟩, hf.mono (L.core.binZone_quiet inBins_free)⟩

theorem Loose.wp_insertChunk {Q : Unit → State → Prop} (L : Loose σ m lo hi h v s)
    (hQ : ∀ τ B, Ok τ m lo hi { h with bins := B } →
      Frame (Quiet m hi (Payload h.chunks)) σ τ → Q () τ) :
    wp D (insertChunk m v s) Q σ := by
  refine Proofs.wp_insertChunk L.core.arena (L.core.spread inBins_free) L.core.binned L.rebinned
    (fun t ht => ht.2 rfl) ?_
  intro τ B hB hf
  obtain ⟨hO, hfr⟩ := L.bin hB hf
  exact hQ τ B hO hfr

theorem Loose.wp_insertSmallChunk {Q : Unit → State → Prop} (L : Loose σ m lo hi h v s)
    (hs : s < 256)
    (hQ : ∀ τ B, Ok τ m lo hi { h with bins := B } →
      Frame (Quiet m hi (Payload h.chunks)) σ τ → Q () τ) :
    wp D (insertSmallChunk m v s) Q σ := by
  refine wp_binSmall L.core.arena (L.core.spread inBins_free) L.core.binned L.rebinned
    (fun t ht => ht.2 rfl) hs ?_
  intro τ B hB hf
  obtain ⟨hO, hfr⟩ := L.bin hB hf
  exact hQ τ B hO hfr

theorem Loose.wp_insertLargeChunk {Q : Unit → State → Prop} (L : Loose σ m lo hi h v s)
    (hs : 256 ≤ s)
    (hQ : ∀ τ B, Ok τ m lo hi { h with bins := B } →
      Frame (Quiet m hi (Payload h.chunks)) σ τ → Q () τ) :
    wp D (insertLargeChunk m v s) Q σ := by
  refine wp_binLarge L.core.arena (L.core.spread inBins_free) L.core.binned L.rebinned
    (fun t ht => ht.2 rfl) hs ?_
  intro τ B hB hf
  obtain ⟨hO, hfr⟩ := L.bin hB hf
  exact hQ τ B hO hfr

/-- The old designated victim is binned, the loose chunk becomes the new one. -/
theorem Loose.wp_replaceDv {Q : Unit → State → Prop} (L : Loose σ m lo hi h v s)
    (hdv : h.dvsize < 256)
    (hQ : ∀ τ B, Ok τ m lo hi { h with bins := B, dv := v, dvsize := s } →
      Frame (Quiet m hi (Payload h.chunks)) σ τ → Q () τ) :
    wp D (replaceDv m v s) Q σ := by
  obtain ⟨hv8, hs8, hs32, hvlo, hvhi⟩ := L.core.chunk_bounds L.mem
  simp only at hv8 hs8 hs32 hvlo hvhi
  have hword := L.core.arena.word
  -- the two stores at the end, once the bins hold all free chunks but `v`
  have hfin : ∀ τ B, Core τ m lo hi { h with bins := B } (fun a t =>
        (⟨a, t, false⟩ : Chunk) ∈ h.chunks ∧ a ≠ v) → Frame (Quiet m hi (Payload h.chunks)) σ τ →
      wp D (store 8 (dvsize m) s) (fun _ τ => wp D (storePtr (dv m) v) Q τ) τ := by
    intro τ B C hf
    have hsub : ∀ a t, ((⟨a, t, false⟩ : Chunk) ∈ h.chunks ∧ a ≠ v) →
        (⟨a, t, false⟩ : Chunk) ∈ h.chunks := fun a t ha => ha.1
    have hs64 : s < 2 ^ 64 := by omega
    have C₂ := (C.setDvsize hsub hs64).setDv hsub (Or.inr ⟨by omega, by omega⟩) hv8
    refine C.arena.wp_store rfl (by simp only [dvsize]; omega) (by simp only [dvsize]; omega) ?_
    refine C.arena.wp_storePtr rfl (by simp only [dv]; omega) (by simp only [dv]; omega) ?_
    refine hQ _ B ⟨C₂, Or.inr L.mem⟩ ?_
    refine (hf.put (fun b h1 h2 => ?_)).putPtr (fun b h1 h2 => ?_)
    · simp only [dvsize] at h1 h2
      exact L.core.scalar_quiet (by omega) (by omega) (by omega)
    · simp only [dv] at h1 h2
      exact L.core.scalar_quiet (by omega) (by omega) (by omega)
  unfold replaceDv
  simp only [wp_bind]
  rw [wp_load (show σ.get 8 (dvsize m) = _ from L.core.scalars.dvWord)]
  by_cases h0 : h.dvsize = 0
  · rw [wp_if_neg (by simp [h0]), wp_bind]
    have hd0 : h.dv = 0 := by
      rcases L.dvOk with ⟨hd, _⟩ | hd
      · exact hd
      · obtain ⟨_, _, h32, _⟩ := L.core.chunk_bounds hd
        simp only at h32
        omega
    refine hfin σ h.bins (L.core.congr (fun a t => ?_)) (Frame.refl _ σ)
    constructor
    · rintro ⟨⟨h1, _⟩, h2⟩
      exact ⟨h1, h2⟩
    · rintro ⟨h1, h2⟩
      have hb := L.core.chunk_bounds h1
      simp only at hb
      exact ⟨⟨h1, by omega⟩, h2⟩
  · have hdm : (⟨h.dv, h.dvsize, false⟩ : Chunk) ∈ h.chunks := by
      rcases L.dvOk with ⟨_, hd⟩ | hd
      · exact absurd hd h0
      · exact hd
    rw [wp_if_pos h0]
    simp only [wp_bind]
    rw [wp_loadPtr (show σ.getPtr (dv m) = _ from L.core.scalars.dvPtr)]
    have hsub : ∀ a t, ((⟨a, t, false⟩ : Chunk) ∈ h.chunks ∧ a ≠ v) →
        (⟨a, t, false⟩ : Chunk) ∈ h.chunks := fun a t ha => ha.1
    refine wp_binSmall
      L.core.arena (L.core.spread hsub) L.core.binned ?_ (fun t ht => ht.1.2 rfl) hdv ?_
    · intro a t
      constructor
      · rintro ⟨h1, h2⟩
        by_cases he : a = h.dv
        · subst he
          exact Or.inr ⟨rfl, (L.core.free_unique h1 hdm).1⟩
        · exact Or.inl ⟨⟨h1, he⟩, h2⟩
      · rintro (⟨⟨h1, _⟩, h2⟩ | ⟨rfl, rfl⟩)
        · exact ⟨h1, h2⟩
        · exact ⟨hdm, fun hc => L.ne hc.symm⟩
    · intro τ B hB hf
      exact hfin τ B (L.core.rebin hsub hf hB) (hf.mono (L.core.binZone_quiet hsub))

end

end Mmdata.Proofs
