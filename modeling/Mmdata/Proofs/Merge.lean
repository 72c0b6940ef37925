import Mmdata.Proofs.Carve

namespace Mmdata.Proofs
open Lib Malloc

/-- The free chunks of `l` other than `d`. -/
def Outside (l : List Chunk) (d a t : Nat) : Prop := ⟨a, t, false⟩ ∈ l ∧ a ≠ d

/-- The `ps` bytes at `p` are about to become one free chunk between `l₁` and `l₂`,
and the bins hold nothing of them. The flag is the one in the head behind them. -/
structure Region (σ : State) (m lo hi : Nat) (h : Heap) (l₁ : List Chunk) (p ps : Nat)
    (pu : Bool) (l₂ : List Chunk) : Prop where
  core : Core σ m lo hi h (Outside (l₁ ++ l₂) h.dv)
  sub : ∀ c ∈ l₁ ++ l₂, c ∈ h.chunks
  front : Tiled σ true (m + 920) l₁ true p
  back : Tiled σ pu (p + ps) l₂ true h.top
  align : ps % 8 = 0
  large : 32 ≤ ps

section

variable {D : Trap → Prop} {σ τ : State} {m lo hi p s b k n ns ps : Nat} {h : Heap} {pu : Bool}
  {c : Chunk} {F F' : Nat → Nat → Prop} {l l₁ l₂ l₃ : List Chunk}

theorem Core.wp_unlinkChunk {Q : Unit → State → Prop} {v : Nat} (C : Core σ m lo hi h F)
    (hsub : ∀ a t, F a t → ⟨a, t, false⟩ ∈ h.chunks) (hv : F v s)
    (hF : ∀ a t, F' a t ↔ F a t ∧ ¬ (a = v ∧ t = s))
    (hQ : ∀ τ B, Core τ m lo hi { h with bins := B } F' → Frame (BinZone m F) σ τ → Q () τ) :
    wp D (unlinkChunk m v s) Q σ := by
  refine Proofs.wp_unlinkChunk C.arena (C.spread hsub) C.binned hv hF ?_
  intro τ B hB hf
  exact hQ τ B (C.rebin hsub hf hB) hf

theorem Region.free (R : Region σ m lo hi h l₁ p ps pu l₂) (a t : Nat)
    (ha : Outside (l₁ ++ l₂) h.dv a t) : ⟨a, t, false⟩ ∈ h.chunks := R.sub _ ha.1

theorem Region.bounds (R : Region σ m lo hi h l₁ p ps pu l₂) :
    p % 8 = 0 ∧ m + 920 ≤ p ∧ p + ps ≤ h.top := by
  have hf := R.front.align R.core.first_align
  have hle := R.front.le
  have hle' := R.back.le
  exact ⟨hf, hle, hle'⟩

/-- The chunk behind the region, or top. -/
theorem Region.next (R : Region σ m lo hi h l₁ p ps pu l₂) :
    (∃ c l₃, l₂ = c :: l₃ ∧ c.addr = p + ps ∧ c.size % 8 = 0 ∧
      σ.get 8 (p + ps + 8) = some (headWord c.size pu c.used)) ∨
    (l₂ = [] ∧ h.top = p + ps ∧ pu = true ∧
      σ.get 8 (p + ps + 8) = some (headWord h.topsize true false)) := by
  have hb := R.back
  cases l₂ with
  | nil =>
    obtain ⟨hpu, hq⟩ := hb
    refine Or.inr ⟨rfl, hq, hpu.symm, ?_⟩
    rw [← hq]
    exact R.core.topHead
  | cons c l₃ =>
    obtain ⟨ha, hc, _⟩ := hb
    refine Or.inl ⟨c, l₃, rfl, ha, hc.align, ?_⟩
    rw [← ha]
    exact hc.head

/-- Three words make the region a free chunk. -/
theorem Region.merge (R : Region σ m lo hi h l₁ p ps pu (c :: l₃)) (hu : c.used = true)
    (hf : Frame (Words [p + 8, p + ps, p + ps + 8]) σ τ)
    (h1 : τ.get 8 (p + 8) = some (headWord ps true false)) (h2 : τ.get 8 (p + ps) = some ps)
    (h3 : τ.get 8 (p + ps + 8) = some (headWord c.size false true)) :
    Core τ m lo hi { h with chunks := l₁ ++ ⟨p, ps, false⟩ :: c :: l₃ }
        (Outside (l₁ ++ c :: l₃) h.dv) ∧
      Frame (Quiet m hi (Payload (l₁ ++ ⟨p, ps, false⟩ :: c :: l₃))) σ τ := by
  obtain ⟨hp8, hplo, _⟩ := R.bounds
  obtain ⟨hca, hcc, hct⟩ := R.back
  have hlarge := R.large
  have hcl := hcc.large
  have hctop := hct.le
  obtain ⟨htpos, htfits⟩ := R.core.topFits
  have hW : ∀ b, Words [p + 8, p + ps, p + ps + 8] b → p + 8 ≤ b ∧ b < p + ps + 16 := by
    rintro b ⟨f, hf, hb⟩
    simp only [List.mem_cons, List.not_mem_nil, or_false] at hf
    rcases hf with rfl | rfl | rfl <;> omega
  have htile : Tiled τ true (m + 920) (l₁ ++ ⟨p, ps, false⟩ :: c :: l₃) true h.top := by
    refine tiled_append.mpr ⟨true, p, R.front.frame_outside hf (fun b h4 h5 hb => ?_), rfl,
      ⟨R.align, hlarge, h1, fun _ => ⟨rfl, h2⟩⟩, ?_⟩
    · have hw := hW b hb
      omega
    · refine R.back.rehead hu hf h3 (fun b h4 h5 hb => ?_)
      have hw := hW b hb
      omega
  refine ⟨R.core.retile (R.core.spread R.free) hf (fun b hb => ?_) ?_ htile ?_, hf.mono ?_⟩
  · have hw := hW b hb
    omega
  · rintro b (hb | hb | ⟨a, t, ⟨hm, _⟩, h4, h5⟩) hc
    · have hw := hW b hc
      omega
    · have hw := hW b hc
      omega
    · have hw := hW b hc
      rcases List.mem_append.mp hm with hm | hm
      · have hb := (R.front.mem hm).2.1
        simp only at hb
        omega
      · rcases List.mem_cons.mp hm with rfl | hm
        · contradiction
        · have hb := (hct.mem hm).1
          simp only at hb
          omega
  · rw [hf.get (fun b h4 h5 hb => ?_)]
    · exact R.core.topHead
    · have hw := hW b hb
      omega
  · intro b hb
    have hw := hW b hb
    refine ⟨⟨by omega, by omega, htile.word_not_payload ?_⟩, by omega⟩
    obtain ⟨f, hf, h4, h5⟩ := hb
    simp only [List.mem_cons, List.not_mem_nil, or_false] at hf
    rcases hf with rfl | rfl | rfl
    · exact ⟨⟨p, ps, false⟩, by simp, Or.inl ⟨h4, by simpa using by omega⟩⟩
    · exact ⟨⟨p, ps, false⟩, by simp, Or.inr ⟨rfl, h4, h5⟩⟩
    · exact ⟨c, by simp, Or.inl (by omega)⟩

/-- The new chunk is on its way to a bin. -/
theorem Core.toLoose (C : Core τ m lo hi { h with chunks := l₁ ++ ⟨p, ps, false⟩ :: l₂ }
      (Outside (l₁ ++ l₂) h.dv)) (hp : p ≠ h.dv)
    (hdv : h.dv = 0 ∧ h.dvsize = 0 ∨ ⟨h.dv, h.dvsize, false⟩ ∈ l₁ ++ l₂) :
    Loose τ m lo hi { h with chunks := l₁ ++ ⟨p, ps, false⟩ :: l₂ } p ps := by
  refine ⟨C.congr (fun a t => ?_), ?_, by simp, hp⟩
  · have hnew := C.others rfl a t
    simp only [Outside, ← hnew, Heap.inBins]
    constructor
    · rintro ⟨⟨h1, h2⟩, h3⟩
      exact ⟨⟨h1, h3⟩, h2⟩
    · rintro ⟨⟨h1, h2⟩, h3⟩
      exact ⟨⟨h1, h3⟩, h2⟩
  · rcases hdv with hd | hd
    · exact Or.inl hd
    · exact Or.inr ((C.others rfl _ _).mpr hd).1

/-- The new chunk is the designated victim. -/
theorem Core.toDv {h : Heap} (C : Core τ m lo hi h (Outside (l₁ ++ l₂) h.dv))
    (hcs : h.chunks = l₁ ++ ⟨h.dv, h.dvsize, false⟩ :: l₂) : Ok τ m lo hi h := by
  refine ⟨C.congr (fun a t => ?_), Or.inr (by simp [hcs])⟩
  have hnew := C.others hcs a t
  simp only [Outside, ← hnew, Heap.inBins, and_assoc, and_self]

/-! Where regions come from. -/

theorem Core.region (C : Core σ m lo hi h F) (hcs : h.chunks = l₁ ++ ⟨p, s, true⟩ :: l₂)
    (hpu : Tiled σ true (m + 920) l₁ true p) (hF : ∀ a t, F a t ↔ Outside (l₁ ++ l₂) h.dv a t) :
    Region σ m lo hi h l₁ p s true l₂ := by
  have ht := C.tiled
  rw [hcs] at ht
  obtain ⟨_, _, _, hpa, hc, hback⟩ := tiled_append.mp ht
  refine ⟨C.congr hF, ?_, hpu, ?_, hc.align, hc.large⟩
  · intro c hm
    rw [hcs]
    simp only [List.mem_append, List.mem_cons] at hm ⊢
    rcases hm with hm | hm
    · exact Or.inl hm
    · exact Or.inr (Or.inr hm)
  · simp only at hpa
    rw [← hpa] at hback
    exact hback

/-- A free chunk and the chunk in use behind it. -/
theorem Core.regionPrev (C : Core σ m lo hi h F)
    (hcs : h.chunks = l₁ ++ ⟨b, k, false⟩ :: ⟨p, s, true⟩ :: l₂)
    (hF : ∀ a t, F a t ↔ Outside (l₁ ++ l₂) h.dv a t) :
    b + k = p ∧ Region σ m lo hi h l₁ b (k + s) true l₂ := by
  have ht := C.tiled
  rw [hcs] at ht
  obtain ⟨pv, r, hfront, hba, hb, hpa, hp, hback⟩ := tiled_append.mp ht
  have hpv := (hb.free rfl).1
  simp only at hba hpa
  subst hpv hba
  refine ⟨hpa.symm, C.congr hF, ?_, hfront, ?_, ?_, ?_⟩
  · intro c hm
    rw [hcs]
    simp only [List.mem_append, List.mem_cons] at hm ⊢
    rcases hm with hm | hm
    · exact Or.inl hm
    · exact Or.inr (Or.inr (Or.inr hm))
  · rw [← Nat.add_assoc]
    exact hback
  · have h1 := hb.align
    have h2 := hp.align
    simp only at h1 h2
    omega
  · have h1 := hb.large
    simp only at h1
    omega

/-- The free chunk behind a region joins it, once it is in no bin. -/
theorem Region.join {B : Bins} (R : Region σ m lo hi h l₁ p ps true (⟨n, ns, false⟩ :: l₂))
    (C : Core τ m lo hi { h with bins := B } (Outside (l₁ ++ l₂) h.dv))
    (hf : Frame (BinZone m (Outside (l₁ ++ ⟨n, ns, false⟩ :: l₂) h.dv)) σ τ) :
    Region τ m lo hi { h with bins := B } l₁ p (ps + ns) false l₂ := by
  have hout : ∀ l', (∀ c ∈ l', c ∈ l₁ ++ ⟨n, ns, false⟩ :: l₂) → ∀ b, TileWord l' b →
      ¬ BinZone m (Outside (l₁ ++ ⟨n, ns, false⟩ :: l₂) h.dv) b := by
    rintro l' hl b ⟨c, hc, hw⟩ hz
    exact (R.core.binZone_tile R.free hz).1 ⟨c, R.sub c (hl c hc), hw⟩
  have hback := R.back.frame hf (hout _ (fun c hc => List.mem_append_right _ hc))
  obtain ⟨hna, hn, hrest⟩ := hback
  have h1 := hn.align
  have h2 := R.align
  have h3 := R.large
  simp only at hna h1
  refine ⟨C, fun c hm => R.sub c ?_, R.front.frame hf (hout _ fun c hc => List.mem_append_left _ hc),
    ?_, by omega, by omega⟩
  · simp only [List.mem_append, List.mem_cons] at hm ⊢
    rcases hm with hm | hm
    · exact Or.inl hm
    · exact Or.inr (Or.inr hm)
  · rw [← Nat.add_assoc]
    exact hrest

/-! Scalars change next to a region. -/

theorem Region.rescalar {W : Nat → Prop} {h' : Heap} (R : Region σ m lo hi h l₁ p ps pu l₂)
    (hf : Frame W σ τ) (hW : ∀ b, W b → b < m + 928)
    (C : Core τ m lo hi h' (Outside (l₁ ++ l₂) h'.dv)) (hc : h'.chunks = h.chunks)
    (ht : h'.top = h.top) : Region τ m lo hi h' l₁ p ps pu l₂ := by
  refine ⟨C, ?_, R.front.frame_outside hf (fun b h1 h2 hb => ?_), ?_, R.align, R.large⟩
  · rw [hc]
    exact R.sub
  · have hw := hW b hb
    omega
  · rw [ht]
    refine R.back.frame_outside hf (fun b h1 h2 hb => ?_)
    have hw := hW b hb
    have hle := R.front.le
    omega

end

end Mmdata.Proofs
