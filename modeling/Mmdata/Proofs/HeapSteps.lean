import Mmdata.Proofs.Heap

namespace Mmdata.Proofs
open Lib Malloc

section

variable {D : Trap → Prop} {σ τ : State} {W : Nat → Prop} {m lo hi p q s nb rs d ds e v : Nat}
  {h : Heap} {F F' G : Nat → Nat → Prop} {l₁ l₂ : List Chunk}

/-! Scalar words. -/

theorem Core.rescalar (C : Core σ m lo hi h F)
    (hsub : ∀ a s, F a s → ⟨a, s, false⟩ ∈ h.chunks) (hf : Frame W σ τ)
    (hW : ∀ b, W b → (m + 8 ≤ b ∧ b < m + 24) ∨ (m + 32 ≤ b ∧ b < m + 72) ∨
      (m + 856 ≤ b ∧ b < m + 928))
    (hs : Scalars τ m lo hi d ds h.top h.topsize e) :
    Core τ m lo hi { h with dv := d, dvsize := ds, exts := e } F := by
  have htop := C.tiled.le
  refine ⟨C.arena.frame hf ?_, hs, C.tiled.frame_outside hf ?_, ?_, C.topAlign, C.topFits,
    ?_, C.binned.frame (C.spread hsub) hf ?_⟩
  · intro b h1 h2 hb
    have hw := hW b hb
    omega
  · intro b h1 h2 hb
    have hw := hW b hb
    omega
  · simp only
    rw [hf.get ?_]
    · exact C.topHead
    · intro b h1 h2 hb
      have hw := hW b hb
      omega
  · rw [hf.get ?_]
    · exact C.topFoot
    · intro b h1 h2 hb
      have hw := hW b hb
      have hroom := C.foot_behind
      omega
  · intro b hb hc
    have hw := hW b hc
    have hbb := BinZone.bounds (C.spread hsub) hb
    omega

theorem Core.setDvsize (C : Core σ m lo hi h F)
    (hsub : ∀ a s, F a s → ⟨a, s, false⟩ ∈ h.chunks) (hds : ds < 2 ^ 64) :
    Core (σ.put 8 (m + 8) ds) m lo hi { h with dvsize := ds } F := by
  have S := C.scalars
  have hf : Frame (fun b => m + 8 ≤ b ∧ b < m + 16) σ (σ.put 8 (m + 8) ds) :=
    (Frame.refl _ σ).put (fun b h1 h2 => ⟨h1, by omega⟩)
  have hhigh := C.arena.high
  refine C.rescalar hsub hf (fun b hb => by omega) ⟨?_, ?_, ?_, ?_, ?_, ?_, ?_, ?_, ?_, ?_, ?_, ?_,
    ?_, ?_⟩
  · rw [Machine.getPtr_put_ne (by omega)]
    exact S.dvPtr
  · exact Machine.get_put_same (C.arena.covers (by omega) (by omega)) (by omega)
  · rw [Machine.getPtr_put_ne (by omega)]
    exact S.topPtr
  all_goals simp (disch := omega) only [Machine.get_put_ne, Machine.getPtr_put_ne]
  · exact S.topWord
  · exact S.extsWord
  · exact S.trimWord
  · exact S.checkWord
  · exact S.segBase
  · exact S.segSize
  · exact S.segNext
  · exact S.segFlags
  · exact S.footprint
  · exact S.maxFootprint
  · exact S.flags

theorem Core.setDv (C : Core σ m lo hi h F)
    (hsub : ∀ a s, F a s → ⟨a, s, false⟩ ∈ h.chunks) (hd : d = 0 ∨ m ≤ d ∧ d < hi)
    (hd8 : d % 8 = 0) : Core (σ.putPtr (m + 32) d) m lo hi { h with dv := d } F := by
  have S := C.scalars
  have hf : Frame (fun b => m + 32 ≤ b ∧ b < m + 40) σ (σ.putPtr (m + 32) d) :=
    (Frame.refl _ σ).putPtr (fun b h1 h2 => ⟨h1, by omega⟩)
  have hhigh := C.arena.high
  have hal := C.arena.align
  refine C.rescalar hsub hf (fun b hb => by omega) ⟨?_, ?_, ?_, ?_, ?_, ?_, ?_, ?_, ?_, ?_, ?_, ?_,
    ?_, ?_⟩
  · exact C.arena.getPtr_self (by rfl) (by omega) (by omega) (by omega) hd hd8
  all_goals simp (disch := omega) only [Machine.get_putPtr_ne, Machine.getPtr_putPtr_ne]
  · exact S.dvWord
  · exact S.topPtr
  · exact S.topWord
  · exact S.extsWord
  · exact S.trimWord
  · exact S.checkWord
  · exact S.segBase
  · exact S.segSize
  · exact S.segNext
  · exact S.segFlags
  · exact S.footprint
  · exact S.maxFootprint
  · exact S.flags

theorem Core.setExts (C : Core σ m lo hi h F)
    (hsub : ∀ a s, F a s → ⟨a, s, false⟩ ∈ h.chunks) (he : e < 2 ^ 64) :
    Core (σ.put 8 (m + 920) e) m lo hi { h with exts := e } F := by
  have S := C.scalars
  have hf : Frame (fun b => m + 920 ≤ b ∧ b < m + 928) σ (σ.put 8 (m + 920) e) :=
    (Frame.refl _ σ).put (fun b h1 h2 => ⟨h1, by omega⟩)
  have htop := C.tiled.le
  obtain ⟨_, hfits⟩ := C.topFits
  refine C.rescalar hsub hf (fun b hb => by omega) ⟨?_, ?_, ?_, ?_, ?_, ?_, ?_, ?_, ?_, ?_, ?_, ?_,
    ?_, ?_⟩
  · rw [Machine.getPtr_put_ne (by omega)]
    exact S.dvPtr
  · rw [Machine.get_put_ne (by omega)]
    exact S.dvWord
  · rw [Machine.getPtr_put_ne (by omega)]
    exact S.topPtr
  · rw [Machine.get_put_ne (by omega)]
    exact S.topWord
  · exact Machine.get_put_same (C.arena.covers (by omega) (by omega)) (by omega)
  all_goals simp (disch := omega) only [Machine.get_put_ne, Machine.getPtr_put_ne]
  · exact S.trimWord
  · exact S.checkWord
  · exact S.segBase
  · exact S.segSize
  · exact S.segNext
  · exact S.segFlags
  · exact S.footprint
  · exact S.maxFootprint
  · exact S.flags

/-- `trim_check` and `release_checks` may hold anything. -/
theorem Core.setChecks {a : Nat} (C : Core σ m lo hi h F)
    (hsub : ∀ a s, F a s → ⟨a, s, false⟩ ∈ h.chunks) (hv : v < 2 ^ 64)
    (ha : a = m + 48 ∨ a = m + 56) : Core (σ.put 8 a v) m lo hi h F := by
  have S := C.scalars
  have hf : Frame (fun b => m + 48 ≤ b ∧ b < m + 64) σ (σ.put 8 a v) :=
    (Frame.refl _ σ).put (fun b h1 h2 => by omega)
  have hhigh := C.arena.high
  have hself : (σ.put 8 a v).get 8 a = some v :=
    Machine.get_put_same (C.arena.covers (by omega) (by omega)) (by omega)
  refine C.rescalar hsub hf (fun b hb => by omega) ⟨?_, ?_, ?_, ?_, ?_, ?_, ?_, ?_, ?_, ?_, ?_, ?_,
    ?_, ?_⟩
  · rw [Machine.getPtr_put_ne (by omega)]
    exact S.dvPtr
  · rw [Machine.get_put_ne (by omega)]
    exact S.dvWord
  · rw [Machine.getPtr_put_ne (by omega)]
    exact S.topPtr
  · rw [Machine.get_put_ne (by omega)]
    exact S.topWord
  · rw [Machine.get_put_ne (by omega)]
    exact S.extsWord
  · rcases ha with rfl | rfl
    · exact ⟨v, hself⟩
    · rw [Machine.get_put_ne (by omega)]
      exact S.trimWord
  · rcases ha with rfl | rfl
    · rw [Machine.get_put_ne (by omega)]
      exact S.checkWord
    · exact ⟨v, hself⟩
  all_goals simp (disch := omega) only [Machine.get_put_ne, Machine.getPtr_put_ne]
  · exact S.segBase
  · exact S.segSize
  · exact S.segNext
  · exact S.segFlags
  · exact S.footprint
  · exact S.maxFootprint
  · exact S.flags

/-- `mflags` may hold anything. -/
theorem Core.setFlags (C : Core σ m lo hi h F)
    (hsub : ∀ a s, F a s → ⟨a, s, false⟩ ∈ h.chunks) (hv : v < 2 ^ 32) :
    Core (σ.put 4 (m + 872) v) m lo hi h F := by
  have S := C.scalars
  have hf : Frame (fun b => m + 872 ≤ b ∧ b < m + 876) σ (σ.put 4 (m + 872) v) :=
    (Frame.refl _ σ).put (fun b h1 h2 => ⟨h1, by omega⟩)
  have hhigh := C.arena.high
  have hflags : (σ.put 4 (m + 872) v).get 4 (m + 872) = some v :=
    Machine.get_put_same (C.arena.covers (by omega) (by omega)) (by omega)
  refine C.rescalar hsub hf (fun b hb => by omega) ⟨?_, ?_, ?_, ?_, ?_, ?_, ?_, ?_, ?_, ?_, ?_, ?_,
    ?_, ⟨v, hflags⟩⟩
  all_goals simp (disch := omega) only [Machine.get_put_ne, Machine.getPtr_put_ne]
  · exact S.dvPtr
  · exact S.dvWord
  · exact S.topPtr
  · exact S.topWord
  · exact S.extsWord
  · exact S.trimWord
  · exact S.checkWord
  · exact S.segBase
  · exact S.segSize
  · exact S.segNext
  · exact S.segFlags
  · exact S.footprint
  · exact S.maxFootprint

theorem Core.scalar_own (C : Core σ m lo hi h F) {b : Nat} (h1 : m ≤ b) (h2 : b < m + 928) :
    Own m hi (Payload h.chunks) b := by
  have htop := C.tiled.le
  obtain ⟨_, hfits⟩ := C.topFits
  refine ⟨h1, by omega, fun hp => ?_⟩
  have hpb := C.tiled.payload_bounds hp
  omega

theorem Core.scalar_quiet (C : Core σ m lo hi h F) {b : Nat} (h1 : m ≤ b) (h2 : b < m + 928)
    (h3 : b < m + 48 ∨ m + 56 ≤ b) : Quiet m hi (Payload h.chunks) b := ⟨C.scalar_own h1 h2, h3⟩

/-! A free chunk goes to a client, whole or in part. -/

theorem Arena.wp_inuseHead {Q : Unit → State → Prop} (A : Arena σ m lo hi)
    (hmaps : τ.maps = σ.maps) (hs : s % 8 = 0) (hp : m ≤ p + 8) (hp' : p + 16 ≤ hi)
    (hQ : Q () (τ.put 8 (p + 8) (headWord s true true))) :
    wp D (setSizeAndPinuseOfInuseChunk p s) Q τ := by
  rw [wp_setSizeAndPinuseOfInuseChunk hs
    (by rw [Machine.mapped_congr hmaps]; exact A.covers hp (by omega))]
  exact hQ

theorem Arena.wp_freeHead {Q : Unit → State → Prop} (A : Arena σ m lo hi)
    (hmaps : τ.maps = σ.maps) (hs : s % 8 = 0) (hp : m ≤ p) (hp' : p + s + 16 ≤ hi)
    (hQ : Q () ((τ.put 8 (p + 8) (headWord s true false)).put 8 (p + s) s)) :
    wp D (setSizeAndPinuseOfFreeChunk p s) Q τ := by
  rw [wp_setSizeAndPinuseOfFreeChunk hs
    (by rw [Machine.mapped_congr hmaps]; exact A.covers (by omega) (by omega))
    (by rw [Machine.mapped_congr hmaps]; exact A.covers (by omega) (by omega))]
  exact hQ

/-- Around a free chunk: the chunk before is in use, and so is the one behind. -/
theorem Core.around_free (C : Core σ m lo hi h F) (hcs : h.chunks = l₁ ++ ⟨p, s, false⟩ :: l₂) :
    Tiled σ true (m + 920) l₁ true p ∧ ChunkAt σ true ⟨p, s, false⟩ ∧
      ∃ n l₃, l₂ = n :: l₃ ∧ n.used = true ∧ n.addr = p + s ∧
        Tiled σ false (p + s) l₂ true h.top := by
  have ht := C.tiled
  rw [hcs] at ht
  obtain ⟨pv, r, h1, h2, h3, h4⟩ := tiled_append.mp ht
  have hpv := (h3.free rfl).1
  simp only at h2 h4
  subst hpv h2
  cases l₂ with
  | nil =>
    have hc := h4.1
    contradiction
  | cons n l₃ => exact ⟨h1, h3, n, l₃, rfl, h4.head_used, h4.1, h4⟩

theorem Core.wp_takeWhole {Q : Unit → State → Prop} (C : Core σ m lo hi h F)
    (hsub : ∀ a s, F a s → ⟨a, s, false⟩ ∈ h.chunks)
    (hcs : h.chunks = l₁ ++ ⟨p, s, false⟩ :: l₂) (hp : ∀ t, ¬ F p t)
    (hQ : ∀ τ, Core τ m lo hi { h with chunks := l₁ ++ ⟨p, s, true⟩ :: l₂ } F →
      Frame (Quiet m hi (Payload h.chunks)) σ τ → Q () τ) :
    wp D (setInuseAndPinuse p s) Q σ := by
  obtain ⟨ht₁, hc, n, l₃, rfl, hnu, hna, ht₂⟩ := C.around_free hcs
  have hcm : (⟨p, s, false⟩ : Chunk) ∈ h.chunks := by simp [hcs]
  have hnm : n ∈ h.chunks := by simp [hcs]
  obtain ⟨hp8, hs8, hs32, hplo, hphi⟩ := C.chunk_bounds hcm
  obtain ⟨hn8, hns8, hns32, hnlo, hnhi⟩ := C.chunk_bounds hnm
  simp only at hp8 hs8 hs32 hplo hphi
  have hword := C.arena.word
  have hntop := (C.tiled.mem hnm).2.1
  rw [wp_setInuseAndPinuse hs8 (C.arena.covers (by omega) (by omega))
    (C.arena.covers (by omega) (by omega))]
  have hf : Frame (fun b => p + 8 ≤ b ∧ b < p + 16 ∨ b = p + s + 8) σ
      ((σ.put 8 (p + 8) (headWord s true true)).setLow (p + s + 8)) :=
    ((Frame.refl _ σ).put (fun b h1 h2 => Or.inl ⟨h1, by omega⟩)).setLow (Or.inr rfl)
  have hnhead : σ.get 8 (p + s + 8) = some (headWord n.size false true) := by
    have hh := ht₂.2.1.head
    rw [hna, hnu] at hh
    exact hh
  refine hQ _ (C.retile (C.spread hsub) hf (fun b hb => by omega) ?_ ?_ ?_) (hf.mono ?_)
  · rintro b (hb | hb | ⟨a, t, ha, h1, h2⟩) hW
    · omega
    · omega
    · have hap := C.tiled.apart (hsub a t ha) hcm
      rcases hap with he | hap | hap
      · simp only [Chunk.mk.injEq, and_true] at he
        exact hp t (he.1 ▸ ha)
      · simp only at hap
        omega
      · simp only at hap
        have hnf : (⟨a, t, false⟩ : Chunk) ≠ n := by
          rintro rfl
          contradiction
        rcases C.tiled.apart (hsub a t ha) hnm with he | hap' | hap'
        · exact hnf he
        · simp only at hap'
          omega
        · simp only at hap'
          omega
  · refine tiled_append.mpr ⟨true, p, ht₁.frame_outside hf (fun b h1 h2 hW => by omega), rfl,
      ⟨hs8, hs32, ?_, fun hu => by contradiction⟩, ?_⟩
    · simp only
      rw [Machine.get_setLow_ne (by omega)]
      exact Machine.get_put_same (C.arena.covers (by omega) (by omega)) (headWord_lt (by omega))
    · refine ht₂.rehead hnu hf ?_ (fun b h1 h2 hW => by omega)
      have hg : (σ.put 8 (p + 8) (headWord s true true)).get 8 (p + s + 8) =
          some (headWord n.size false true) := by
        rw [Machine.get_put_ne (by omega)]
        exact hnhead
      have hl := Machine.get_setLow_same hg
      rw [headWord_setLow hns8] at hl
      exact hl
  · rw [hf.get (fun b h1 h2 hW => by omega)]
    exact C.topHead
  · rintro b (hb | hb)
    · exact ⟨⟨by omega, by omega, C.tiled.free_not_payload hcm rfl (by simp only; omega)
        (by simp only; omega)⟩, by omega⟩
    · exact ⟨⟨by omega, by omega, C.tiled.word_not_payload ⟨n, hnm, Or.inl (by omega)⟩⟩,
        by omega⟩

/-- The writes that split a free chunk, in either order. -/
theorem Core.takeSplit (C : Core σ m lo hi h F) (hsub : ∀ a s, F a s → ⟨a, s, false⟩ ∈ h.chunks)
    (hcs : h.chunks = l₁ ++ ⟨p, s, false⟩ :: l₂) (hp : ∀ t, ¬ F p t) (hs : nb + rs = s)
    (hnb : 32 ≤ nb) (hnb8 : nb % 8 = 0) (hrs : 32 ≤ rs)
    (hf : Frame (Words [p + 8, p + nb + 8, p + nb + rs]) σ τ)
    (h1 : τ.get 8 (p + 8) = some (headWord nb true true))
    (h2 : τ.get 8 (p + nb + 8) = some (headWord rs true false))
    (h3 : τ.get 8 (p + nb + rs) = some rs) :
    Core τ m lo hi
        { h with chunks := l₁ ++ ⟨p, nb, true⟩ :: ⟨p + nb, rs, false⟩ :: l₂ } F ∧
      Frame (Quiet m hi (Payload h.chunks)) σ τ := by
  obtain ⟨ht₁, hc, n, l₃, rfl, hnu, hna, ht₂⟩ := C.around_free hcs
  have hcm : (⟨p, s, false⟩ : Chunk) ∈ h.chunks := by simp [hcs]
  have hnm : n ∈ h.chunks := by simp [hcs]
  obtain ⟨hp8, hs8, hs32, hplo, hphi⟩ := C.chunk_bounds hcm
  simp only at hp8 hs8 hs32 hplo hphi
  have hntop := (C.tiled.mem hnm).2.1
  have hW : ∀ b, Words [p + 8, p + nb + 8, p + nb + rs] b → p + 8 ≤ b ∧ b < p + s + 8 := by
    rintro b ⟨f, hf, hb⟩
    simp only [List.mem_cons, List.not_mem_nil, or_false] at hf
    rcases hf with rfl | rfl | rfl <;> omega
  refine ⟨C.retile (C.spread hsub) hf (fun b hb => ?_) ?_ ?_ ?_, hf.mono ?_⟩
  · have hw := hW b hb
    omega
  · rintro b (hb | hb | ⟨a, t, ha, h4, h5⟩) hc
    · have hw := hW b hc
      omega
    · have hw := hW b hc
      omega
    · have hw := hW b hc
      rcases C.tiled.apart (hsub a t ha) hcm with he | hap | hap
      · simp only [Chunk.mk.injEq, and_true] at he
        exact hp t (he.1 ▸ ha)
      · simp only at hap
        omega
      · simp only at hap
        omega
  · have hrest : Tiled τ false (p + nb + rs) (n :: l₃) true h.top := by
      rw [Nat.add_assoc, hs]
      refine ht₂.frame_outside hf (fun b h4 h5 hb => ?_)
      have hw := hW b hb
      omega
    refine tiled_append.mpr ⟨true, p, ht₁.frame_outside hf (fun b h4 h5 hb => ?_), rfl,
      ⟨hnb8, hnb, h1, fun hu => by contradiction⟩, rfl,
      ⟨by simp only; omega, hrs, h2, fun _ => ⟨rfl, h3⟩⟩, hrest⟩
    have hw := hW b hb
    omega
  · rw [hf.get (fun b h4 h5 hb => ?_)]
    · exact C.topHead
    · have hw := hW b hb
      have hl := C.tiled.mem hnm
      omega
  · intro b hb
    have hw := hW b hb
    exact ⟨⟨by omega, by omega, C.tiled.free_not_payload hcm rfl (by simp only; omega)
      (by simp only; omega)⟩, by omega⟩

theorem Core.wp_takeSplit {Q : Unit → State → Prop} (C : Core σ m lo hi h F)
    (hsub : ∀ a s, F a s → ⟨a, s, false⟩ ∈ h.chunks)
    (hcs : h.chunks = l₁ ++ ⟨p, s, false⟩ :: l₂) (hp : ∀ t, ¬ F p t) (hs : nb + rs = s)
    (hnb : 32 ≤ nb) (hnb8 : nb % 8 = 0) (hrs : 32 ≤ rs)
    (hQ : ∀ τ, Core τ m lo hi
        { h with chunks := l₁ ++ ⟨p, nb, true⟩ :: ⟨p + nb, rs, false⟩ :: l₂ } F →
      Frame (Quiet m hi (Payload h.chunks)) σ τ → Q () τ) :
    wp D (setSizeAndPinuseOfInuseChunk p nb) (fun _ τ =>
        wp D (setSizeAndPinuseOfFreeChunk (p + nb) rs) Q τ) σ ∧
      wp D (setSizeAndPinuseOfFreeChunk (p + nb) rs) (fun _ τ =>
        wp D (setSizeAndPinuseOfInuseChunk p nb) Q τ) σ := by
  have hcm : (⟨p, s, false⟩ : Chunk) ∈ h.chunks := by simp [hcs]
  obtain ⟨hp8, hs8, hs32, hplo, hphi⟩ := C.chunk_bounds hcm
  simp only at hp8 hs8 hs32 hplo hphi
  have hword := C.arena.word
  have hm₁ : ∀ {τ : State}, τ.maps = σ.maps → τ.mapped (p + 8) 8 = true := fun hτ => by
    rw [Machine.mapped_congr hτ]
    exact C.arena.covers (by omega) (by omega)
  have hm₂ : ∀ {τ : State}, τ.maps = σ.maps → τ.mapped (p + nb + 8) 8 = true := fun hτ => by
    rw [Machine.mapped_congr hτ]
    exact C.arena.covers (by omega) (by omega)
  have hm₃ : ∀ {τ : State}, τ.maps = σ.maps → τ.mapped (p + nb + rs) 8 = true := fun hτ => by
    rw [Machine.mapped_congr hτ]
    exact C.arena.covers (by omega) (by omega)
  have hrs8 : rs % 8 = 0 := by omega
  have hfin : ∀ τ, Frame (Words [p + 8, p + nb + 8, p + nb + rs]) σ τ →
      τ.get 8 (p + 8) = some (headWord nb true true) →
      τ.get 8 (p + nb + 8) = some (headWord rs true false) →
      τ.get 8 (p + nb + rs) = some rs → Q () τ := by
    intro τ hf h1 h2 h3
    obtain ⟨hc, hfr⟩ := C.takeSplit hsub hcs hp hs hnb hnb8 hrs hf h1 h2 h3
    exact hQ τ hc hfr
  constructor
  · refine C.arena.wp_inuseHead rfl hnb8 (by omega) (by omega) ?_
    refine C.arena.wp_freeHead rfl hrs8 (by omega) (by omega) ?_
    refine hfin _ ?_ ?_ ?_ ?_
    · refine (((Frame.refl _ σ).put ?_).put ?_).put ?_
      · exact fun b h1 h2 => ⟨p + 8, by simp, h1, h2⟩
      · exact fun b h1 h2 => ⟨p + nb + 8, by simp, h1, h2⟩
      · exact fun b h1 h2 => ⟨p + nb + rs, by simp, h1, h2⟩
    · rw [Machine.get_put_ne (by omega), Machine.get_put_ne (by omega)]
      exact Machine.get_put_same (hm₁ rfl) (headWord_lt (by omega))
    · rw [Machine.get_put_ne (by omega)]
      exact Machine.get_put_same (hm₂ rfl) (headWord_lt (by omega))
    · exact Machine.get_put_same (hm₃ rfl) (by omega)
  · refine C.arena.wp_freeHead rfl hrs8 (by omega) (by omega) ?_
    refine C.arena.wp_inuseHead rfl hnb8 (by omega) (by omega) ?_
    refine hfin _ ?_ ?_ ?_ ?_
    · refine (((Frame.refl _ σ).put ?_).put ?_).put ?_
      · exact fun b h1 h2 => ⟨p + nb + 8, by simp, h1, h2⟩
      · exact fun b h1 h2 => ⟨p + nb + rs, by simp, h1, h2⟩
      · exact fun b h1 h2 => ⟨p + 8, by simp, h1, h2⟩
    · exact Machine.get_put_same (hm₁ rfl) (headWord_lt (by omega))
    · rw [Machine.get_put_ne (by omega), Machine.get_put_ne (by omega)]
      exact Machine.get_put_same (hm₂ rfl) (headWord_lt (by omega))
    · rw [Machine.get_put_ne (by omega)]
      exact Machine.get_put_same (hm₃ rfl) (by omega)

/-! Top moves. -/

/-- The words of top and some chunks have changed. -/
theorem Core.retop {cs : List Chunk} {t ts : Nat} (C : Core σ m lo hi h F)
    (hsub : ∀ a s, F a s → ⟨a, s, false⟩ ∈ h.chunks) (hf : Frame W σ τ)
    (hW : ∀ b, W b → (m + 16 ≤ b ∧ b < m + 24) ∨ (m + 40 ≤ b ∧ b < m + 48) ∨
      (m + 928 ≤ b ∧ b + 16 < hi ∧ ¬ BinZone m F b))
    (h1 : τ.getPtr (m + 40) = some t) (h2 : τ.get 8 (m + 16) = some ts)
    (ht : Tiled τ true (m + 920) cs true t)
    (hh : τ.get 8 (t + 8) = some (headWord ts true false)) (hts : ts % 8 = 0)
    (hfit : 0 < ts ∧ t + ts + 24 = hi) :
    Core τ m lo hi { h with chunks := cs, top := t, topsize := ts } F := by
  have S := C.scalars
  have hroom := C.foot_behind
  refine ⟨C.arena.frame hf ?_, ⟨?_, ?_, h1, h2, ?_, ?_, ?_, ?_, ?_, ?_, ?_, ?_, ?_, ?_⟩, ht, hh, hts,
    hfit, ?_, C.binned.frame (C.spread hsub) hf ?_⟩
  · intro b h3 h4 hb
    have hw := hW b hb
    omega
  · rw [hf.getPtr (fun b h3 h4 hb => by have hw := hW b hb; omega)]
    exact S.dvPtr
  · rw [hf.get (fun b h3 h4 hb => by have hw := hW b hb; omega)]
    exact S.dvWord
  · rw [hf.get (fun b h3 h4 hb => by have hw := hW b hb; omega)]
    exact S.extsWord
  · rw [hf.get (fun b h3 h4 hb => by have hw := hW b hb; omega)]
    exact S.trimWord
  · rw [hf.get (fun b h3 h4 hb => by have hw := hW b hb; omega)]
    exact S.checkWord
  · rw [hf.getPtr (fun b h3 h4 hb => by have hw := hW b hb; omega)]
    exact S.segBase
  · rw [hf.get (fun b h3 h4 hb => by have hw := hW b hb; omega)]
    exact S.segSize
  · rw [hf.getPtr (fun b h3 h4 hb => by have hw := hW b hb; omega)]
    exact S.segNext
  · rw [hf.get (fun b h3 h4 hb => by have hw := hW b hb; omega)]
    exact S.segFlags
  · rw [hf.get (fun b h3 h4 hb => by have hw := hW b hb; omega)]
    exact S.footprint
  · rw [hf.get (fun b h3 h4 hb => by have hw := hW b hb; omega)]
    exact S.maxFootprint
  · rw [hf.get (fun b h3 h4 hb => by have hw := hW b hb; omega)]
    exact S.flags
  · rw [hf.get (fun b h3 h4 hb => by have hw := hW b hb; omega)]
    exact C.topFoot
  · intro b hb hc
    rcases hW b hc with hw | hw | ⟨_, _, hw⟩
    · have hbb := BinZone.bounds (C.spread hsub) hb
      omega
    · have hbb := BinZone.bounds (C.spread hsub) hb
      omega
    · exact hw hb

/-- Binned chunks end before top. -/
theorem Core.not_binZone (C : Core σ m lo hi h F)
    (hsub : ∀ a s, F a s → ⟨a, s, false⟩ ∈ h.chunks) {b : Nat} (h1 : h.top ≤ b) :
    ¬ BinZone m F b := by
  have htop := C.tiled.le
  rintro (hb | hb | ⟨a, s, ha, h2, h3⟩)
  · omega
  · omega
  · have hm := C.tiled.mem (hsub a s ha)
    simp only at hm
    omega

theorem Core.top_quiet (C : Core σ m lo hi h F) {b : Nat} (h1 : h.top + 8 ≤ b) (h2 : b < hi) :
    Quiet m hi (Payload h.chunks) b := by
  have htop := C.tiled.le
  refine ⟨⟨by omega, h2, fun hp => ?_⟩, by omega⟩
  have hpb := C.tiled.payload_bounds hp
  omega

/-- The memory at the start of top goes to a client. -/
theorem Core.takeTop {rs : Nat} (C : Core σ m lo hi h F)
    (hsub : ∀ a s, F a s → ⟨a, s, false⟩ ∈ h.chunks) (hs : nb + rs = h.topsize) (hrs : 0 < rs)
    (hnb : 32 ≤ nb) (hnb8 : nb % 8 = 0)
    (hf : Frame (Words [m + 16, m + 40, h.top + 8, h.top + nb + 8]) σ τ)
    (h1 : τ.getPtr (m + 40) = some (h.top + nb)) (h2 : τ.get 8 (m + 16) = some rs)
    (h3 : τ.get 8 (h.top + 8) = some (headWord nb true true))
    (h4 : τ.get 8 (h.top + nb + 8) = some (headWord rs true false)) :
    Core τ m lo hi { h with chunks := h.chunks ++ [⟨h.top, nb, true⟩], top := h.top + nb,
                            topsize := rs } F ∧
      Frame (Quiet m hi (Payload h.chunks)) σ τ := by
  have htop := C.tiled.le
  have hts := C.topAlign
  obtain ⟨hpos, hfits⟩ := C.topFits
  have hW : ∀ b, Words [m + 16, m + 40, h.top + 8, h.top + nb + 8] b →
      (m + 16 ≤ b ∧ b < m + 24) ∨ (m + 40 ≤ b ∧ b < m + 48) ∨
        (h.top + 8 ≤ b ∧ b + 16 < hi) := by
    rintro b ⟨f, hf, hb⟩
    simp only [List.mem_cons, List.not_mem_nil, or_false] at hf
    rcases hf with rfl | rfl | rfl | rfl <;> omega
  refine ⟨C.retop hsub hf ?_ h1 h2 ?_ h4 (by omega) ⟨hrs, by omega⟩, hf.mono ?_⟩
  · intro b hb
    rcases hW b hb with hw | hw | hw
    · exact Or.inl hw
    · exact Or.inr (Or.inl hw)
    · exact Or.inr (Or.inr ⟨by omega, hw.2, C.not_binZone hsub (by omega)⟩)
  · refine tiled_append.mpr ⟨true, h.top, C.tiled.frame_outside hf (fun b h5 h6 hb => ?_), rfl,
      ⟨hnb8, hnb, h3, fun hu => by contradiction⟩, rfl, rfl⟩
    have hw := hW b hb
    omega
  · intro b hb
    rcases hW b hb with hw | hw | hw
    · exact C.scalar_quiet (by omega) (by omega) (by omega)
    · exact C.scalar_quiet (by omega) (by omega) (by omega)
    · exact C.top_quiet hw.1 (by omega)

end

end Mmdata.Proofs
