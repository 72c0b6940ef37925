import Mmdata.Proofs.FreeSpec

namespace Mmdata.Proofs
open Lib Malloc

/-- A reallocation that grows the chunk in place, into top. -/
def GrowsTop (h : Heap) (p s bytes : Nat) : Prop :=
  h.top = p + s ∧ s < request2size bytes ∧ request2size bytes < s + h.topsize

instance (h : Heap) (p s bytes : Nat) : Decidable (GrowsTop h p s bytes) :=
  inferInstanceAs (Decidable (_ ∧ _ ∧ _))

/-- A reallocation that moves the block: a new one is given, and taking back the old chunk
then makes top exceed the trim threshold. -/
def MoveTrims (σ : State) (m p s bytes : Nat) : Prop :=
  ∃ v τ lo hi h, mspaceMalloc m bytes σ = .ok (v, τ) ∧ v ≠ 0 ∧ Ok τ m lo hi h ∧
    FreeTrims τ m h p s

/-- A reallocation gives memory back that makes top exceed the trim threshold:
the end of the chunk, or all of it where top is too small to grow into. -/
def ReallocTrims (σ : State) (m : Nat) (h : Heap) (p s bytes : Nat) : Prop :=
  bytes < maxRequest ∧ h.top = p + s ∧
    (request2size bytes + 32 ≤ s ∧ Exceeds σ m (h.topsize + (s - request2size bytes)) ∨
      s + h.topsize ≤ request2size bytes ∧ MoveTrims σ m p s bytes)

/-- The bytes in use both before and after. -/
def Kept (h h' : Heap) (b : Nat) : Prop := Payload h.chunks b ∧ Payload h'.chunks b

/-- The live chunk `p` of size `s` has become the live chunk `v` of size `s'`,
with room for `bytes` and with what fits of the old contents. -/
structure Resizes (σ : State) (m lo hi : Nat) (h : Heap) (p s bytes : Nat) (τ : State) (h' : Heap)
    (v s' : Nat) : Prop where
  ok : Ok τ m lo hi h'
  live : ∃ L, h.live.Perm ((p, s) :: L) ∧ h'.live.Perm ((v, s') :: L)
  large : bytes + 8 ≤ s'
  frame : Frame (Own m hi (Kept h h')) σ τ
  data : ∀ i, i < bytes → i + 8 < s → τ.byte (v + 16 + i) = σ.byte (p + 16 + i)
  exts : ¬ GrowsTop h p s bytes → h'.exts = subSize (addSize h.exts s') s

section

variable {D : Trap → Prop} {σ τ υ : State} {W : Nat → Prop} {m lo hi p s v nb rs bytes : Nat}
  {h h' : Heap} {pu : Bool} {F : Nat → Nat → Prop} {l₁ l₂ l₃ : List Chunk}

theorem wp_setInuse {Q : Unit → State → Prop} (hs : s % 8 = 0)
    (hl : (σ.byte (p + 8)).low? = some (if pu then 1 else 0)) (hp : σ.mapped (p + 8) 8 = true)
    (hn : σ.mapped (p + s + 8) 8 = true) :
    wp D (setInuse p s) Q σ ↔
      Q () ((σ.put 8 (p + 8) (headWord s pu true)).setLow (p + s + 8)) := by
  simp only [setInuse, head, wp_bind]
  rw [wp_loadLow hp hl, wp_store hp, low_or_inuse hs]
  exact wp_setLowBit hn

/-- No chunk of the heap counts as mapped on its own. -/
theorem Core.wp_isMmapped {Q : Bool → State → Prop} (C : Core σ m lo hi h F)
    (hp : ⟨p, s, true⟩ ∈ h.chunks) (hQ : Q false σ) : wp D (isMmapped p) Q σ := by
  obtain ⟨l₁, l₂, hcs⟩ := List.append_of_mem hp
  obtain ⟨pv, hfront, hc, _⟩ := C.around_used hcs
  unfold isMmapped
  simp only [wp_bind]
  rw [wp_pinuse hc.head hc.align]
  cases pv with
  | true =>
    rw [wp_if_pos rfl]
    exact hQ
  | false =>
    obtain ⟨_, _, k, _, _, hfoot, hk8⟩ := tiled_prev_free hfront
    have hbit : (k &&& isMmappedBit != 0) = false := by
      simp only [isMmappedBit, Nat.and_one_is_mod, bne_eq_false_iff_eq]
      omega
    rw [wp_if_neg (by simp)]
    simp only [wp_bind, prevFoot]
    rw [wp_load hfoot, wp_pure, hbit]
    exact hQ

theorem Core.wp_overheadFor {Q : Nat → State → Prop} (C : Core σ m lo hi h F)
    (hp : ⟨p, s, true⟩ ∈ h.chunks) (hQ : Q 8 σ) : wp D (overheadFor p) Q σ := by
  unfold overheadFor
  simp only [wp_bind]
  refine C.wp_isMmapped hp ?_
  rw [wp_pure, if_neg (by simp)]
  exact hQ

/-- Clients write what they like into memory they have been given. -/
theorem Ok.payload_frame (O : Ok σ m lo hi h) (hf : Frame W σ τ)
    (hW : ∀ b, W b → Payload h.chunks b) : Ok τ m lo hi h := by
  have C := O.core
  have hlow : ∀ b, W b → m + 936 ≤ b ∧ b < h.top + 8 := by
    intro b hb
    have hpb := C.tiled.payload_bounds (hW b hb)
    omega
  refine ⟨⟨C.arena.frame hf ?_, C.scalars.frame hf ?_ ?_, C.tiled.frame hf ?_, ?_, C.topAlign,
    C.topFits, ?_, C.binned.frame (C.spread inBins_free) hf ?_⟩, O.dvOk⟩
  · intro b h1 h2 hb
    have hl := hlow b hb
    omega
  · intro b h1 h2 hb
    have hl := hlow b hb
    omega
  · intro b h1 h2 hb
    have hl := hlow b hb
    omega
  · exact fun b hb hw => C.tiled.word_not_payload hb (hW b hw)
  · rw [hf.get (fun b h1 h2 hb => ?_)]
    · exact C.topHead
    · have hl := hlow b hb
      omega
  · rw [hf.get (fun b h1 h2 hb => ?_)]
    · exact C.topFoot
    · have hl := hlow b hb
      have hroom := C.foot_behind
      omega
  · exact fun b hb hw => (C.binZone_tile inBins_free hb).2.1 (hW b hw)

/-- A chunk in use is cut in two chunks in use. -/
theorem Core.cutUsed (C : Core σ m lo hi h F) (hsub : ∀ a t, F a t → ⟨a, t, false⟩ ∈ h.chunks)
    (hcs : h.chunks = l₁ ++ ⟨p, s, true⟩ :: l₂) (hs : nb + rs = s) (hnb : 32 ≤ nb)
    (hnb8 : nb % 8 = 0) (hrs : 32 ≤ rs) (hpu : Tiled σ true (m + 920) l₁ pu p)
    (hf : Frame (Words [p + 8, p + nb + 8]) σ τ)
    (h1 : τ.get 8 (p + 8) = some (headWord nb pu true))
    (h2 : τ.get 8 (p + nb + 8) = some (headWord rs true true)) :
    Core τ m lo hi { h with chunks := l₁ ++ ⟨p, nb, true⟩ :: ⟨p + nb, rs, true⟩ :: l₂ } F ∧
      Frame (Quiet m hi (Payload (l₁ ++ ⟨p, nb, true⟩ :: ⟨p + nb, rs, true⟩ :: l₂))) σ τ := by
  obtain ⟨_, _, hc, hback⟩ := C.around_used hcs
  have hpm : (⟨p, s, true⟩ : Chunk) ∈ h.chunks := by simp [hcs]
  obtain ⟨hp8, hs8, hs32, hplo, hphi⟩ := C.chunk_bounds hpm
  simp only at hp8 hs8 hs32 hplo hphi
  have hptop := (C.tiled.mem hpm).2.1
  simp only at hptop
  have hW : ∀ b, Words [p + 8, p + nb + 8] b → p + 8 ≤ b ∧ b < p + s := by
    rintro b ⟨f, hf, hb⟩
    simp only [List.mem_cons, List.not_mem_nil, or_false] at hf
    rcases hf with rfl | rfl <;> omega
  have htile : Tiled τ true (m + 920) (l₁ ++ ⟨p, nb, true⟩ :: ⟨p + nb, rs, true⟩ :: l₂) true
      h.top := by
    refine tiled_append.mpr ⟨pu, p, hpu.frame_outside hf (fun b h3 h4 hb => ?_), rfl,
      ⟨hnb8, hnb, h1, fun hu => by contradiction⟩, rfl,
      ⟨by simp only; omega, hrs, h2, fun hu => by contradiction⟩, ?_⟩
    · have hw := hW b hb
      omega
    · simp only
      rw [Nat.add_assoc, hs]
      refine hback.frame_outside hf (fun b h3 h4 hb => ?_)
      have hw := hW b hb
      omega
  refine ⟨C.retile (C.spread hsub) hf (fun b hb => ?_) ?_ htile ?_, hf.mono (fun b hb => ?_)⟩
  · have hw := hW b hb
    omega
  · rintro b (hb | hb | ⟨a, t, ha, h3, h4⟩) hc
    · have hw := hW b hc
      omega
    · have hw := hW b hc
      omega
    · have hw := hW b hc
      rcases C.tiled.apart (hsub a t ha) hpm with he | hap | hap
      · simp only [Chunk.mk.injEq] at he
        exact absurd he.2.2 (by simp)
      · simp only at hap
        omega
      · simp only at hap
        omega
  · rw [hf.get (fun b h3 h4 hb => ?_)]
    · exact C.topHead
    · have hw := hW b hb
      omega
  · have hw := hW b hb
    refine ⟨⟨by omega, by omega, htile.word_not_payload ?_⟩, by omega⟩
    obtain ⟨f, hf, h3, h4⟩ := hb
    simp only [List.mem_cons, List.not_mem_nil, or_false] at hf
    rcases hf with rfl | rfl
    · exact ⟨⟨p, nb, true⟩, by simp, Or.inl ⟨h3, by simpa using by omega⟩⟩
    · exact ⟨⟨p + nb, rs, true⟩, by simp, Or.inl ⟨h3, by simpa using by omega⟩⟩

/-- The last chunk grows into top. -/
theorem Core.growTop {ts : Nat} (C : Core σ m lo hi h F)
    (hsub : ∀ a t, F a t → ⟨a, t, false⟩ ∈ h.chunks)
    (hcs : h.chunks = l₁ ++ [⟨p, s, true⟩]) (hs : nb + ts = s + h.topsize) (hnb : s < nb)
    (hnb8 : nb % 8 = 0) (hts : 0 < ts) (hpu : Tiled σ true (m + 920) l₁ pu p)
    (hf : Frame (Words [m + 16, m + 40, p + 8, p + nb + 8]) σ τ)
    (h1 : τ.getPtr (m + 40) = some (p + nb)) (h2 : τ.get 8 (m + 16) = some ts)
    (h3 : τ.get 8 (p + 8) = some (headWord nb pu true))
    (h4 : τ.get 8 (p + nb + 8) = some (headWord ts true false)) :
    Core τ m lo hi { h with chunks := l₁ ++ [⟨p, nb, true⟩], top := p + nb, topsize := ts } F ∧
      Frame (Quiet m hi (Payload h.chunks)) σ τ := by
  obtain ⟨_, _, hc, hback⟩ := C.around_used hcs
  obtain ⟨_, htop⟩ := hback
  have hpm : (⟨p, s, true⟩ : Chunk) ∈ h.chunks := by simp [hcs]
  obtain ⟨hp8, hs8, hs32, hplo, hphi⟩ := C.chunk_bounds hpm
  simp only at hp8 hs8 hs32 hplo hphi
  have hta := C.topAlign
  obtain ⟨hpos, hfits⟩ := C.topFits
  have hW : ∀ b, Words [m + 16, m + 40, p + 8, p + nb + 8] b → (m + 16 ≤ b ∧ b < m + 24) ∨
      (m + 40 ≤ b ∧ b < m + 48) ∨ (p + 8 ≤ b ∧ b < p + 16) ∨
        (h.top + 8 ≤ b ∧ b + 16 < hi) := by
    rintro b ⟨f, hf, hb⟩
    simp only [List.mem_cons, List.not_mem_nil, or_false] at hf
    rcases hf with rfl | rfl | rfl | rfl <;> omega
  refine ⟨C.retop hsub hf ?_ h1 h2 ?_ h4 (by omega) ⟨hts, by omega⟩, hf.mono ?_⟩
  · intro b hb
    rcases hW b hb with hw | hw | hw | hw
    · exact Or.inl hw
    · exact Or.inr (Or.inl hw)
    · refine Or.inr (Or.inr ⟨by omega, by omega, ?_⟩)
      rintro (hz | hz | ⟨a, t, ha, h5, h6⟩)
      · omega
      · omega
      · rcases C.tiled.apart (hsub a t ha) hpm with he | hap | hap
        · simp only [Chunk.mk.injEq] at he
          exact absurd he.2.2 (by simp)
        · simp only at hap
          omega
        · simp only at hap
          omega
    · exact Or.inr (Or.inr ⟨by omega, hw.2, C.not_binZone hsub (by omega)⟩)
  · refine tiled_append.mpr ⟨pu, p, hpu.frame_outside hf (fun b h5 h6 hb => ?_), rfl,
      ⟨hnb8, by simp only; omega, h3, fun hu => by contradiction⟩, rfl, rfl⟩
    have hw := hW b hb
    omega
  · intro b hb
    rcases hW b hb with hw | hw | hw | hw
    · exact C.scalar_quiet (by omega) (by omega) (by omega)
    · exact C.scalar_quiet (by omega) (by omega) (by omega)
    · exact ⟨⟨by omega, by omega,
        C.tiled.word_not_payload ⟨_, hpm, Or.inl (by simpa using hw)⟩⟩, by omega⟩
    · exact C.top_quiet hw.1 (by omega)

/-- What the attempt to stay in place ends with: nothing done, the chunk as it
is, a chunk cut in two, or a chunk grown into top. -/
theorem Ok.wp_reallocInPlace {Q : Nat × Nat → State → Prop} (O : Ok σ m lo hi h)
    (hcs : h.chunks = l₁ ++ ⟨p, s, true⟩ :: l₂) (hnb : 32 ≤ nb) (hnb8 : nb % 8 = 0)
    (hnone : s < nb → ¬ (h.top = p + s ∧ nb < s + h.topsize) → Q (0, 0) σ)
    (hsame : nb ≤ s → s < nb + 32 → Q (p, 0) σ)
    (hcut : ∀ τ rs, nb + rs = s → 32 ≤ rs →
      Ok τ m lo hi { h with chunks := l₁ ++ ⟨p, nb, true⟩ :: ⟨p + nb, rs, true⟩ :: l₂ } →
      Frame (Quiet m hi (Payload (l₁ ++ ⟨p, nb, true⟩ :: ⟨p + nb, rs, true⟩ :: l₂))) σ τ →
      Q (p, p + nb + 16) τ)
    (hgrow : ∀ τ ts, h.top = p + s → s < nb → nb + ts = s + h.topsize → 0 < ts → l₂ = [] →
      Ok τ m lo hi { h with chunks := l₁ ++ [⟨p, nb, true⟩], top := p + nb, topsize := ts } →
      Frame (Quiet m hi (Payload h.chunks)) σ τ → Q (p, 0) τ) :
    wp D (reallocInPlace m p s (p + s) nb) Q σ := by
  have C := O.core
  have A := C.arena
  have hal := A.align
  have hword := A.word
  have hhigh := A.high
  have hpm : (⟨p, s, true⟩ : Chunk) ∈ h.chunks := by simp [hcs]
  obtain ⟨hp8, hs8, hs32, hplo, hphi⟩ := C.chunk_bounds hpm
  simp only at hp8 hs8 hs32 hplo hphi
  obtain ⟨pu, hfront, hc, hback⟩ := C.around_used hcs
  have hhead := hc.head
  have hptop := hback.le
  simp only at hhead
  have hlow : (σ.byte (p + 8)).low? = some (if pu then 1 else 0) := by
    rw [Machine.low_of_get hhead, headWord_low hs8]
  obtain ⟨hpos, hfits⟩ := C.topFits
  have hta := C.topAlign
  unfold reallocInPlace
  simp only [wp_bind]
  refine C.wp_isMmapped hpm ?_
  rw [wp_if_neg (by simp)]
  by_cases hge : s ≥ nb
  · rw [wp_if_pos hge, subSize_le hge (by omega)]
    by_cases hr : s - nb ≥ minChunkSize
    · rw [wp_if_pos hr]
      simp only [minChunkSize] at hr
      simp only [wp_bind, chunk2mem]
      have hrs8 : (s - nb) % 8 = 0 := by omega
      have hsum : p + nb + (s - nb) + 8 = p + s + 8 := by omega
      have hlow₂ : ∀ τ : State, ((τ.setLow (p + nb + 8)).byte (p + nb + 8)).low? =
          some (if true then 1 else 0) := fun τ => Machine.low_setLow _
      have hmap : ∀ τ : State, τ.maps = σ.maps → ∀ a, m ≤ a → a + 8 ≤ hi →
          τ.mapped a 8 = true := by
        intro τ hτ a h1 h2
        rw [Machine.mapped_congr hτ]
        exact A.covers h1 h2
      rw [wp_setInuse hnb8 hlow (hmap σ rfl _ (by omega) (by omega))
        (hmap σ rfl _ (by omega) (by omega))]
      refine (wp_setInuse hrs8 (hlow₂ _) (hmap _ (by rfl) _ (by omega) (by omega))
        (hmap _ (by rfl) _ (by omega) (by omega))).mpr ?_
      rw [hsum]
      -- the head behind is not touched but for a bit that is set
      have hnext : ∃ v, v % 2 = 1 ∧ σ.get 8 (p + s + 8) = some v := by
        cases l₂ with
        | nil =>
          have htop := hback.2
          refine ⟨_, ?_, by rw [← htop]; exact C.topHead⟩
          rw [headWord_low hta]
          rfl
        | cons c l₃ =>
          obtain ⟨hca, hcc, _⟩ := hback
          refine ⟨_, ?_, by rw [← hca]; exact hcc.head⟩
          rw [headWord_low hcc.align]
          rfl
      obtain ⟨v, hv, hgv⟩ := hnext
      rw [Machine.setLow_of_odd (v := v) (by
        rw [Machine.get_put_ne (by omega), Machine.get_setLow_ne (by omega),
          Machine.get_put_ne (by omega)]
        exact hgv) hv, wp_pure]
      have hcutC := C.cutUsed (τ := ((σ.put 8 (p + 8) (headWord nb pu true)).setLow
          (p + nb + 8)).put 8 (p + nb + 8) (headWord (s - nb) true true)) inBins_free hcs
        (show nb + (s - nb) = s by omega) hnb hnb8 hr hfront (by
          refine (((Frame.refl _ σ).put ?_).setLow ?_).put ?_
          · exact fun b h1 h2 => ⟨p + 8, by simp, h1, h2⟩
          · exact ⟨p + nb + 8, by simp, by omega, by omega⟩
          · exact fun b h1 h2 => ⟨p + nb + 8, by simp, h1, h2⟩) (by
          rw [Machine.get_put_ne (by omega), Machine.get_setLow_ne (by omega)]
          exact Machine.get_put_same (A.covers (by omega) (by omega)) (headWord_lt (by omega)))
        (Machine.get_put_same (A.covers (by omega) (by omega)) (headWord_lt (by omega)))
      refine hcut _ (s - nb) (by omega) hr ⟨hcutC.1.congr (fun a t => ?_), ?_⟩ hcutC.2
      · simp [Heap.inBins, hcs]
      · rcases O.dvOk with hd | hd
        · exact Or.inl hd
        · refine Or.inr ?_
          rw [hcs] at hd
          simpa using hd
    · rw [wp_if_neg hr]
      simp only [minChunkSize] at hr
      exact hsame hge (by omega)
  · rw [wp_if_neg hge]
    simp only [wp_bind, top, topsize, head]
    rw [wp_loadPtr C.scalars.topPtr, wp_load C.scalars.topWord]
    have hsum : addSize s h.topsize = s + h.topsize := by
      simp only [addSize]
      omega
    rw [hsum]
    by_cases hg : p + s = h.top ∧ s + h.topsize > nb
    · obtain ⟨htop, hlt⟩ := hg
      rw [wp_if_pos ⟨htop, hlt⟩, subSize_le (by omega) (by omega)]
      have hl₂ : l₂ = [] := by
        cases l₂ with
        | nil => rfl
        | cons c l₃ =>
          obtain ⟨_, hcc, hct⟩ := hback
          have hcl := hcc.large
          have hcle := hct.le
          omega
      subst hl₂
      have hts8 : (s + h.topsize - nb) % 8 = 0 := by omega
      simp only [wp_bind]
      rw [wp_setInuse hnb8 hlow (A.covers (by omega) (by omega)) (A.covers (by omega) (by omega)),
        or_pinuse hts8]
      refine A.wp_store rfl (by omega) (by omega) ?_
      refine A.wp_storePtr rfl (by omega) (by omega) ?_
      refine A.wp_store rfl (by omega) (by omega) ?_
      rw [wp_pure]
      have hgr := C.growTop (τ := ((((σ.put 8 (p + 8) (headWord nb pu true)).setLow
          (p + nb + 8)).put 8 (p + nb + 8) (headWord (s + h.topsize - nb) true false)).putPtr
            (m + 40) (p + nb)).put 8 (m + 16) (s + h.topsize - nb)) inBins_free hcs
        (show nb + (s + h.topsize - nb) = s + h.topsize by omega) (by omega) hnb8 (by omega)
        hfront (by
          refine (((((Frame.refl _ σ).put ?_).setLow ?_).put ?_).putPtr ?_).put ?_
          · exact fun b h1 h2 => ⟨p + 8, by simp, h1, h2⟩
          · exact ⟨p + nb + 8, by simp, by omega, by omega⟩
          · exact fun b h1 h2 => ⟨p + nb + 8, by simp, h1, h2⟩
          · exact fun b h1 h2 => ⟨m + 40, by simp, h1, h2⟩
          · exact fun b h1 h2 => ⟨m + 16, by simp, h1, h2⟩) (by
          rw [Machine.getPtr_put_ne (by omega)]
          exact A.getPtr_self (by rfl) (by omega) (by omega) (by omega) (by omega) (by omega))
        (Machine.get_put_same (A.covers (by omega) (by omega)) (by omega)) (by
          rw [Machine.get_put_ne (by omega), Machine.get_putPtr_ne (by omega),
            Machine.get_put_ne (by omega), Machine.get_setLow_ne (by omega)]
          exact Machine.get_put_same (A.covers (by omega) (by omega)) (headWord_lt (by omega))) (by
          rw [Machine.get_put_ne (by omega), Machine.get_putPtr_ne (by omega)]
          exact Machine.get_put_same (A.covers (by omega) (by omega)) (headWord_lt (by omega)))
      refine hgrow _ (s + h.topsize - nb) htop.symm (by omega) (by omega) (by omega) rfl
        ⟨hgr.1.congr (fun a t => ?_), ?_⟩ hgr.2
      · simp [Heap.inBins, hcs]
      · rcases O.dvOk with hd | hd
        · exact Or.inl hd
        · refine Or.inr ?_
          rw [hcs] at hd
          simpa using hd
    · rw [wp_if_neg hg]
      exact hnone (by omega) (fun hc => hg ⟨hc.1.symm, hc.2⟩)

/-- Two chunks that do not overlap. -/
def Apart (e f : Nat × Nat) : Prop := e.1 + e.2 ≤ f.1 ∨ f.1 + f.2 ≤ e.1

theorem Apart.symm {e f : Nat × Nat} (ha : Apart e f) : Apart f e := Or.symm ha

theorem Tiled.live_apart {cs : List Chunk} {pu' : Bool} {q : Nat} (ht : Tiled σ pu p cs pu' q) :
    ((cs.filter (·.used)).map (fun c => (c.addr, c.size))).Pairwise Apart := by
  induction cs generalizing pu p with
  | nil => exact List.Pairwise.nil
  | cons c cs ih =>
    obtain ⟨ha, hc, ht⟩ := ht
    have hrest := ih ht
    by_cases hu : c.used = true
    · rw [List.filter_cons_of_pos hu, List.map_cons]
      refine List.pairwise_cons.mpr ⟨fun e he => ?_, hrest⟩
      obtain ⟨d, hd, rfl⟩ := List.mem_map.mp he
      have hm := (ht.mem (List.mem_filter.mp hd).1).1
      exact Or.inl (by simp only; omega)
    · rw [List.filter_cons_of_neg hu]
      exact hrest

/-- Live chunks do not overlap. -/
theorem Ok.live_apart (O : Ok σ m lo hi h) : h.live.Pairwise Apart := O.core.tiled.live_apart

theorem Ok.apart_of_perm {e : Nat × Nat} {L : List (Nat × Nat)} (O : Ok σ m lo hi h)
    (hl : h.live.Perm (e :: L)) : ∀ f ∈ L, Apart e f :=
  (List.pairwise_cons.mp ((hl.pairwise_iff Apart.symm).mp O.live_apart)).1

theorem subSize_addSize {e t : Nat} (he : e < 2 ^ 64) (ht : t < 2 ^ 64) :
    subSize (addSize e t) t = e := by
  simp only [subSize, addSize]
  omega

theorem Ok.exts_lt (O : Ok σ m lo hi h) : h.exts < 2 ^ 64 :=
  Machine.get_lt O.core.scalars.extsWord

theorem own_left {P P' : Nat → Prop} (hP : ∀ b, P' b → P b) :
    ∀ b, Own m hi P b → Own m hi P' b := fun _ hb => ⟨hb.1, hb.2.1, fun hp => hb.2.2 (hP _ hp)⟩

theorem payload_mono (hl : ∀ e ∈ h.live, e ∈ h'.live) {b : Nat} (hb : Payload h.chunks b) :
    Payload h'.chunks b := by
  obtain ⟨a, t, hm, hb⟩ := Payload.live.mp hb
  exact Payload.live.mpr ⟨a, t, hl _ hm, hb⟩

/-- A chunk that stays where it is keeps what it holds. -/
theorem data_in_place {s' : Nat} (hp : (p, s) ∈ h.live) (hp' : (p, s') ∈ h'.live)
    (hl : bytes + 8 ≤ s') (hf : Frame (Own m hi (Kept h h')) σ τ) :
    ∀ i, i < bytes → i + 8 < s → τ.byte (p + 16 + i) = σ.byte (p + 16 + i) := by
  intro i h1 h2
  refine hf.byte _ (fun hb => hb.2.2 ⟨?_, ?_⟩)
  · exact Payload.live.mpr ⟨p, s, hp, by omega, by omega⟩
  · exact Payload.live.mpr ⟨p, s', hp', by omega, by omega⟩

/-- The chunk stays as it is. -/
theorem Ok.resize_same (O : Ok σ m lo hi h) (hp : (p, s) ∈ h.live) (hl : bytes + 8 ≤ s) :
    Resizes σ m lo hi h p s bytes σ h p s := by
  have hb := O.core.chunk_bounds (mem_live.mp hp)
  have hword := O.core.arena.word
  simp only at hb
  have hperm := List.perm_cons_erase hp
  refine ⟨O, ⟨_, hperm, hperm⟩, hl, Frame.refl _ σ, fun _ _ _ => rfl, fun _ => ?_⟩
  exact (subSize_addSize O.exts_lt (by omega)).symm

/-- A chunk that borders top has done so since before chunks were given away. -/
theorem Ok.top_kept {h₁ : Heap} (O : Ok σ m lo hi h) (O₁ : Ok τ m lo hi h₁)
    (hl : ∀ e ∈ h.live, e ∈ h₁.live) (hp : (p, s) ∈ h.live) (ht : h₁.top = p + s) :
    h.top = p + s := by
  obtain ⟨l₁, l₂, hcs⟩ := List.append_of_mem (mem_live.mp hp)
  obtain ⟨_, _, _, hback⟩ := O.core.around_used hcs
  -- a chunk in use behind would still be there
  have hno : ∀ e ∈ l₂, e.used = true → p + s ≤ e.addr → False := by
    intro e he hu hpe
    obtain ⟨a, t, u⟩ := e
    simp only at hu hpe
    subst hu
    have hm : (a, t) ∈ h.live := mem_live.mpr (by simp [hcs, he])
    obtain ⟨_, hle, _, hc⟩ := O₁.core.tiled.mem (mem_live.mp (hl _ hm))
    have hlarge := hc.large
    simp only at hle hlarge
    omega
  cases l₂ with
  | nil => exact hback.2
  | cons c l₃ =>
    obtain ⟨hca, _, hrest⟩ := hback
    by_cases hu : c.used = true
    · exact (hno c (by simp) hu (by omega)).elim
    · rw [Bool.not_eq_true] at hu
      rw [hu] at hrest
      cases l₃ with
      | nil =>
        have hpu := hrest.1
        contradiction
      | cons d l₄ =>
        have hda := hrest.1
        exact (hno d (by simp) hrest.head_used (by omega)).elim

/-- The chunk moves: a new one is given, the contents are copied, and the old one
is taken back. -/
theorem Ok.wp_move {Q : Unit → State → Prop} {h₁ : Heap} {s' : Nat} (O₁ : Ok τ m lo hi h₁)
    (T : FreeTrims τ m h₁ p s → TrimOk D τ m hi) (hp : (p, s) ∈ h.live)
    (hl₁ : h₁.live.Perm ((v, s') :: h.live)) (hs' : bytes + 8 ≤ s')
    (he₁ : h₁.exts = addSize h.exts s') (hf₁ : Frame (Own m hi (Payload h.chunks)) σ τ)
    (hQ : ∀ υ h', Resizes σ m lo hi h p s bytes υ h' v s' →
      (FreeTrims τ m h₁ p s → Granular τ) → Q () υ) :
    wp D (memcpy (v + 16) (p + 16) (if s - 8 < bytes then s - 8 else bytes)) (fun _ υ =>
      wp D (mspaceFree m (p + 16)) Q υ) τ := by
  have hperm := List.perm_cons_erase hp
  generalize h.live.erase (p, s) = L at hperm
  have hv : (v, s') ∈ h₁.live := hl₁.mem_iff.mpr List.mem_cons_self
  have hp₁ : (p, s) ∈ h₁.live := hl₁.mem_iff.mpr (List.mem_cons_of_mem _ hp)
  have hvb := O₁.core.chunk_bounds (mem_live.mp hv)
  have hpb := O₁.core.chunk_bounds (mem_live.mp hp₁)
  simp only at hvb hpb
  have hcount : (if s - 8 < bytes then s - 8 else bytes) ≤ bytes ∧
      (if s - 8 < bytes then s - 8 else bytes) ≤ s - 8 ∧
      ∀ i, i < bytes → i + 8 < s → i < (if s - 8 < bytes then s - 8 else bytes) := by
    split <;> refine ⟨by omega, by omega, fun i h1 h2 => by omega⟩
  generalize (if s - 8 < bytes then s - 8 else bytes) = n at *
  obtain ⟨hn1, hn2, hn3⟩ := hcount
  rw [wp_memcpy (O₁.core.arena.covers (by omega) (by omega))
    (O₁.core.arena.covers (by omega) (by omega))]
  have hf₂ : Frame (fun b => v + 16 ≤ b ∧ b < v + 16 + n) τ (τ.copy (v + 16) (p + 16) n) :=
    (Frame.refl _ τ).copy (fun b h1 h2 => ⟨h1, h2⟩)
  have O₂ := O₁.payload_frame hf₂ (fun b hb =>
    Payload.live.mpr ⟨v, s', hv, hb.1, by omega⟩)
  have hq₂ : Frame (Quiet m hi fun _ => False) τ (τ.copy (v + 16) (p + 16) n) :=
    hf₂.mono (fun b hb => ⟨⟨by omega, by omega, id⟩, by omega⟩)
  have hword := quiet_trimWord hq₂
  refine O₂.wp_mspaceFree (fun hT => ?_) hp₁ ?_
  · obtain ⟨htop, k, hk, hE⟩ := hT
    exact (T ⟨htop, k, hk, hE.congr hword⟩).frame (own_of_quiet hq₂)
  intro υ h' O' hl' he' hf₃ hgran
  have hlive : h'.live.Perm ((v, s') :: L) := by
    have h1 : ((p, s) :: h'.live).Perm ((p, s) :: (v, s') :: L) :=
      hl'.symm.trans (hl₁.trans ((hperm.cons (v, s')).trans (List.Perm.swap _ _ _)))
    exact h1.cons_inv
  have hnew : ∀ b, v + 16 ≤ b → b < v + s' + 8 → ¬ Payload h.chunks b := by
    intro b h1 h2 hb
    obtain ⟨a, t, hm, h3, h4⟩ := Payload.live.mp hb
    rcases O₁.apart_of_perm hl₁ (a, t) hm with ha | ha
    · simp only at ha
      omega
    · simp only at ha
      omega
  refine hQ υ h' ⟨O', ⟨L, hperm, hlive⟩, hs', ?_, ?_, ?_⟩ ?_
  · refine ((hf₁.mono (own_left fun b hb => hb.1)).trans (hf₂.mono ?_)).trans
      (hf₃.mono (own_left fun b hb => hb.2))
    exact fun b hb => ⟨by omega, by omega, fun hk => hnew b (by omega) (by omega) hk.1⟩
  · intro i h1 h2
    have hi' := hn3 i h1 h2
    rw [hf₃.byte _ (fun hb => hb.2.2 (Payload.live.mpr
      ⟨v, s', hlive.mem_iff.mpr List.mem_cons_self, by omega, by omega⟩))]
    have hin : v + 16 ≤ v + 16 + i ∧ v + 16 + i < v + 16 + n := by omega
    simp only [Machine.copy, copyBytes, hin, and_self, if_true]
    rw [show p + 16 + (v + 16 + i - (v + 16)) = p + 16 + i by omega]
    exact hf₁.byte _ (fun hb => hb.2.2 (Payload.live.mpr ⟨p, s, hp, by omega, by omega⟩))
  · intro _
    rw [he', he₁]
  · rintro ⟨htop, k, hk, hE⟩
    have hT := T ⟨htop, k, hk, hE⟩
    exact hT.granular (own_of_quiet hq₂) (hgran ⟨htop, k, hk, hE.congr hword.symm⟩)

/-- `internal_realloc` of a live chunk returns null and changes nothing, or
resizes the chunk. -/
theorem Ok.wp_internalRealloc {Q : Nat → State → Prop} (O : Ok σ m lo hi h)
    (T : ReallocTrims σ m h p s bytes → TrimOk D σ m hi) (hp : (p, s) ∈ h.live)
    (h0 : ¬ ReallocTrims σ m h p s bytes → Q 0 σ)
    (hQ : ∀ v s' τ h', Resizes σ m lo hi h p s bytes τ h' v s' →
      (ReallocTrims σ m h p s bytes → Granular σ) → Q (v + 16) τ) :
    wp D (internalRealloc m (p + 16) bytes) Q σ := by
  have C := O.core
  have hpm := mem_live.mp hp
  obtain ⟨hp8, hs8, hs32, hplo, hphi⟩ := C.chunk_bounds hpm
  simp only at hp8 hs8 hs32 hplo hphi
  have hword := C.arena.word
  obtain ⟨l₁, l₂, hcs⟩ := List.append_of_mem hpm
  obtain ⟨pu, hfront, hc, hback⟩ := C.around_used hcs
  have hhead := hc.head
  simp only at hhead
  have hlive : h.live.Perm ((p, s) :: ({ h with chunks := l₁ ++ l₂ } : Heap).live) := by
    simp [Heap.live, hcs]
  -- the head of the next chunk, or of top, knows that this one is in use
  have hnext : ∃ t u, t % 8 = 0 ∧ σ.get 8 (p + s + 8) = some (headWord t true u) := by
    cases l₂ with
    | nil =>
      have htop := hback.2
      exact ⟨_, _, C.topAlign, by rw [← htop]; exact C.topHead⟩
    | cons c l₃ =>
      obtain ⟨hca, hcc, _⟩ := hback
      exact ⟨_, _, hcc.align, by rw [← hca]; exact hcc.head⟩
  obtain ⟨t, u, ht8, hthead⟩ := hnext
  have hok : okNext p (p + s) = true := by
    simp only [okNext, decide_eq_true_iff]
    omega
  unfold internalRealloc
  by_cases hbig : bytes ≥ maxRequest
  · rw [wp_if_pos hbig]
    exact h0 fun hT => Nat.not_lt_of_le hbig hT.1
  · rw [wp_if_neg hbig]
    have hmax := Nat.lt_of_not_ge hbig
    obtain ⟨hnb32, hnb8, hnbl, _⟩ := request2size_spec hmax
    simp only [wp_bind, mem2chunk, Nat.add_sub_cancel]
    rw [wp_chunksize hhead hs8, wp_okAddress C.arena.least (O.lo_le (by omega)), wp_check rfl,
      wp_cinuse hhead hs8, wp_check rfl, wp_check hok, wp_pinuse hthead ht8, wp_check rfl]
    refine O.wp_reallocInPlace hcs hnb32 hnb8 ?_ ?_ ?_ ?_
    · intro hlt hng
      have hgrow : ¬ GrowsTop h p s bytes := fun hg => hng ⟨hg.1, hg.2.2⟩
      rw [wp_if_neg (by simp)]
      simp only [wp_bind]
      -- what the inner allocation returns, the condition can be read off
      have hmoves : ReallocTrims σ m h p s bytes → MoveTrims σ m p s bytes := by
        rintro ⟨_, _, hcut | hmove⟩
        · omega
        · exact hmove.2
      refine wp_of_run (wp_mspaceMalloc O (fun _ hrun => ?_) (fun _ => ?_))
      · rw [wp_if_neg (by simp)]
        refine h0 fun hT => ?_
        obtain ⟨v, _, _, _, _, hv, hv0, _⟩ := hmoves hT
        rw [hrun] at hv
        cases hv
        exact hv0 rfl
      · intro v τ h₁ s' O₁ hl₁ hs' he₁ hf₁ hrun
        rw [wp_if_pos (by omega)]
        simp only [wp_bind]
        have hpm₁ : (⟨p, s, true⟩ : Chunk) ∈ h₁.chunks :=
          mem_live.mp (hl₁.mem_iff.mpr (List.mem_cons_of_mem _ hp))
        refine O₁.core.wp_overheadFor hpm₁ ?_
        rw [subSize_le (by omega) (by omega)]
        have hmoved : FreeTrims τ m h₁ p s → ReallocTrims σ m h p s bytes := by
          intro hT
          have hkeep : ∀ e ∈ h.live, e ∈ h₁.live := fun e he =>
            hl₁.mem_iff.mpr (List.mem_cons_of_mem _ he)
          have htop := O.top_kept O₁ hkeep hp hT.1
          have hsmall : s + h.topsize ≤ request2size bytes :=
            Nat.le_of_not_lt fun hc => hng ⟨htop, hc⟩
          exact ⟨hmax, htop, Or.inr ⟨hsmall, _, τ, lo, hi, h₁, hrun, by omega, O₁, hT⟩⟩
        refine O₁.wp_move (fun hT => ?_) hp hl₁ hs' he₁ (own_of_quiet hf₁) ?_
        · exact (T (hmoved hT)).frame (own_of_quiet hf₁)
        intro υ h' R hgran
        rw [wp_pure]
        refine hQ v s' υ h' R fun hT => ?_
        obtain ⟨_, _, _, _, _, hrun', _, O', hF⟩ := hmoves hT
        rw [hrun] at hrun'
        cases hrun'
        exact (T hT).granular (own_of_quiet hf₁) (hgran (hF.same O₁ O'))
    · intro hge hlt
      rw [wp_if_pos (by omega), wp_if_neg (by simp), wp_pure]
      refine hQ p s σ h (O.resize_same hp (by omega)) ?_
      have hpos := C.topFits.1
      rintro ⟨_, _, hcut | hmove⟩
      · omega
      · omega
    · intro τ rs hsum hrs O₁ hf₁
      rw [wp_if_pos (by omega), wp_if_pos (by omega)]
      simp only [wp_bind]
      have hl₁ : ({ h with chunks := l₁ ++ ⟨p, request2size bytes, true⟩ ::
          ⟨p + request2size bytes, rs, true⟩ :: l₂ } : Heap).live.Perm
          ((p + request2size bytes, rs) :: (p, request2size bytes) ::
            ({ h with chunks := l₁ ++ l₂ } : Heap).live) := by
        simp only [Heap.live, List.filter_append, List.map_append]
        refine List.perm_middle.trans ?_
        refine ((List.perm_middle).cons _).trans ?_
        exact List.Perm.swap _ _ _
      refine O₁.wp_mspaceFree (fun hT => ?_) (hl₁.mem_iff.mpr List.mem_cons_self) ?_
      · -- nothing is free between the two parts
        obtain ⟨htop, k, hk, hE⟩ := hT
        simp only at htop
        have hk0 : k = 0 := by
          rcases hk with hk | ⟨b, hbk, hb⟩
          · exact hk
          · have hm : (⟨p, request2size bytes, true⟩ : Chunk) ∈ l₁ ++ ⟨p, request2size bytes, true⟩ ::
                ⟨p + request2size bytes, rs, true⟩ :: l₂ := by simp
            have hbl := (O₁.core.chunk_bounds hb).2.2.1
            have hap := O₁.core.tiled.apart hb hm
            simp only at hbl
            rcases hap with he | hap | hap
            · simp at he
            · simp only at hap
              omega
            · simp only at hap
              omega
        subst hk0
        refine (T ⟨hmax, by omega, Or.inl ⟨by omega, ?_⟩⟩).frame (own_of_quiet hf₁)
        exact (hE.congr (quiet_trimWord hf₁)).mono (by simp only; omega)
      intro υ h' O' hl' he' hf' hgran
      rw [wp_pure]
      have hl : h'.live.Perm ((p, request2size bytes) ::
          ({ h with chunks := l₁ ++ l₂ } : Heap).live) := (hl'.symm.trans hl₁).cons_inv
      have hf : Frame (Own m hi (Kept h h')) σ υ := by
        refine ((own_of_quiet hf₁).mono (own_left fun b hb => ?_)).trans (hf'.mono (own_left fun b hb => hb.2))
        exact payload_mono (fun e he => hl'.mem_iff.mpr (List.mem_cons_of_mem _ he)) hb.2
      refine hQ p (request2size bytes) υ h' ⟨O', ⟨_, hlive, hl⟩, hnbl, hf,
        data_in_place hp (hl.mem_iff.mpr List.mem_cons_self) hnbl hf, fun _ => ?_⟩ ?_
      · have he := O.exts_lt
        rw [he']
        simp only [subSize, addSize]
        omega
      · intro hT
        have hE : Exceeds τ m (h.topsize + rs + 0) := by
          obtain ⟨_, _, hcut | hmove⟩ := hT
          · exact (hcut.2.congr (quiet_trimWord hf₁).symm).mono (by omega)
          · omega
        have hnext : h.top = p + request2size bytes + rs := by
          have htop := hT.2.1
          omega
        exact (T hT).granular (own_of_quiet hf₁) (hgran ⟨hnext, 0, Or.inl rfl, hE⟩)
    · intro τ ts htop hlt hsum hts hl₂ O₁ hf₁
      subst hl₂
      rw [wp_if_pos (by omega), wp_if_neg (by simp), wp_pure]
      have hl : ({ h with
          chunks := l₁ ++ [⟨p, request2size bytes, true⟩]
          top := p + request2size bytes
          topsize := ts } : Heap).live.Perm ((p, request2size bytes) ::
            ({ h with chunks := l₁ ++ [] } : Heap).live) := by
        simp [Heap.live]
      have hf := (own_of_quiet hf₁).mono (own_left fun b (hb : Kept h { h with
        chunks := l₁ ++ [⟨p, request2size bytes, true⟩]
        top := p + request2size bytes
        topsize := ts } b) => hb.1)
      refine hQ p (request2size bytes) τ _ ⟨O₁, ⟨_, hlive, hl⟩, hnbl, hf,
        data_in_place hp (hl.mem_iff.mpr List.mem_cons_self) hnbl hf, fun hng => ?_⟩ ?_
      · exact absurd ⟨htop, hlt, by omega⟩ hng
      · rintro ⟨_, _, hcut | hmove⟩
        · omega
        · omega

end

end Mmdata.Proofs
