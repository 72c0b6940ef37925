import Mmdata.Proofs.MallocSpec
import Mmdata.Proofs.Trim

namespace Mmdata.Proofs
open Lib Malloc

/-- The heap `h` has lost none of its chunks in use but those that were not in
`l`, and is `h'` now. -/
structure Settles (σ : State) (m lo hi : Nat) (h : Heap) (l : List Chunk) (τ : State) (h' : Heap) :
    Prop where
  ok : Ok τ m lo hi h'
  live : h'.live = ({ h with chunks := l } : Heap).live
  exts : h'.exts = h.exts
  frame : Frame (Own m hi (Payload h'.chunks)) σ τ

/-- Free bytes just before `p`. -/
def FreeBefore (h : Heap) (p k : Nat) : Prop :=
  k = 0 ∨ ∃ b, b + k = p ∧ ⟨b, k, false⟩ ∈ h.chunks

/-- Taking back the chunk `p` of size `s` makes top exceed the trim threshold. -/
def FreeTrims (σ : State) (m : Nat) (h : Heap) (p s : Nat) : Prop :=
  h.top = p + s ∧ ∃ k, FreeBefore h p k ∧ Exceeds σ m (h.topsize + s + k)

section

variable {D : Trap → Prop} {σ τ υ : State} {m lo hi p s b k n ns ps : Nat} {h h' h₁ : Heap}
  {pu : Bool} {c : Chunk} {F F' : Nat → Nat → Prop} {l l₁ l₂ l₃ : List Chunk}

/-- The memory says which heap it holds. -/
theorem FreeTrims.same {lo' hi' : Nat} (T : FreeTrims σ m h' p s) (O : Ok σ m lo hi h)
    (O' : Ok σ m lo' hi' h') : FreeTrims σ m h p s := by
  have S := O.core.scalars
  have S' := O'.core.scalars
  have htop : h'.top = h.top := Option.some.inj (S'.topPtr.symm.trans S.topPtr)
  have hsize : h'.topsize = h.topsize := Option.some.inj (S'.topWord.symm.trans S.topWord)
  have htiled := O'.core.tiled
  rw [htop] at htiled
  have hchunks : h'.chunks = h.chunks := htiled.unique O.core.tiled
  obtain ⟨hp, k, hk, hE⟩ := T
  refine ⟨htop ▸ hp, k, ?_, hsize ▸ hE⟩
  rw [FreeBefore, hchunks] at hk
  exact hk

theorem live_congr (hcs : h.chunks = h'.chunks) : h.live = h'.live := by
  rw [Heap.live, Heap.live, hcs]

theorem live_skip_free (h : Heap) : ({ h with chunks := l₁ ++ ⟨p, ps, false⟩ :: l₂ } : Heap).live =
    ({ h with chunks := l₁ ++ l₂ } : Heap).live := by
  simp [Heap.live]

/-- A loose chunk goes to its bin. Every so many large chunks, the one segment
is looked at. -/
theorem Loose.wp_freeBinned {Q : Unit → State → Prop} (L : Loose σ m lo hi h p ps)
    (hQ : ∀ τ h', Ok τ m lo hi h' → h'.chunks = h.chunks → h'.exts = h.exts →
      Frame (Own m hi (Payload h.chunks)) σ τ → Q () τ) :
    wp D (freeBinned m p ps) Q σ := by
  unfold freeBinned
  by_cases hs : isSmall ps = true
  · rw [wp_if_pos hs]
    refine L.wp_insertSmallChunk ((isSmall_iff ps).mp hs) ?_
    intro τ B hO hf
    exact hQ τ _ hO rfl rfl (own_of_quiet hf)
  · rw [wp_if_neg hs]
    have h256 : 256 ≤ ps := by
      rw [isSmall_iff] at hs
      omega
    simp only [wp_bind]
    refine L.wp_insertLargeChunk h256 ?_
    intro τ B hO hf
    obtain ⟨v, hv⟩ := hO.core.scalars.checkWord
    have hhigh := hO.core.arena.high
    simp only [releaseChecks]
    rw [wp_update hv]
    have hv64 : subSize v 1 < 2 ^ 64 := by
      simp only [subSize]
      omega
    generalize subSize v 1 = w at *
    have hO' : Ok (τ.put 8 (m + 56) w) m lo hi { h with bins := B } :=
      ⟨hO.core.setChecks inBins_free hv64 (Or.inr rfl), hO.dvOk⟩
    have hf' : Frame (Own m hi (Payload h.chunks)) σ (τ.put 8 (m + 56) w) :=
      (own_of_quiet hf).put (fun b h1 h2 => hO.core.scalar_own (by omega) (by omega))
    rw [wp_load (Machine.get_put_same (hO.core.arena.covers (by omega) (by omega)) (by omega))]
    by_cases hz : w = 0
    · rw [wp_if_pos hz]
      simp only [wp_bind]
      refine wp_releaseUnusedSegments hO' ?_
      intro υ hO'' hf''
      exact hQ υ _ hO'' rfl rfl (hf'.trans hf'')
    · rw [wp_if_neg hz]
      exact hQ _ _ hO' rfl rfl hf'

/-- A region followed by a chunk in use becomes a free chunk. -/
theorem Region.wp_setFreeWithPinuse {Q : Unit → State → Prop}
    (R : Region σ m lo hi h l₁ p ps true (c :: l₃)) (hu : c.used = true)
    (hQ : ∀ τ, Core τ m lo hi { h with chunks := l₁ ++ ⟨p, ps, false⟩ :: c :: l₃ }
        (Outside (l₁ ++ c :: l₃) h.dv) →
      Frame (Quiet m hi (Payload (l₁ ++ ⟨p, ps, false⟩ :: c :: l₃))) σ τ → Q () τ) :
    wp D (setFreeWithPinuse p ps (p + ps)) Q σ := by
  obtain ⟨hp8, hplo, _⟩ := R.bounds
  obtain ⟨hca, hcc, hct⟩ := R.back
  have A := R.core.arena
  have hlarge := R.large
  have hcl := hcc.large
  have hc8 := hcc.align
  have hctop := hct.le
  have hword := A.word
  have hhead := hcc.head
  rw [hca, hu] at hhead
  obtain ⟨_, hfits⟩ := R.core.topFits
  unfold setFreeWithPinuse
  simp only [wp_bind, clearPinuse, head]
  rw [wp_update hhead, clearBits_pinuse hc8]
  refine A.wp_freeHead rfl R.align (by omega) (by omega) ?_
  suffices hm : _ ∧ _ from hQ _ hm.1 hm.2
  refine R.merge hu ?_ ?_ ?_ ?_
  · refine (((Frame.refl _ σ).put ?_).put ?_).put ?_
    · exact fun b h1 h2 => ⟨p + ps + 8, by simp, h1, h2⟩
    · exact fun b h1 h2 => ⟨p + 8, by simp, h1, h2⟩
    · exact fun b h1 h2 => ⟨p + ps, by simp, h1, h2⟩
  · rw [Machine.get_put_ne (by omega)]
    exact Machine.get_put_same (A.covers (by omega) (by omega)) (headWord_lt (by omega))
  · exact Machine.get_put_same (A.covers (by omega) (by omega)) (by omega)
  · rw [Machine.get_put_ne (by omega), Machine.get_put_ne (by omega)]
    exact Machine.get_put_same (A.covers (by omega) (by omega)) (headWord_lt (by omega))

/-- A region that ends where a free chunk ended becomes a free chunk. -/
theorem Region.wp_setSizeAndPinuse {Q : Unit → State → Prop}
    (R : Region σ m lo hi h l₁ p ps false l₂)
    (hQ : ∀ τ, Core τ m lo hi { h with chunks := l₁ ++ ⟨p, ps, false⟩ :: l₂ }
        (Outside (l₁ ++ l₂) h.dv) →
      Frame (Quiet m hi (Payload (l₁ ++ ⟨p, ps, false⟩ :: l₂))) σ τ → Q () τ) :
    wp D (setSizeAndPinuseOfFreeChunk p ps) Q σ := by
  obtain ⟨hp8, hplo, _⟩ := R.bounds
  have hb := R.back
  cases l₂ with
  | nil =>
    have hpu := hb.1
    contradiction
  | cons c l₃ =>
    have hu := hb.head_used
    obtain ⟨hca, hcc, hct⟩ := hb
    have A := R.core.arena
    have hlarge := R.large
    have hcl := hcc.large
    have hctop := hct.le
    have hword := A.word
    have hhead := hcc.head
    rw [hca, hu] at hhead
    obtain ⟨_, hfits⟩ := R.core.topFits
    refine A.wp_freeHead rfl R.align (by omega) (by omega) ?_
    suffices hm : _ ∧ _ from hQ _ hm.1 hm.2
    refine R.merge hu ?_ ?_ ?_ ?_
    · refine ((Frame.refl _ σ).put ?_).put ?_
      · exact fun b h1 h2 => ⟨p + 8, by simp, h1, h2⟩
      · exact fun b h1 h2 => ⟨p + ps, by simp, h1, h2⟩
    · rw [Machine.get_put_ne (by omega)]
      exact Machine.get_put_same (A.covers (by omega) (by omega)) (headWord_lt (by omega))
    · exact Machine.get_put_same (A.covers (by omega) (by omega)) (by omega)
    · rw [Machine.get_put_ne (by omega), Machine.get_put_ne (by omega)]
      exact hhead

/-- A region at the end of the chunks becomes part of top. -/
theorem Region.wp_freeIntoTop {Q : Unit → State → Prop}
    (R : Region σ m lo hi h l₁ p ps true [])
    (T : Exceeds σ m (h.topsize + ps) → TrimOk D σ m hi)
    (hdv : h.dv = 0 ∧ h.dvsize = 0 ∨ h.dv = p ∨ ⟨h.dv, h.dvsize, false⟩ ∈ l₁)
    (hQ : ∀ τ h', Settles σ m lo hi h l₁ τ h' →
      (Exceeds σ m (h.topsize + ps) → Granular σ) → Q () τ) :
    wp D (freeIntoTop m p ps) Q σ := by
  obtain ⟨hp8, hplo, _⟩ := R.bounds
  have C := R.core
  have A := C.arena
  have hlarge := R.large
  have hps8 := R.align
  have hword := A.word
  have hhigh := A.high
  have hal := A.align
  obtain ⟨_, htop⟩ := R.back
  have hts8 := C.topAlign
  obtain ⟨hpos, hfits⟩ := C.topFits
  have hsum : addSize h.topsize ps = h.topsize + ps := by
    simp only [addSize]
    omega
  unfold freeIntoTop
  simp only [wp_bind, topsize, top, head, dv, dvsize]
  rw [wp_update C.scalars.topWord, hsum,
    wp_load (Machine.get_put_same (A.covers (by omega) (by omega)) (by omega))]
  refine A.wp_storePtr rfl (by omega) (by omega) ?_
  refine A.wp_store rfl (by omega) (by omega) ?_
  have ht8 : (h.topsize + ps) % 8 = 0 := by omega
  rw [or_pinuse ht8]
  -- the words that make the region part of top
  have hf : Frame (Words [m + 16, m + 40, p + 8]) σ (((σ.put 8 (m + 16) (h.topsize + ps)).putPtr
      (m + 40) p).put 8 (p + 8) (headWord (h.topsize + ps) true false)) := by
    refine (((Frame.refl _ σ).put ?_).putPtr ?_).put ?_
    · exact fun b h1 h2 => ⟨m + 16, by simp, h1, h2⟩
    · exact fun b h1 h2 => ⟨m + 40, by simp, h1, h2⟩
    · exact fun b h1 h2 => ⟨p + 8, by simp, h1, h2⟩
  have h1 : (((σ.put 8 (m + 16) (h.topsize + ps)).putPtr (m + 40) p).put 8 (p + 8)
      (headWord (h.topsize + ps) true false)).getPtr (m + 40) = some p := by
    rw [Machine.getPtr_put_ne (by omega)]
    exact A.getPtr_self (by rfl) (by omega) (by omega) (by omega) (by omega) hp8
  have h2 : (((σ.put 8 (m + 16) (h.topsize + ps)).putPtr (m + 40) p).put 8 (p + 8)
      (headWord (h.topsize + ps) true false)).get 8 (m + 16) = some (h.topsize + ps) := by
    rw [Machine.get_put_ne (by omega), Machine.get_putPtr_ne (by omega)]
    exact Machine.get_put_same (A.covers (by omega) (by omega)) (by omega)
  have h3 : (((σ.put 8 (m + 16) (h.topsize + ps)).putPtr (m + 40) p).put 8 (p + 8)
      (headWord (h.topsize + ps) true false)).get 8 (p + 8) =
        some (headWord (h.topsize + ps) true false) :=
    Machine.get_put_same (A.covers (by omega) (by omega)) (headWord_lt (by omega))
  generalize (((σ.put 8 (m + 16) (h.topsize + ps)).putPtr (m + 40) p).put 8 (p + 8)
      (headWord (h.topsize + ps) true false)) = τ at *
  have hW : ∀ b, Words [m + 16, m + 40, p + 8] b → (m + 16 ≤ b ∧ b < m + 24) ∨
      (m + 40 ≤ b ∧ b < m + 48) ∨ (p + 8 ≤ b ∧ b < p + 16) := by
    rintro b ⟨f, hf, hb⟩
    simp only [List.mem_cons, List.not_mem_nil, or_false] at hf
    rcases hf with rfl | rfl | rfl <;> omega
  have htile : Tiled τ true (m + 920) l₁ true p := by
    refine R.front.frame_outside hf (fun b h4 h5 hb => ?_)
    have hw := hW b hb
    omega
  have hnz : ∀ b, p + 8 ≤ b → ¬ BinZone m (Outside (l₁ ++ []) h.dv) b := by
    rintro b hb (hz | hz | ⟨a, t, ⟨ha, _⟩, h4, h5⟩)
    · omega
    · omega
    · rw [List.append_nil] at ha
      have hm := (R.front.mem ha).2.1
      simp only at hm
      omega
  have C₁ : Core τ m lo hi { h with chunks := l₁, top := p, topsize := h.topsize + ps }
      (Outside (l₁ ++ []) h.dv) := by
    refine C.retop R.free hf ?_ h1 h2 htile h3 ht8 ⟨by omega, by omega⟩
    intro b hb
    rcases hW b hb with hw | hw | hw
    · exact Or.inl hw
    · exact Or.inr (Or.inl hw)
    · exact Or.inr (Or.inr ⟨by omega, by omega, hnz b hw.1⟩)
  have hfr : Frame (Own m hi (Payload l₁)) σ τ := by
    refine hf.mono (fun b hb => ?_)
    have hw := hW b hb
    refine ⟨by omega, by omega, fun hp => ?_⟩
    have hpb := R.front.payload_bounds hp
    omega
  have hwt : τ.get 8 (m + 48) = σ.get 8 (m + 48) := hf.get (fun b h4 h5 hb => by
    have hw := hW b hb
    omega)
  have hsub : ∀ a t, Outside (l₁ ++ []) h.dv a t → ⟨a, t, false⟩ ∈ l₁ := by
    rintro a t ⟨ha, _⟩
    rwa [List.append_nil] at ha
  -- the end of the run, once `dv` no longer is the region
  have hend : ∀ τ h', Ok τ m lo hi h' → h'.chunks = l₁ → h'.topsize = h.topsize + ps →
      h'.exts = h.exts → τ.get 8 (m + 48) = σ.get 8 (m + 48) → Frame (Own m hi (Payload l₁)) σ τ →
      wp D (load 8 (trimCheck m)) (fun tc τ => wp D (if h.topsize + ps > tc then do
          let _ ← sysTrim m 0
          pure ()
        else pure ()) Q τ) τ := by
    intro τ h' O hcs hts he hw hf
    obtain ⟨tc, htc⟩ := O.core.scalars.trimWord
    simp only [trimCheck]
    rw [wp_load htc]
    have hs : ∀ υ, Ok υ m lo hi h' → Frame (Own m hi (Payload l₁)) τ υ →
        (Exceeds σ m (h.topsize + ps) → Granular σ) → Q () υ := by
      intro υ O' hf' hgran
      refine hQ υ h' ⟨O', live_congr hcs, he, ?_⟩ hgran
      rw [hcs]
      exact hf.trans hf'
    by_cases hc : h.topsize + ps > tc
    · rw [wp_if_pos hc, wp_bind]
      have hfoot : addSize 0 topFootSize = topFootSize := rfl
      refine wp_sysTrim O (fun hlt => ?_) ?_
      · rw [hfoot, hts] at hlt
        exact (T ⟨hlt, tc, hw.symm.trans htc, hc⟩).frame hf
      · intro r υ O' hf' hgran
        rw [hcs] at hf'
        refine hs υ O' hf' fun hE => (T hE).granular hf (hgran (by decide) ?_)
        rw [hfoot, hts]
        exact hE.1
    · rw [wp_if_neg hc]
      refine hs τ O (Frame.refl _ τ) fun hE => ?_
      obtain ⟨_, tc', htc', hlt⟩ := hE
      have htceq := Option.some.inj ((hw.symm.trans htc).symm.trans htc')
      omega
  rw [wp_loadPtr C₁.scalars.dvPtr]
  by_cases hpd : p = h.dv
  · rw [wp_if_pos hpd]
    simp only [wp_bind]
    refine C₁.arena.wp_storePtr rfl (by omega) (by omega) ?_
    refine C₁.arena.wp_store rfl (by omega) (by omega) ?_
    have C₂ := (C₁.setDv hsub (Or.inl rfl) (by omega)).setDvsize hsub (show 0 < 2 ^ 64 by omega)
    refine hend _ _ ⟨C₂.congr (fun a t => ?_), Or.inl ⟨rfl, rfl⟩⟩ rfl rfl rfl
      (by rw [Machine.get_put_ne (by omega), Machine.get_putPtr_ne (by omega), hwt]) ?_
    · simp only [Outside, Heap.inBins, List.append_nil]
      constructor
      · rintro ⟨ha, _⟩
        have hm := (R.front.mem ha).1
        simp only at hm
        exact ⟨ha, by omega⟩
      · rintro ⟨ha, _⟩
        have hm := (R.front.mem ha).2
        obtain ⟨hm, _, hcc⟩ := hm
        have hl := hcc.large
        simp only at hm hl
        exact ⟨ha, by omega⟩
    · refine (hfr.putPtr (fun b h4 h5 => ?_)).put (fun b h4 h5 => ?_)
      · exact C₁.scalar_own (by omega) (by omega)
      · exact C₁.scalar_own (by omega) (by omega)
  · rw [wp_if_neg hpd]
    simp only [wp_bind]
    refine hend τ _ ⟨C₁.congr (fun a t => ?_), ?_⟩ rfl rfl rfl hwt hfr
    · simp only [Outside, Heap.inBins, List.append_nil]
    · rcases hdv with hd | hd | hd
      · exact Or.inl hd
      · exact absurd hd.symm hpd
      · exact Or.inr hd

/-- Chunks outside a region do not meet it. -/
theorem Region.apart (R : Region σ m lo hi h l₁ p ps pu l₂) {d : Chunk} (hd : d ∈ l₁ ++ l₂) :
    d.addr ≠ p ∧ 32 ≤ d.size ∧ (d.addr + d.size ≤ p ∨ p + ps ≤ d.addr) := by
  have hlarge := R.large
  rcases List.mem_append.mp hd with hd | hd
  · obtain ⟨_, h2, _, hc⟩ := R.front.mem hd
    have hl := hc.large
    exact ⟨by omega, hl, Or.inl h2⟩
  · obtain ⟨h1, _, _, hc⟩ := R.back.mem hd
    exact ⟨by omega, hc.large, Or.inr h1⟩

/-- Where the designated victim may be while a region is to be freed. -/
def DvNear (h : Heap) (p : Nat) (l : List Chunk) : Prop :=
  h.dv = 0 ∧ h.dvsize = 0 ∨ h.dv = p ∨ ⟨h.dv, h.dvsize, false⟩ ∈ l

theorem DvNear.away (hd : DvNear h p l) (hne : p ≠ h.dv) :
    h.dv = 0 ∧ h.dvsize = 0 ∨ ⟨h.dv, h.dvsize, false⟩ ∈ l := by
  rcases hd with hd | hd | hd
  · exact Or.inl hd
  · exact absurd hd.symm hne
  · exact Or.inr hd

/-- A free chunk made of the region goes to its bin. -/
theorem Core.wp_freeBinned {Q : Unit → State → Prop} {B : Bins}
    (C : Core τ m lo hi { h with bins := B, chunks := l₁ ++ ⟨p, ps, false⟩ :: l₂ }
      (Outside (l₁ ++ l₂) h.dv)) (hne : p ≠ h.dv)
    (hdv : h.dv = 0 ∧ h.dvsize = 0 ∨ ⟨h.dv, h.dvsize, false⟩ ∈ l₁ ++ l₂)
    (hf : Frame (Own m hi (Payload (l₁ ++ ⟨p, ps, false⟩ :: l₂))) σ τ)
    (hQ : ∀ υ h', Settles σ m lo hi h (l₁ ++ l₂) υ h' → Q () υ) :
    wp D (freeBinned m p ps) Q τ := by
  refine (C.toLoose (h := { h with bins := B }) hne hdv).wp_freeBinned ?_
  intro υ h' hO hcs he hf'
  refine hQ υ h' ⟨hO, ?_, he, ?_⟩
  · rw [live_congr hcs]
    exact live_skip_free h
  · rw [hcs]
    exact hf.trans hf'

/-- A free chunk made of the region is the designated victim. -/
theorem Core.settleDv {h₁ : Heap} (C : Core τ m lo hi h₁ (Outside (l₁ ++ l₂) h₁.dv))
    (hcs : h₁.chunks = l₁ ++ ⟨h₁.dv, h₁.dvsize, false⟩ :: l₂) (he : h₁.exts = h.exts)
    (hf : Frame (Own m hi (Payload h₁.chunks)) σ τ) :
    Settles σ m lo hi h (l₁ ++ l₂) τ h₁ := by
  refine ⟨C.toDv hcs, ?_, he, hf⟩
  exact (live_congr hcs).trans (live_skip_free h)

theorem outside_cons (R : Region σ m lo hi h l₁ p ps pu (⟨n, ns, false⟩ :: l₂)) (a t : Nat) :
    Outside (l₁ ++ l₂) h.dv a t ↔
      Outside (l₁ ++ ⟨n, ns, false⟩ :: l₂) h.dv a t ∧ ¬ (a = n ∧ t = ns) := by
  obtain ⟨hna, hn, hrest⟩ := R.back
  have hns := hn.large
  simp only at hna hns
  constructor
  · rintro ⟨h1, h2⟩
    refine ⟨⟨?_, h2⟩, ?_⟩
    · simp only [List.mem_append, List.mem_cons] at h1 ⊢
      rcases h1 with h1 | h1
      · exact Or.inl h1
      · exact Or.inr (Or.inr h1)
    · rintro ⟨rfl, rfl⟩
      rcases List.mem_append.mp h1 with h1 | h1
      · have hm := (R.front.mem h1).2.1
        simp only at hm
        omega
      · have hm := (hrest.mem h1).1
        simp only at hm
        omega
  · rintro ⟨⟨h1, h2⟩, h3⟩
    refine ⟨?_, h2⟩
    simp only [List.mem_append, List.mem_cons, Chunk.mk.injEq, and_true] at h1 ⊢
    rcases h1 with h1 | h1 | h1
    · exact Or.inl h1
    · exact absurd h1 h3
    · exact Or.inr h1

/-- Forward consolidation: the region becomes free, alone or with what is behind it. -/
theorem Region.wp_freeForward {Q : Unit → State → Prop}
    (R : Region σ m lo hi h l₁ p ps true l₂)
    (T : l₂ = [] → Exceeds σ m (h.topsize + ps) → TrimOk D σ m hi) (hdv : DvNear h p (l₁ ++ l₂))
    (hnx : h.dv = p → ∀ c l₃, l₂ = c :: l₃ → c.used = false)
    (hQ : ∀ τ h', Settles σ m lo hi h (l₁ ++ l₂) τ h' →
      (l₂ = [] → Exceeds σ m (h.topsize + ps) → Granular σ) → Q () τ) :
    wp D (freeForward m p ps (p + ps)) Q σ := by
  obtain ⟨hp8, hplo, hptop⟩ := R.bounds
  have C := R.core
  have A := C.arena
  have hlarge := R.large
  have hword := A.word
  have hhigh := A.high
  have hal := A.align
  obtain ⟨hpos, hfits⟩ := C.topFits
  have hok : okNext p (p + ps) = true := by
    simp only [okNext, decide_eq_true_iff]
    omega
  unfold freeForward
  simp only [wp_bind]
  rw [wp_check hok]
  rcases R.next with ⟨c, l₃, rfl, hca, hc8, hhead⟩ | ⟨rfl, htop, _, hhead⟩
  · replace hQ : ∀ τ h', Settles σ m lo hi h (l₁ ++ c :: l₃) τ h' → Q () τ :=
      fun τ h' hs => hQ τ h' hs fun hn => by contradiction
    rw [wp_pinuse hhead hc8, wp_check rfl, wp_cinuse hhead hc8]
    by_cases hu : c.used = true
    · -- behind is a chunk in use
      rw [wp_if_pos hu]
      have hne : p ≠ h.dv := by
        intro he
        have hf := hnx he.symm c l₃ rfl
        rw [hu] at hf
        contradiction
      simp only [wp_bind]
      refine R.wp_setFreeWithPinuse hu ?_
      intro τ C' hf
      exact C'.wp_freeBinned hne (hdv.away hne) (own_of_quiet hf) hQ
    · rw [wp_if_neg hu]
      rw [Bool.not_eq_true] at hu
      obtain ⟨n, ns, u⟩ := c
      simp only at hu hca hc8 hhead
      subst hu hca
      obtain ⟨_, hn, hrest⟩ := R.back
      have hns := hn.large
      have hntop := hrest.le
      simp only at hns hntop
      have hnm : (⟨p + ps, ns, false⟩ : Chunk) ∈ h.chunks := R.sub _ (by simp)
      simp only [wp_bind, top, dv, dvsize]
      rw [wp_loadPtr C.scalars.topPtr, wp_if_neg (by omega)]
      simp only [wp_bind]
      rw [wp_loadPtr C.scalars.dvPtr]
      by_cases hnd : p + ps = h.dv
      · -- behind is the designated victim
        rw [wp_if_pos hnd]
        have hds : h.dvsize = ns := by
          rcases hdv with ⟨hd, _⟩ | hd | hd
          · omega
          · omega
          · have hm := R.sub _ hd
            rw [← hnd] at hm
            exact (C.free_unique hm hnm).1
        have hsum : addSize h.dvsize ps = ps + ns := by
          simp only [addSize]
          omega
        have R₁ : Region σ m lo hi h l₁ p (ps + ns) false l₃ := R.join (B := h.bins) (C.congr
          (fun a t => by
          rw [outside_cons R]
          constructor
          · intro ha
            exact ⟨ha, fun hc => ha.2 (hc.1.trans hnd)⟩
          · exact fun ha => ha.1)) (Frame.refl _ σ)
        simp only [wp_bind]
        rw [wp_update C.scalars.dvWord, hsum,
          wp_load (Machine.get_put_same (A.covers (by omega) (by omega)) (by omega))]
        refine A.wp_storePtr rfl (by omega) (by omega) ?_
        have hs64 : ps + ns < 2 ^ 64 := by omega
        have C₂ := (R₁.core.setDvsize R₁.free hs64).setDv R₁.free (d := p)
          (Or.inr ⟨by omega, by omega⟩) hp8
        have R₂ : Region ((σ.put 8 (m + 8) (ps + ns)).putPtr (m + 32) p) m lo hi
            { h with dv := p, dvsize := ps + ns } l₁ p (ps + ns) false l₃ := by
          refine R₁.rescalar (W := fun b => b < m + 928) (((Frame.refl _ σ).put ?_).putPtr ?_)
            (fun b hb => hb) (C₂.congr (fun a t => ?_)) rfl rfl
          · exact fun b h1 h2 => by omega
          · exact fun b h1 h2 => by omega
          · simp only [Outside]
            constructor
            · rintro ⟨h1, _⟩
              exact ⟨h1, (R₁.apart h1).1⟩
            · rintro ⟨h1, _⟩
              have hap := R₁.apart h1
              simp only at hap
              exact ⟨h1, by omega⟩
        refine R₂.wp_setSizeAndPinuse ?_
        intro τ C₃ hf
        have hf₂ : Frame (Own m hi (Payload (l₁ ++ ⟨p, ps + ns, false⟩ :: l₃))) σ
            ((σ.put 8 (m + 8) (ps + ns)).putPtr (m + 32) p) := by
          refine ((Frame.refl _ σ).put (fun b h1 h2 => ?_)).putPtr (fun b h1 h2 => ?_)
          · exact C₃.scalar_own (by omega) (by omega)
          · exact C₃.scalar_own (by omega) (by omega)
        have hset := C₃.settleDv (h := h) (σ := σ) rfl rfl (hf₂.trans (own_of_quiet hf))
        have hlive : ({ h with chunks := l₁ ++ ⟨p + ps, ns, false⟩ :: l₃ } : Heap).live =
            ({ h with chunks := l₁ ++ l₃ } : Heap).live := live_skip_free h
        exact hQ τ _ ⟨hset.ok, hset.live.trans hlive.symm, rfl, hset.frame⟩
      · -- behind is a chunk in a bin
        rw [wp_if_neg hnd]
        have hsum : addSize ps ns = ps + ns := by
          simp only [addSize]
          omega
        simp only [wp_bind]
        rw [wp_chunksize hhead hc8, hsum]
        refine C.wp_unlinkChunk R.free ⟨by simp, hnd⟩ (outside_cons R) ?_
        intro τ B C₁ hf₁
        have R₁ := R.join C₁ hf₁
        have hfr : Frame (Own m hi (Payload h.chunks)) σ τ :=
          own_of_quiet (hf₁.mono (C.binZone_quiet R.free))
        have hlive : ({ h with chunks := l₁ ++ ⟨p + ps, ns, false⟩ :: l₃ } : Heap).live =
            ({ h with chunks := l₁ ++ l₃ } : Heap).live := live_skip_free h
        have hpay : ∀ b, Payload (l₁ ++ ⟨p, ps + ns, false⟩ :: l₃) b → Payload h.chunks b := by
          rintro b ⟨d, hd, hdu, hb⟩
          simp only [List.mem_append, List.mem_cons] at hd
          rcases hd with hd | rfl | hd
          · exact ⟨d, R.sub d (by simp [hd]), hdu, hb⟩
          · contradiction
          · exact ⟨d, R.sub d (by simp [hd]), hdu, hb⟩
        have hfr' : Frame (Own m hi (Payload (l₁ ++ ⟨p, ps + ns, false⟩ :: l₃))) σ τ :=
          hfr.mono (fun b hb => ⟨hb.1, hb.2.1, fun hp => hb.2.2 (hpay b hp)⟩)
        refine R₁.wp_setSizeAndPinuse ?_
        intro υ C₂ hf₂
        rw [wp_loadPtr C₂.scalars.dvPtr]
        by_cases hpd : p = h.dv
        · rw [wp_if_pos hpd]
          refine C₂.arena.wp_store rfl (by omega) (by omega) ?_
          have hsub : ∀ a t, Outside (l₁ ++ l₃) h.dv a t →
              (⟨a, t, false⟩ : Chunk) ∈ l₁ ++ ⟨p, ps + ns, false⟩ :: l₃ := by
            rintro a t ⟨ha, _⟩
            simp only [List.mem_append, List.mem_cons] at ha ⊢
            rcases ha with ha | ha
            · exact Or.inl ha
            · exact Or.inr (Or.inr ha)
          have hs64 : ps + ns < 2 ^ 64 := by omega
          have C₃ := C₂.setDvsize hsub hs64
          have hset := C₃.settleDv (h := h) (σ := σ) (by simp only [← hpd]) rfl
            ((hfr'.trans (own_of_quiet hf₂)).put (fun b h1 h2 => C₃.scalar_own (by omega) (by omega)))
          exact hQ _ _ ⟨hset.ok, hset.live.trans hlive.symm, rfl, hset.frame⟩
        · rw [wp_if_neg hpd]
          have hdv' : h.dv = 0 ∧ h.dvsize = 0 ∨ (⟨h.dv, h.dvsize, false⟩ : Chunk) ∈ l₁ ++ l₃ := by
            rcases hdv.away hpd with hd | hd
            · exact Or.inl hd
            · refine Or.inr ?_
              simp only [List.mem_append, List.mem_cons, Chunk.mk.injEq, and_true] at hd ⊢
              rcases hd with hd | ⟨hd, _⟩ | hd
              · exact Or.inl hd
              · exact absurd hd.symm hnd
              · exact Or.inr hd
          refine C₂.wp_freeBinned (h := h) hpd hdv' (hfr'.trans (own_of_quiet hf₂)) ?_
          intro ω h' hs
          exact hQ ω h' ⟨hs.ok, hs.live.trans hlive.symm, hs.exts, hs.frame⟩
  · -- behind is top
    have hts8 := C.topAlign
    rw [wp_pinuse hhead hts8, wp_check rfl, wp_cinuse hhead hts8, wp_if_neg (by simp)]
    simp only [wp_bind, top]
    rw [wp_loadPtr C.scalars.topPtr, wp_if_pos htop.symm]
    rw [List.append_nil] at hdv hQ
    exact R.wp_freeIntoTop (T rfl) hdv fun τ h' hs hgran => hQ τ h' hs fun _ => hgran

/-- Before a chunk whose predecessor is free. -/
theorem tiled_prev_free {q : Nat} (ht : Tiled σ true q l₁ false p) :
    ∃ l₀ b k, l₁ = l₀ ++ [⟨b, k, false⟩] ∧ b + k = p ∧ σ.get 8 p = some k ∧ k % 8 = 0 := by
  rcases List.eq_nil_or_concat l₁ with rfl | ⟨l₀, c, rfl⟩
  · have hpu := ht.1
    contradiction
  · rw [List.concat_eq_append] at *
    obtain ⟨hcu, hpe, pv, hcc, _⟩ := ht.last
    obtain ⟨b, k, u⟩ := c
    simp only at hcu hpe
    subst hcu hpe
    exact ⟨l₀, b, k, rfl, rfl, (hcc.free rfl).2, hcc.align⟩

/-- The chunk that ends where the chunks end is the last. -/
theorem Tiled.last_eq {q : Nat} {pv : Bool} {c d : Chunk} (ht : Tiled σ true q (l₁ ++ [d]) pv p)
    (hc : c ∈ l₁ ++ [d]) (hp : c.addr + c.size = p) : c = d := by
  rcases List.mem_append.mp hc with hc | hc
  · obtain ⟨_, hend, _, hd, hfront⟩ := ht.last
    have hlarge := hd.large
    have hlast := (hfront.mem hc).2.1
    omega
  · exact List.mem_singleton.mp hc

/-- Around a chunk in use. -/
theorem Core.around_used (C : Core σ m lo hi h F) (hcs : h.chunks = l₁ ++ ⟨p, s, true⟩ :: l₂) :
    ∃ pv, Tiled σ true (m + 920) l₁ pv p ∧ ChunkAt σ pv ⟨p, s, true⟩ ∧
      Tiled σ true (p + s) l₂ true h.top := by
  have ht := C.tiled
  rw [hcs] at ht
  obtain ⟨pv, r, hfront, hpa, hc, hback⟩ := tiled_append.mp ht
  simp only at hpa hback
  subst hpa
  exact ⟨pv, hfront, hc, hback⟩

theorem live_skip_prev (h : Heap) :
    ({ h with chunks := (l₁ ++ [⟨b, k, false⟩]) ++ l₂ } : Heap).live =
      ({ h with chunks := l₁ ++ l₂ } : Heap).live := by
  simp [Heap.live]

/-- Free chunks next to a chunk in use. -/
theorem inBins_outside {h : Heap} (hcs : h.chunks = l₁ ++ ⟨p, s, true⟩ :: l₂) (a t : Nat) :
    h.inBins a t ↔ Outside (l₁ ++ l₂) h.dv a t := by
  simp [Heap.inBins, Outside, hcs]

/-- Backward consolidation: the region to be freed, unless the chunk goes into the
designated victim between two chunks in use. -/
theorem Ok.wp_freeBackward {Q : Option (Nat × Nat) → State → Prop} (O : Ok σ m lo hi h)
    (hcs : h.chunks = l₁ ++ ⟨p, s, true⟩ :: l₂)
    (hgo : ∀ τ B l p' ps, Region τ m lo hi { h with bins := B } l p' ps true l₂ →
      (∃ k, p' + k = p ∧ ps = s + k ∧ FreeBefore h p k ∧ ∀ k', FreeBefore h p k' → k' ≤ k) →
      DvNear h p' (l ++ l₂) →
      (h.dv = p' → ∀ c l₃, l₂ = c :: l₃ → c.used = false) →
      ({ h with chunks := l ++ l₂ } : Heap).live = ({ h with chunks := l₁ ++ l₂ } : Heap).live →
      Frame (Quiet m hi (Payload h.chunks)) σ τ → Q (some (p', ps)) τ)
    (hdone : ∀ τ h', Settles σ m lo hi h (l₁ ++ l₂) τ h' → h.top ≠ p + s → Q none τ) :
    wp D (freeBackward m p s (p + s)) Q σ := by
  have C := O.core
  have A := C.arena
  have hhigh := A.high
  have hword := A.word
  have hpm : (⟨p, s, true⟩ : Chunk) ∈ h.chunks := by simp [hcs]
  obtain ⟨hp8, hs8, hs32, hplo, hphi⟩ := C.chunk_bounds hpm
  simp only at hp8 hs8 hs32 hplo hphi
  have ht := C.tiled
  rw [hcs] at ht
  obtain ⟨pv, r, hfront, hpa, hc, hback⟩ := tiled_append.mp ht
  simp only at hpa hback
  subst hpa
  have hhead := hc.head
  simp only at hhead
  have hdv : h.dv = 0 ∧ h.dvsize = 0 ∨ (⟨h.dv, h.dvsize, false⟩ : Chunk) ∈ l₁ ++ l₂ := by
    rcases O.dvOk with hd | hd
    · exact Or.inl hd
    · refine Or.inr ?_
      rw [hcs] at hd
      simpa using hd
  -- a free chunk that ends at `p` is one of those before it
  have hbefore : ∀ a k', a + k' = p → (⟨a, k', false⟩ : Chunk) ∈ h.chunks →
      (⟨a, k', false⟩ : Chunk) ∈ l₁ := by
    intro a k' hap hm
    have hl := (C.chunk_bounds hm).2.2.1
    simp only at hl
    rw [hcs] at hm
    simp only [List.mem_append, List.mem_cons, Chunk.mk.injEq] at hm
    rcases hm with hm | hm | hm
    · exact hm
    · obtain ⟨_, _, hu⟩ := hm
      contradiction
    · have hge := (hback.mem hm).1
      simp only at hge
      omega
  unfold freeBackward
  simp only [wp_bind]
  rw [wp_pinuse hhead hs8]
  cases pv with
  | true =>
    rw [wp_if_pos rfl, wp_pure]
    refine hgo σ h.bins l₁ p s (C.region hcs hfront (inBins_outside hcs))
      ⟨0, rfl, rfl, Or.inl rfl, ?_⟩ ?_ ?_ rfl (Frame.refl _ σ)
    · rintro k' (hk' | ⟨a, hap, hm⟩)
      · omega
      · have hm₁ := hbefore a k' hap hm
        rcases List.eq_nil_or_concat l₁ with rfl | ⟨l₀, d, rfl⟩
        · contradiction
        · rw [List.concat_eq_append] at *
          have hd := hfront.last_eq hm₁ hap
          have hu := hfront.last.1
          rw [← hd] at hu
          contradiction
    · rcases hdv with hd | hd
      · exact Or.inl hd
      · exact Or.inr (Or.inr hd)
    · intro he
      rcases O.dvOk with ⟨hd, _⟩ | hd
      · omega
      · rw [he] at hd
        have hu := (C.free_unique hd hpm).2
        contradiction
  | false =>
    rw [wp_if_neg (by simp)]
    obtain ⟨l₀, b, k, hl₁, hbk, hfoot, _⟩ := tiled_prev_free hfront
    subst hl₁ hbk
    have hcm : (⟨b, k, false⟩ : Chunk) ∈ h.chunks := by simp [hcs]
    obtain ⟨hb8, hk8, hk32, hblo, hbhi⟩ := C.chunk_bounds hcm
    simp only at hb8 hk8 hk32 hblo hbhi
    have hcs' : h.chunks = l₀ ++ ⟨b, k, false⟩ :: ⟨b + k, s, true⟩ :: l₂ := by
      rw [hcs]
      simp
    have hsum : addSize s k = k + s := by
      simp only [addSize]
      omega
    have hout : ∀ a t, h.inBins a t ↔ Outside ((l₀ ++ [⟨b, k, false⟩]) ++ l₂) h.dv a t :=
      inBins_outside hcs
    simp only [wp_bind, prevFoot, dv, head]
    rw [wp_load hfoot, wp_if_neg (by simp only [isMmappedBit, Nat.and_one_is_mod]; omega)]
    simp only [wp_bind, Nat.add_sub_cancel]
    rw [wp_checkPtr (A.covers (by omega) (by omega)), hsum,
      wp_okAddress A.least (Nat.le_trans A.low (by omega)), wp_check rfl,
      wp_loadPtr C.scalars.dvPtr]
    have hend : b + (k + s) = b + k + s := by omega
    have hgap : ∃ k', b + k' = b + k ∧ k + s = s + k' ∧ FreeBefore h (b + k) k' ∧
        ∀ k'', FreeBefore h (b + k) k'' → k'' ≤ k' := by
      refine ⟨k, rfl, Nat.add_comm k s, Or.inr ⟨b, rfl, hcm⟩, ?_⟩
      rintro k' (hk' | ⟨a, hap, hm⟩)
      · omega
      · have hd := hfront.last_eq (hbefore a k' hap hm) hap
        have hk' := (Chunk.mk.inj hd).2.1
        omega
    by_cases hbd : b = h.dv
    · -- before is the designated victim
      rw [wp_if_neg (by simpa using hbd)]
      have hds : h.dvsize = k := by
        rcases O.dvOk with ⟨hd, _⟩ | hd
        · omega
        · rw [← hbd] at hd
          exact (C.free_unique hd hcm).1
      have R := (C.regionPrev hcs' (fun a t => by
        rw [hout]
        simp only [Outside, List.mem_append, List.mem_cons, List.not_mem_nil, or_false,
          Chunk.mk.injEq, and_true]
        constructor
        · rintro ⟨(h1 | ⟨h1, _⟩) | h1, h2⟩
          · exact ⟨Or.inl h1, h2⟩
          · exact absurd (h1.trans hbd) h2
          · exact ⟨Or.inr h1, h2⟩
        · rintro ⟨h1 | h1, h2⟩
          · exact ⟨Or.inl (Or.inl h1), h2⟩
          · exact ⟨Or.inr h1, h2⟩)).2
      simp only [wp_bind]
      rcases R.next with ⟨c, l₃, rfl, hca, hc8, hnext⟩ | ⟨rfl, htop, _, hnext⟩
      · rw [hend] at hca hnext
        rw [wp_load hnext]
        by_cases hu : c.used = true
        · rw [wp_if_pos ((headWord_inuse hc8).mpr ⟨rfl, hu⟩)]
          simp only [wp_bind, dvsize]
          refine A.wp_store rfl (by omega) (by omega) ?_
          have hks64 : k + s < 2 ^ 64 := by omega
          have C₁ := R.core.setDvsize R.free hks64
          have R₁ : Region (σ.put 8 (m + 8) (k + s)) m lo hi { h with dvsize := k + s } l₀ b
              (k + s) true (c :: l₃) :=
            R.rescalar (W := fun b => b < m + 928) ((Frame.refl _ σ).put fun b h1 h2 => by omega)
              (fun b hb => hb) C₁ rfl rfl
          rw [← hend]
          refine R₁.wp_setFreeWithPinuse hu ?_
          intro τ C₂ hf
          have hf₁ : Frame (Own m hi (Payload (l₀ ++ ⟨b, k + s, false⟩ :: c :: l₃))) σ
              (σ.put 8 (m + 8) (k + s)) :=
            (Frame.refl _ σ).put (fun b h1 h2 => C₂.scalar_own (by omega) (by omega))
          have hset := C₂.settleDv (h := h) (σ := σ) (by simp only [← hbd]) rfl
            (hf₁.trans (own_of_quiet hf))
          rw [wp_pure]
          refine hdone τ _ ⟨hset.ok, hset.live.trans (live_skip_prev h).symm, rfl, hset.frame⟩ ?_
          obtain ⟨_, hc', hrest⟩ := R.back
          have hlarge := hc'.large
          have hle : b + (k + s) + c.size ≤ h.top := hrest.le
          omega
        · rw [wp_if_neg (fun he => hu ((headWord_inuse hc8).mp he).2), wp_pure]
          refine hgo σ h.bins l₀ b (k + s) R hgap (Or.inr (Or.inl hbd.symm)) ?_
            (live_skip_prev h).symm (Frame.refl _ σ)
          rintro _ d l₄ ⟨rfl, rfl⟩
          exact Bool.eq_false_iff.mpr hu
      · rw [hend] at hnext
        rw [wp_load hnext, wp_if_neg (fun he => by
          have hu := ((headWord_inuse C.topAlign).mp he).2
          contradiction), wp_pure]
        refine hgo σ h.bins l₀ b (k + s) R hgap (Or.inr (Or.inl hbd.symm)) ?_
          (live_skip_prev h).symm (Frame.refl _ σ)
        intro _ d l₄ hd
        contradiction
    · -- before is a chunk in a bin
      rw [wp_if_pos hbd]
      simp only [wp_bind]
      have hbin : h.inBins b k := ⟨hcm, hbd⟩
      have hF : ∀ a t, Outside (l₀ ++ l₂) h.dv a t ↔ h.inBins a t ∧ ¬ (a = b ∧ t = k) := by
        intro a t
        rw [hout]
        simp only [Outside, List.mem_append, List.mem_cons, List.not_mem_nil, or_false,
          Chunk.mk.injEq, and_true]
        have hne : ∀ t', (⟨b, t', false⟩ : Chunk) ∉ l₀ ++ l₂ := by
          intro t' hm
          have ht := C.tiled
          rw [hcs'] at ht
          have hm' : (⟨b, t', false⟩ : Chunk) ∈ l₀ ++ ⟨b + k, s, true⟩ :: l₂ := by
            simp only [List.mem_append, List.mem_cons] at hm ⊢
            rcases hm with hm | hm
            · exact Or.inl hm
            · exact Or.inr (Or.inr hm)
          exact ht.others_ne hm' rfl
        constructor
        · rintro ⟨h1, h2⟩
          refine ⟨⟨?_, h2⟩, ?_⟩
          · rcases h1 with h1 | h1
            · exact Or.inl (Or.inl h1)
            · exact Or.inr h1
          · rintro ⟨rfl, rfl⟩
            exact hne t (List.mem_append.mpr h1)
        · rintro ⟨⟨(h1 | h1) | h1, h2⟩, h3⟩
          · exact ⟨Or.inl h1, h2⟩
          · exact absurd h1 h3
          · exact ⟨Or.inr h1, h2⟩
      refine C.wp_unlinkChunk inBins_free hbin hF ?_
      intro τ B C₁ hf
      rw [wp_pure]
      obtain ⟨_, R⟩ := C₁.regionPrev hcs' (fun a t => Iff.rfl)
      refine hgo τ B l₀ b (k + s) R hgap ?_ (fun he => absurd he.symm hbd)
        (live_skip_prev h).symm (hf.mono (C.binZone_quiet inBins_free))
      rcases hdv with hd | hd
      · exact Or.inl hd
      · refine Or.inr (Or.inr ?_)
        simp only [List.mem_append, List.mem_cons, List.not_mem_nil, or_false,
          Chunk.mk.injEq, and_true] at hd ⊢
        rcases hd with (hd | ⟨hd, _⟩) | hd
        · exact Or.inl hd
        · exact absurd hd.symm hbd
        · exact Or.inr hd

/-- `mspace_free` takes a live chunk back and subtracts its size. -/
theorem Ok.wp_mspaceFree {Q : Unit → State → Prop} (O : Ok σ m lo hi h)
    (T : FreeTrims σ m h p s → TrimOk D σ m hi) (hp : (p, s) ∈ h.live)
    (hQ : ∀ τ h', Ok τ m lo hi h' → h.live.Perm ((p, s) :: h'.live) →
      h'.exts = subSize h.exts s → Frame (Own m hi (Payload h'.chunks)) σ τ →
      (FreeTrims σ m h p s → Granular σ) → Q () τ) :
    wp D (mspaceFree m (p + 16)) Q σ := by
  have C := O.core
  have hpm := mem_live.mp hp
  obtain ⟨hp8, hs8, hs32, hplo, hphi⟩ := C.chunk_bounds hpm
  simp only at hp8 hs8 hs32 hplo hphi
  obtain ⟨l₁, l₂, hcs⟩ := List.append_of_mem hpm
  obtain ⟨_, _, pv, hc⟩ := C.tiled.mem hpm
  have hhead := hc.head
  simp only at hhead
  have hperm : h.live.Perm ((p, s) :: ({ h with chunks := l₁ ++ l₂ } : Heap).live) := by
    simp [Heap.live, hcs]
  -- the accounting at the end
  have hend : ∀ υ h', Settles σ m lo hi h (l₁ ++ l₂) υ h' → (FreeTrims σ m h p s → Granular σ) →
      wp D (update 8 (exts m) fun e => subSize e s) Q υ := by
    intro υ h' hs hgran
    refine hs.ok.wp_account (subSize_lt h'.exts s) ?_
    intro ω O' hf
    refine hQ ω _ O' ?_ (by rw [hs.exts]) (hs.frame.trans (own_of_quiet hf)) hgran
    have hl : ({ h' with exts := subSize h'.exts s } : Heap).live = h'.live := live_congr rfl
    rw [hl, hs.live]
    exact hperm
  unfold mspaceFree
  rw [wp_if_pos (by omega)]
  simp only [wp_bind, mem2chunk, Nat.add_sub_cancel]
  rw [wp_chunksize hhead hs8, wp_okAddress C.arena.least (O.lo_le (by omega)), wp_check rfl,
    wp_cinuse hhead hs8, wp_check rfl]
  refine O.wp_freeBackward hcs ?_ ?_
  · intro τ B l p' ps R hback hdv hnx hl hf
    obtain ⟨k, hpk, hsk, hbefore, hmost⟩ := hback
    have hf' := own_of_quiet hf
    have hpe : p + s = p' + ps := by omega
    -- where top is next, top trims just when the call does
    have htrims : l₂ = [] → Exceeds τ m (h.topsize + ps) → FreeTrims σ m h p s := by
      intro hl₂ hE
      subst hl₂
      have htop : h.top = p' + ps := R.back.2
      refine ⟨htop.trans hpe.symm, k, hbefore, ?_⟩
      exact (hE.congr (quiet_trimWord hf)).mono (by omega)
    simp only [wp_bind]
    rw [hpe]
    refine R.wp_freeForward (fun hl₂ hE => (T (htrims hl₂ hE)).frame hf') hdv hnx ?_
    intro υ h' hs hgran
    refine hend υ h' ⟨hs.ok, hs.live.trans hl, hs.exts, ?_⟩ ?_
    · refine (hf'.mono (own_mono (fun e he => ?_))).trans hs.frame
      rw [hs.live] at he
      exact hperm.mem_iff.mpr (List.mem_cons_of_mem _ (hl ▸ he))
    · intro hT
      obtain ⟨htop, k', hk', hE⟩ := hT
      have hle := hmost k' hk'
      have hl₂ : l₂ = [] := by
        cases l₂ with
        | nil => rfl
        | cons c l₃ =>
          obtain ⟨hca, hc', hrest⟩ := R.back
          have hlarge := hc'.large
          have hle' : p' + ps + c.size ≤ h.top := hrest.le
          omega
      have hE' : Exceeds τ m (h.topsize + ps) :=
        (hE.congr (quiet_trimWord hf).symm).mono (by omega)
      exact (T ⟨htop, k', hk', hE⟩).granular hf' (hgran hl₂ hE')
  · intro τ h' hs hne
    exact hend τ h' hs fun hT => absurd hT.1 hne

end

end Mmdata.Proofs
