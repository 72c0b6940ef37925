import Mmdata.Proofs.TreeSearch

namespace Mmdata.Proofs
open Lib Malloc

/-- Some chunk can serve a request for `nb` bytes. -/
def Heap.Fits (h : Heap) (nb : Nat) : Prop :=
  (∃ a s, h.inBins a s ∧ nb ≤ s) ∨ nb ≤ h.dvsize ∨ nb < h.topsize

/-- A request for `nb` bytes comes across a binned chunk that fits: a small one across any,
a large one across those on its path. -/
def Heap.Meets (h : Heap) (nb : Nat) : Prop :=
  ∃ a s, h.inBins a s ∧ nb ≤ s ∧ (nb < 256 ∨ h.OnPath nb a s)

/-- A request for `nb` bytes finds a chunk. -/
def Heap.Finds (h : Heap) (nb : Nat) : Prop := h.Meets nb ∨ nb ≤ h.dvsize ∨ nb < h.topsize

section

variable {D : Trap → Prop} {σ τ υ : State} {m lo hi i v s p nb rs bytes : Nat} {h h' : Heap}
  {B : Bins} {l₁ l₂ : List Chunk}

/-- What a heap gives after work on its bins. -/
theorem Gives.after (hf : Frame (Quiet m hi (Payload h.chunks)) σ υ)
    (G : Gives υ m lo hi { h with bins := B } p s τ h') : Gives σ m lo hi h p s τ h' :=
  ⟨G.ok, G.live, G.exts, hf.trans G.frame, G.front⟩

theorem Gives.head (G : Gives σ m lo hi h p s τ h') :
    ∃ pu, τ.get 8 (p + 8) = some (headWord s pu true) ∧ s % 8 = 0 ∧ p ≠ 0 := by
  have hm : (⟨p, s, true⟩ : Chunk) ∈ h'.chunks :=
    mem_live.mp (G.live.mem_iff.mpr List.mem_cons_self)
  obtain ⟨_, _, pu, hc⟩ := G.ok.core.tiled.mem hm
  have hb := G.ok.core.chunk_bounds hm
  simp only at hb
  exact ⟨pu, hc.head, hc.align, by omega⟩

theorem Ok.lo_le (O : Ok σ m lo hi h) {a : Nat} (ha : m ≤ a) : lo ≤ a :=
  Nat.le_trans O.core.arena.low ha

theorem subSize_lt (a b : Nat) : subSize a b < 2 ^ 64 := Nat.mod_lt _ (by decide)

theorem addSize_lt (a b : Nat) : addSize a b < 2 ^ 64 := Nat.mod_lt _ (by decide)

/-- The counter changes, and nothing else. -/
theorem Ok.wp_account {f : Nat → Nat} {Q : Unit → State → Prop} (O : Ok σ m lo hi h)
    (hf : f h.exts < 2 ^ 64)
    (hQ : ∀ τ, Ok τ m lo hi { h with exts := f h.exts } →
      Frame (Quiet m hi (Payload h.chunks)) σ τ → Q () τ) :
    wp D (update 8 (exts m) f) Q σ := by
  simp only [exts]
  rw [wp_update O.core.scalars.extsWord]
  refine hQ _ ⟨O.core.setExts inBins_free hf, O.dvOk⟩ ((Frame.refl _ σ).put ?_)
  exact fun b h1 h2 => O.core.scalar_quiet (by omega) (by omega) (by omega)

/-- A loose chunk is given away, the rest of it, if any, becomes `dv`. -/
theorem Loose.wp_giveDv {Q : Unit → State → Prop} (L : Loose σ m lo hi h v s)
    (hs : nb + rs = s) (hnb : 32 ≤ nb) (hnb8 : nb % 8 = 0) (hdv : h.dvsize < 256)
    (hQ : ∀ τ h' sz, Gives σ m lo hi h v sz τ h' → nb ≤ sz → Q () τ) :
    wp D (if rs < minChunkSize then setInuseAndPinuse v s
      else do
        setSizeAndPinuseOfInuseChunk v nb
        setSizeAndPinuseOfFreeChunk (v + nb) rs
        replaceDv m (v + nb) rs) Q σ := by
  by_cases hr : rs < minChunkSize
  · rw [wp_if_pos hr]
    exact L.wp_takeWhole (fun τ h' G => hQ τ h' s G (by omega))
  · rw [wp_if_neg hr]
    simp only [wp_bind]
    refine L.wp_carve hs hnb hnb8 (by simp only [minChunkSize] at hr; omega) ?_
    intro τ h' L' hd hG
    refine L'.wp_replaceDv (hd ▸ hdv) ?_
    intro υ B hO hf
    exact hQ υ _ nb (hG υ _ hO rfl rfl hf) (Nat.le_refl nb)

/-- A loose chunk is given away, the rest of it, if any, goes to its bin. -/
theorem Loose.wp_giveBin {Q : Unit → State → Prop} (L : Loose σ m lo hi h v s)
    (hs : nb + rs = s) (hnb : 32 ≤ nb) (hnb8 : nb % 8 = 0)
    (hQ : ∀ τ h' sz, Gives σ m lo hi h v sz τ h' → nb ≤ sz → Q () τ) :
    wp D (if rs < minChunkSize then setInuseAndPinuse v s
      else do
        setSizeAndPinuseOfInuseChunk v nb
        setSizeAndPinuseOfFreeChunk (v + nb) rs
        insertChunk m (v + nb) rs) Q σ := by
  by_cases hr : rs < minChunkSize
  · rw [wp_if_pos hr]
    exact L.wp_takeWhole (fun τ h' G => hQ τ h' s G (by omega))
  · rw [wp_if_neg hr]
    simp only [wp_bind]
    refine L.wp_carve hs hnb hnb8 (by simp only [minChunkSize] at hr; omega) ?_
    intro τ h' L' hd hG
    refine L'.wp_insertChunk ?_
    intro υ B hO hf
    exact hQ υ _ nb (hG υ _ hO rfl rfl hf) (Nat.le_refl nb)

/-- The chunk that the search ends with passes the checks and leaves its tree. -/
theorem Picked.wp_unlink {Q : Unit → State → Prop} (O : Ok σ m lo hi h)
    (hP : Picked h nb (some (v, s))) (hnb : 0 < nb)
    (hQ : ∀ τ B, Loose τ m lo hi { h with bins := B } v s →
      Frame (Quiet m hi (Payload h.chunks)) σ τ → Q () τ) :
    wp D (okAddress m v) (fun ok τ => wp D (check ok) (fun _ τ =>
      wp D (check (okNext v (v + nb))) (fun _ τ => wp D (unlinkLargeChunk m v) Q τ) τ) τ) σ := by
  obtain ⟨hv, _, h256⟩ := hP (v, s) rfl
  have hvc := O.core.chunk_bounds hv.1
  simp only at hvc hv h256
  rw [wp_okAddress O.core.arena.least (O.lo_le (by omega)), wp_check rfl,
    wp_check (by simp only [okNext, decide_eq_true_iff]; omega)]
  exact O.wp_unlinkLargeChunk hv h256 hQ

/-- The chunk is given as a whole, or its remainder is put away as `x`, `y` and `z` say. -/
theorem Picked.wp_finish {Q : Nat → State → Prop} {x y z : Code Unit} (O : Ok σ m lo hi h)
    (hP : Picked h nb (some (v, s)))
    (hgive : wp D (if s - nb < minChunkSize then setInuseAndPinuse v s else do x; y; z)
      (fun _ τ => Q (v + 16) τ) τ) :
    wp D (if s - nb < minChunkSize then do
        setInuseAndPinuse v (addSize (s - nb) nb)
        return chunk2mem v
      else do
        x
        y
        z
        return chunk2mem v) Q τ := by
  obtain ⟨hv, hle, _⟩ := hP (v, s) rfl
  have hs := O.binned_lt hv
  have hsum : addSize (s - nb) nb = s := by
    simp only at hle hs
    simp only [addSize]
    omega
  rw [hsum]
  by_cases hr : s - nb < minChunkSize
  · rw [wp_if_pos hr] at hgive ⊢
    rw [wp_bind]
    exact hgive
  · rw [wp_if_neg hr] at hgive ⊢
    simp only [wp_bind] at hgive ⊢
    exact hgive

/-- The smallest chunk of the lowest tree serves a small request. -/
theorem wp_tmallocSmall {w : Nat} {Q : Nat → State → Prop} (O : Ok σ m lo hi h)
    (hw : σ.get 4 (m + 4) = some w) (hw0 : w ≠ 0) (hnb : 32 ≤ nb) (hnb8 : nb % 8 = 0)
    (hnb256 : nb < 256) (hdv : h.dvsize < 256)
    (hQ : ∀ v s, Searched h nb (some (v, s)) → ∀ τ h' sz, Gives σ m lo hi h v sz τ h' →
      nb ≤ sz → Q (v + 16) τ) :
    wp D (tmallocSmall m nb) Q σ := by
  obtain ⟨w', hw', hbits⟩ := O.core.binned.treeMap
  have hww : w' = w := by
    rw [hw] at hw'
    exact (Option.some.inj hw').symm
  subst hww
  obtain ⟨hj, hset, hlow⟩ := bit2idx_lowest (Machine.get_lt hw) hw0
  generalize hidx : computeBit2idx (leastBit w') = j at *
  have hne : h.bins.tree j ≠ .nil := (hbits j hj).mp hset
  have hfirst : ∀ k < j, h.bins.tree k = .nil := by
    intro k hk
    by_contra hkn
    have hbit := (hbits k (by omega)).mpr hkn
    rw [hlow k hk] at hbit
    contradiction
  have hsearched := O.searched_first hnb256 hj hne hfirst
  obtain ⟨hroot, S⟩ := O.bin_sub hj
  unfold tmallocSmall
  simp only [wp_bind, treemap]
  rw [wp_load hw, hidx, wp_loadPtr hroot]
  generalize h.bins.tree j = t at *
  cases t with
  | nil => contradiction
  | node a k ring l u =>
    obtain ⟨ha, hk⟩ := S.root
    obtain ⟨Sl, Su⟩ := S.children
    have hk64 := O.binned_lt ha
    obtain ⟨hhead, hk8⟩ := O.node_head ha
    simp only [Trie.root]
    rw [wp_chunksize hhead hk8, subSize_le (by omega) hk64]
    have hstart : take nb none (a, k) = some (a, k) := if_pos ⟨by omega, by simp⟩
    have hpick : Picked h nb (some (a, k)) := hstart ▸ Picked.none.take ha hk
    -- the walk from either child ends with what the whole tree gives
    have hwalk : ∀ c : Trie, Sub σ m hi h c →
        (Trie.node a k ring l u).leftmost nb none = c.leftmost nb (some (a, k)) →
        wp D (leftmostWalk nb loopFuel c.root a (k - nb)) (fun r τ =>
          wp D (okAddress m r.1) (fun ok τ => wp D (check ok) (fun _ τ =>
            wp D (check (okNext r.1 (r.1 + nb))) (fun _ τ =>
              wp D (unlinkLargeChunk m r.1) (fun _ τ =>
                wp D (if r.2 < minChunkSize then do
                    setInuseAndPinuse r.1 (addSize r.2 nb)
                    return chunk2mem r.1
                  else do
                    setSizeAndPinuseOfInuseChunk r.1 nb
                    setSizeAndPinuseOfFreeChunk (r.1 + nb) r.2
                    replaceDv m (r.1 + nb) r.2
                    return chunk2mem r.1) Q τ) τ) τ) τ) τ) σ := by
      intro c Sc hc
      show wp D (leftmostWalk nb loopFuel c.root (pairOf nb (some (a, k))).1
        (pairOf nb (some (a, k))).2) _ σ
      apply wp_leftmostWalk O (by omega) (by omega) Sc (O.height_lt_fuel Sc) hpick
      rw [← hc]
      cases hres : (Trie.node a k ring l u).leftmost nb none with
      | none =>
        have hfit : ∀ e ∈ (Trie.node a k ring l u).entries, nb ≤ e.2 := by
          intro e he
          have h256 := (S.binned e he).2
          omega
        exact absurd hres (leftmost_of_fit (by simp) hfit)
      | some e =>
        obtain ⟨v, s⟩ := e
        rw [hres] at hsearched
        have hle := (hsearched.picked (v, s) rfl).2.1
        simp only at hle
        apply hsearched.picked.wp_unlink O (by omega)
        intro τ B L hfr
        apply hsearched.picked.wp_finish O
        exact L.wp_giveDv (by omega) hnb hnb8 hdv
          (fun υ h' sz G hsz => hQ v s hsearched υ h' sz (G.after hfr) hsz)
    apply wp_leftmostChild S
    · intro hl
      apply hwalk l Sl
      cases l with
      | nil => contradiction
      | node =>
        show Trie.leftmost nb _ (take nb none (a, k)) = _
        rw [hstart]
    · intro hl
      subst hl
      apply hwalk u Su
      show Trie.leftmost nb _ (take nb none (a, k)) = _
      rw [hstart]

theorem Ok.meets_iff (O : Ok σ m lo hi h) (hnb : 256 ≤ nb) :
    h.Meets nb ↔ ∃ a s, h.OnPath nb a s ∧ nb ≤ s := by
  constructor
  · rintro ⟨a, s, _, hle, hsmall | hpath⟩
    · omega
    · exact ⟨a, s, hpath, hle⟩
  · rintro ⟨a, s, hpath, hle⟩
    exact ⟨a, s, O.onPath_binned hpath, hle, Or.inr hpath⟩

/-- A large request is served from the trees, or not at all. -/
theorem wp_tmallocLarge {Q : Nat → State → Prop} (O : Ok σ m lo hi h) (hnb : 256 ≤ nb)
    (hnb8 : nb % 8 = 0) (hnb' : nb < 2 ^ 64)
    (h0 : ∀ best, Searched h nb best → (best ≠ none ↔ h.Meets nb) →
      (∀ e ∈ best, nb ≤ h.dvsize ∧ h.dvsize ≤ e.2) → Q 0 σ)
    (hQ : ∀ v s, Searched h nb (some (v, s)) → h.Meets nb → (s < h.dvsize ∨ h.dvsize < nb) →
      ∀ τ h' sz, Gives σ m lo hi h v sz τ h' → nb ≤ sz → Q (v + 16) τ) :
    wp D (tmallocLarge m nb) Q σ := by
  unfold tmallocLarge
  simp only [wp_bind]
  apply wp_tmallocLargeSearch O hnb hnb'
  intro best hsearched hpath
  have hmeets : best ≠ none ↔ h.Meets nb := hpath.trans (O.meets_iff hnb).symm
  simp only [dvsize]
  rw [wp_load O.core.scalars.dvWord]
  cases best with
  | none =>
    rw [wp_if_neg (by simp [pairOf]), wp_pure]
    exact h0 none hsearched hmeets (by simp)
  | some e =>
    obtain ⟨v, s⟩ := e
    obtain ⟨hv, hle, h256⟩ := hsearched.picked (v, s) rfl
    have hvc := O.core.chunk_bounds hv.1
    have hs64 := O.binned_lt hv
    have hdv64 := Machine.get_lt O.core.scalars.dvWord
    simp only at hvc hv hle h256 hs64
    have hcond : s - nb < subSize h.dvsize nb ↔ s < h.dvsize ∨ h.dvsize < nb := by
      simp only [subSize]
      omega
    show wp D (if v ≠ 0 ∧ s - nb < subSize h.dvsize nb then _ else _) Q σ
    by_cases hc : s < h.dvsize ∨ h.dvsize < nb
    · rw [wp_if_pos ⟨by omega, hcond.mpr hc⟩]
      simp only [wp_bind]
      apply hsearched.picked.wp_unlink O (by omega)
      intro τ B L hfr
      apply hsearched.picked.wp_finish O
      exact L.wp_giveBin (by omega) (by omega) hnb8
        (fun υ h' sz G hsz => hQ v s hsearched (hmeets.mp (by simp)) hc υ h' sz (G.after hfr) hsz)
    · rw [wp_if_neg (fun hn => hc (hcond.mp hn.2)), wp_pure]
      refine h0 _ hsearched hmeets ?_
      intro e he
      cases he
      show nb ≤ h.dvsize ∧ h.dvsize ≤ s
      omega

theorem Ok.dv_mem (O : Ok σ m lo hi h) (h0 : h.dvsize ≠ 0) :
    ⟨h.dv, h.dvsize, false⟩ ∈ h.chunks := by
  rcases O.dvOk with ⟨_, hd⟩ | hd
  · exact absurd hd h0
  · exact hd

theorem Ok.sizes_lt (O : Ok σ m lo hi h) :
    h.dvsize + 128 ≤ 2 ^ 64 ∧ h.topsize + 920 ≤ 2 ^ 64 := by
  have hword := O.core.arena.word
  obtain ⟨_, hfits⟩ := O.core.topFits
  have htop := O.core.tiled.le
  refine ⟨?_, by omega⟩
  by_cases h0 : h.dvsize = 0
  · omega
  · have hb := O.core.chunk_bounds (O.dv_mem h0)
    simp only at hb
    omega

/-- A request is served from the designated victim or from top, or not at all. -/
theorem wp_mallocFromDvOrTop {Q : Option (Nat × Nat) → State → Prop} (O : Ok σ m lo hi h)
    (hnone : h.dvsize < nb → h.topsize ≤ nb → Q none σ)
    (hQ : 32 ≤ nb → nb % 8 = 0 → (nb ≤ h.dvsize ∨ nb < h.topsize) → ∀ v τ h' sz,
      Gives σ m lo hi h v sz τ h' → nb ≤ sz → Q (some (v + 16, sz)) τ)
    (hnb : 32 ≤ nb ∧ nb % 8 = 0 ∨ h.dvsize < nb ∧ h.topsize ≤ nb) :
    wp D (mallocFromDvOrTop m nb) Q σ := by
  have C := O.core
  have A := C.arena
  have hal := A.align
  have hhigh := A.high
  have hword := A.word
  have hszs := O.sizes_lt
  unfold mallocFromDvOrTop
  simp only [wp_bind, dvsize, topsize, dv, top, head]
  rw [wp_load C.scalars.dvWord]
  by_cases hdvs : nb ≤ h.dvsize
  · obtain ⟨hnb32, hnb8⟩ : 32 ≤ nb ∧ nb % 8 = 0 := by omega
    have hdm := O.dv_mem (by omega)
    obtain ⟨l₁, l₂, hcs⟩ := List.append_of_mem hdm
    obtain ⟨hd8, hs8, hs32, hdlo, hdhi⟩ := C.chunk_bounds hdm
    simp only at hd8 hs8 hs32 hdlo hdhi
    have hnF : ∀ t, ¬ h.inBins h.dv t := fun t ht => ht.2 rfl
    rw [wp_if_pos hdvs, subSize_le hdvs (by omega)]
    simp only [wp_bind]
    rw [wp_loadPtr C.scalars.dvPtr]
    by_cases hr : h.dvsize - nb ≥ minChunkSize
    · simp only [minChunkSize] at hr
      rw [wp_if_pos (by simpa only [minChunkSize] using hr)]
      simp only [wp_bind]
      refine A.wp_storePtr rfl (by omega) (by omega) ?_
      refine A.wp_store rfl (by omega) (by omega) ?_
      have hr64 : h.dvsize - nb < 2 ^ 64 := by omega
      have C' := (C.setDv inBins_free (d := h.dv + nb) (Or.inr ⟨by omega, by omega⟩)
        (by omega)).setDvsize inBins_free hr64
      have hfr : Frame (Quiet m hi (Payload h.chunks)) σ
          ((σ.putPtr (m + 32) (h.dv + nb)).put 8 (m + 8) (h.dvsize - nb)) := by
        refine ((Frame.refl _ σ).putPtr (fun b h1 h2 => ?_)).put (fun b h1 h2 => ?_)
        · exact C.scalar_quiet (by omega) (by omega) (by omega)
        · exact C.scalar_quiet (by omega) (by omega) (by omega)
      have hsum : nb + (h.dvsize - nb) = h.dvsize := by omega
      refine (C'.wp_takeSplit inBins_free hcs hnF hsum hnb32 hnb8 hr ?_).2
      intro τ C₂ hf₂
      refine hQ hnb32 hnb8 (Or.inl hdvs) h.dv τ _ nb ⟨⟨C₂.congr (fun a t => ?_), Or.inr (by simp)⟩, ?_, rfl,
        hfr.trans hf₂, l₁, _, rfl, (C.around_free hcs).1.last_used⟩ (Nat.le_refl nb)
      · have hassoc : l₁ ++ ⟨h.dv, nb, true⟩ :: ⟨h.dv + nb, h.dvsize - nb, false⟩ :: l₂ =
            (l₁ ++ [⟨h.dv, nb, true⟩]) ++ ⟨h.dv + nb, h.dvsize - nb, false⟩ :: l₂ := by simp
        have hold := C.others hcs a t
        have hnew := C₂.others hassoc a t
        have hmem : (⟨a, t, false⟩ : Chunk) ∈ (l₁ ++ [⟨h.dv, nb, true⟩]) ++ l₂ ↔
            (⟨a, t, false⟩ : Chunk) ∈ l₁ ++ l₂ := by simp
        exact hold.trans (hmem.symm.trans hnew.symm)
      · rw [live_append h hcs, Heap.live]
        simp
    · rw [wp_if_neg hr]
      simp only [minChunkSize] at hr
      simp only [wp_bind]
      refine A.wp_store rfl (by omega) (by omega) ?_
      refine A.wp_storePtr rfl (by omega) (by omega) ?_
      have h064 : 0 < 2 ^ 64 := by omega
      have C' := (C.setDvsize inBins_free h064).setDv inBins_free (Or.inl rfl) (by omega)
      have hfr : Frame (Quiet m hi (Payload h.chunks)) σ
          ((σ.put 8 (m + 8) 0).putPtr (m + 32) 0) := by
        refine ((Frame.refl _ σ).put (fun b h1 h2 => ?_)).putPtr (fun b h1 h2 => ?_)
        · exact C.scalar_quiet (by omega) (by omega) (by omega)
        · exact C.scalar_quiet (by omega) (by omega) (by omega)
      refine C'.wp_takeWhole inBins_free hcs hnF ?_
      intro τ C₂ hf₂
      rw [wp_pure]
      refine hQ hnb32 hnb8 (Or.inl hdvs) h.dv τ _ h.dvsize ⟨⟨C₂.congr (fun a t => ?_), Or.inl ⟨rfl, rfl⟩⟩, ?_,
        rfl, hfr.trans hf₂, l₁, l₂, rfl, (C.around_free hcs).1.last_used⟩ hdvs
      · have hold := C.others hcs a t
        have hnew := C₂.others rfl a t
        refine hold.trans (hnew.symm.trans ?_)
        simp only [Heap.inBins]
        constructor
        · rintro ⟨h1, _⟩
          have hb := C₂.chunk_bounds h1
          simp only at hb
          exact ⟨h1, by omega⟩
        · rintro ⟨h1, _⟩
          refine ⟨h1, ?_⟩
          rintro rfl
          have hm : (⟨h.dv, h.dvsize, true⟩ : Chunk) ∈ l₁ ++ ⟨h.dv, h.dvsize, true⟩ :: l₂ := by simp
          have hb := (C₂.free_unique h1 hm).2
          contradiction
      · rw [live_append h hcs, Heap.live]
        simp
  · rw [wp_if_neg hdvs]
    simp only [wp_bind]
    rw [wp_load C.scalars.topWord]
    by_cases hts : nb < h.topsize
    · obtain ⟨hnb32, hnb8⟩ : 32 ≤ nb ∧ nb % 8 = 0 := by omega
      obtain ⟨hpos, hfits⟩ := C.topFits
      have htop := C.tiled.le
      have htop8 := C.tiled.align C.first_align
      have hta := C.topAlign
      rw [wp_if_pos hts, subSize_le (Nat.le_of_lt hts) (by omega)]
      simp only [wp_bind]
      refine A.wp_store rfl (by omega) (by omega) ?_
      rw [wp_loadPtr (show (σ.put 8 (m + 16) (h.topsize - nb)).getPtr (m + 40) = some h.top by
        rw [Machine.getPtr_put_ne (by omega)]
        exact C.scalars.topPtr)]
      refine A.wp_storePtr rfl (by omega) (by omega) ?_
      refine A.wp_store rfl (by omega) (by omega) ?_
      refine A.wp_inuseHead rfl hnb8 (by omega) (by omega) ?_
      rw [wp_pure]
      have hrs8 : (h.topsize - nb) % 8 = 0 := by omega
      have hsum : nb + (h.topsize - nb) = h.topsize := by omega
      have hwords : Frame (Words [m + 16, m + 40, h.top + 8, h.top + nb + 8]) σ
          ((((σ.put 8 (m + 16) (h.topsize - nb)).putPtr (m + 40) (h.top + nb)).put 8
            (h.top + nb + 8) (h.topsize - nb ||| pinuseBit)).put 8 (h.top + 8)
              (headWord nb true true)) := by
        refine ((((Frame.refl _ σ).put ?_).putPtr ?_).put ?_).put ?_
        · exact fun b h1 h2 => ⟨m + 16, by simp, h1, h2⟩
        · exact fun b h1 h2 => ⟨m + 40, by simp, h1, h2⟩
        · exact fun b h1 h2 => ⟨h.top + nb + 8, by simp, h1, h2⟩
        · exact fun b h1 h2 => ⟨h.top + 8, by simp, h1, h2⟩
      refine hQ hnb32 hnb8 (Or.inr hts) h.top _ { h with
        chunks := h.chunks ++ [⟨h.top, nb, true⟩]
        top := h.top + nb
        topsize := h.topsize - nb } nb ?_ (Nat.le_refl nb)
      have htake := C.takeTop inBins_free hsum (by omega) hnb32 hnb8 hwords (by
        rw [Machine.getPtr_put_ne (by omega), Machine.getPtr_put_ne (by omega)]
        exact A.getPtr_self (by rfl) (by omega) (by omega) (by omega) (by omega) (by omega)) (by
        rw [Machine.get_put_ne (by omega), Machine.get_put_ne (by omega),
          Machine.get_putPtr_ne (by omega)]
        exact Machine.get_put_same (A.covers (by omega) (by omega)) (by omega))
        (Machine.get_put_same (A.covers (by omega) (by omega)) (headWord_lt (by omega))) (by
        rw [Machine.get_put_ne (by omega), or_pinuse hrs8]
        exact Machine.get_put_same (A.covers (by omega) (by omega)) (headWord_lt (by omega)))
      refine ⟨⟨htake.1.congr (fun a t => ?_), ?_⟩, ?_, rfl, htake.2, h.chunks, [], rfl,
        C.tiled.last_used⟩
      · simp [Heap.inBins]
      · rcases O.dvOk with hd | hd
        · exact Or.inl hd
        · exact Or.inr (List.mem_append_left _ hd)
      · simp only [Heap.live, List.filter_append, List.map_append]
        exact List.perm_append_comm
    · rw [wp_if_neg hts, wp_pure]
      exact hnone (by omega) (by omega)

theorem smallIndex2size_eq (i : Nat) : smallIndex2size i = 8 * i := by
  simp [smallIndex2size, Nat.shiftLeft_eq, Nat.mul_comm]

/-- The first chunk of a small bin, before and after it is unlinked. -/
theorem Ok.small_first (O : Ok σ m lo hi h) (hi32 : i < 32) (hne : h.bins.small i ≠ []) :
    ∃ v l, h.bins.small i = v :: l ∧ σ.getPtr (smallbinAt m i + 16) = some v ∧
      h.inBins v (8 * i) := by
  have hring := O.core.binned.smallRing i hi32 hne
  cases hl : h.bins.small i with
  | nil => contradiction
  | cons v l =>
    rw [hl] at hring
    exact ⟨v, l, rfl, hring.1, (O.core.binned.smallMem i hi32 v).mp (by simp [hl])⟩

theorem wp_mallocExactSmall {Q : Option (Nat × Nat) → State → Prop} (O : Ok σ m lo hi h)
    (hi32 : i < 32) (hne : h.bins.small i ≠ [])
    (hQ : ∀ v τ h', Gives σ m lo hi h v (8 * i) τ h' → Q (some (v + 16, 8 * i)) τ) :
    wp D (mallocExactSmall m i) Q σ := by
  obtain ⟨v, l, hl, hfd, hv⟩ := O.small_first hi32 hne
  obtain ⟨hhead, h8⟩ := O.node_head hv
  unfold mallocExactSmall
  simp only [wp_bind, fd]
  rw [wp_loadPtr hfd, wp_chunksize hhead h8, smallIndex2size_eq]
  refine O.wp_unlinkFirst hi32 hl ?_
  intro τ B L hf
  refine L.wp_takeWhole ?_
  intro υ h' G
  rw [wp_pure]
  exact hQ v υ h' (G.after hf)

theorem wp_mallocNextSmall {Q : Option (Nat × Nat) → State → Prop} (O : Ok σ m lo hi h)
    (hi32 : i < 32) (hne : h.bins.small i ≠ []) (hnb : 32 ≤ nb) (hnb8 : nb % 8 = 0)
    (hle : nb ≤ 8 * i) (hdv : h.dvsize < 256)
    (hQ : ∀ v τ h' sz, Gives σ m lo hi h v sz τ h' → nb ≤ sz → Q (some (v + 16, sz)) τ) :
    wp D (mallocNextSmall m nb i) Q σ := by
  obtain ⟨v, l, hl, hfd, hv⟩ := O.small_first hi32 hne
  unfold mallocNextSmall
  simp only [wp_bind, fd]
  rw [wp_loadPtr hfd, smallIndex2size_eq, subSize_le hle (by omega)]
  refine O.wp_unlinkFirst hi32 hl ?_
  intro τ B L hf
  have hrun := L.wp_giveDv (D := D) (Q := fun _ υ =>
      wp D (chunksize v) (fun sz υ => Q (some (v + 16, sz)) υ) υ)
    (show nb + (8 * i - nb) = 8 * i by omega) hnb hnb8 hdv (by
      intro υ h' sz G hsz
      obtain ⟨pu, hg, h8, _⟩ := G.head
      rw [wp_chunksize hg h8]
      exact hQ v υ h' sz (G.after hf) hsz)
  by_cases hr : 8 * i - nb < minChunkSize
  · rw [wp_if_pos hr] at hrun ⊢
    simp only [wp_bind]
    exact hrun
  · rw [wp_if_neg hr] at hrun ⊢
    simp only [wp_bind] at hrun ⊢
    exact hrun

/-- The first two bits of the shifted map: an exact bin or the next one. -/
theorem exact_bin {w idx : Nat} (hw : w < 2 ^ 32) (hidx : idx < 32)
    (h : (w >>> idx) &&& 3 ≠ 0) :
    idx + ((2 ^ 32 - 1 - (w >>> idx)) &&& 1) < 32 ∧
      w.testBit (idx + ((2 ^ 32 - 1 - (w >>> idx)) &&& 1)) = true ∧
      ((2 ^ 32 - 1 - (w >>> idx)) &&& 1 = 0 ∨ (2 ^ 32 - 1 - (w >>> idx)) &&& 1 = 1) := by
  have hsh : w >>> idx ≤ w := Nat.shiftRight_le w idx
  rw [and_three] at h
  have hb0 : w.testBit idx = (w >>> idx).testBit 0 := by
    rw [Nat.testBit_shiftRight, Nat.add_zero]
  have hb1 : w.testBit (idx + 1) = (w >>> idx).testBit 1 := by
    rw [Nat.testBit_shiftRight]
  rw [Nat.and_one_is_mod]
  by_cases h0 : (w >>> idx) % 2 = 1
  · have hz : (2 ^ 32 - 1 - (w >>> idx)) % 2 = 0 := by omega
    rw [hz, Nat.add_zero, hb0, Nat.testBit_zero]
    exact ⟨hidx, decide_eq_true h0, Or.inl rfl⟩
  · have hz : (2 ^ 32 - 1 - (w >>> idx)) % 2 = 1 := by omega
    have ht : w.testBit (idx + 1) = true := by
      have hone := Nat.toNat_testBit (w >>> idx) 1
      rw [hb1]
      cases hc : (w >>> idx).testBit 1 with
      | true => rfl
      | false =>
        rw [hc] at hone
        simp only [Bool.toNat_false] at hone
        omega
    rw [hz]
    refine ⟨?_, ht, Or.inr rfl⟩
    by_contra hge
    have hlt : w < 2 ^ (idx + 1) :=
      Nat.lt_of_lt_of_le hw (Nat.pow_le_pow_right (by omega) (by omega))
    rw [Nat.testBit_lt_two_pow hlt] at ht
    contradiction

/-- The bits of the shifted map beyond the first two: some later bin. -/
theorem next_bin {w idx : Nat} (hw : w < 2 ^ 32) (hidx : idx < 32) (h3 : (w >>> idx) &&& 3 = 0)
    (h : w >>> idx ≠ 0) :
    let i := computeBit2idx (leastBit
      ((((w >>> idx) <<< idx) % 2 ^ 32) &&& leftBits (idx2bit idx)))
    i < 32 ∧ w.testBit i = true ∧ idx < i := by
  have hbit : ∀ k, ((((w >>> idx) <<< idx) % 2 ^ 32) &&& leftBits (idx2bit idx)).testBit k = true ↔
      k < 32 ∧ idx < k ∧ w.testBit k = true := by
    intro k
    rw [Nat.testBit_and, Bool.and_eq_true, Nat.testBit_mod_two_pow, Bool.and_eq_true,
      decide_eq_true_iff, Nat.testBit_shiftLeft, Bool.and_eq_true, decide_eq_true_iff,
      Nat.testBit_shiftRight]
    constructor
    · rintro ⟨⟨hk, hge, ht⟩, hl⟩
      rw [leftBits_testBit hidx hk, decide_eq_true_iff] at hl
      rw [show idx + (k - idx) = k by omega] at ht
      exact ⟨hk, hl, ht⟩
    · rintro ⟨hk, hl, ht⟩
      rw [leftBits_testBit hidx hk, decide_eq_true_iff, show idx + (k - idx) = k by omega]
      exact ⟨⟨hk, by omega, ht⟩, hl⟩
  have hne : (((w >>> idx) <<< idx) % 2 ^ 32) &&& leftBits (idx2bit idx) ≠ 0 := by
    obtain ⟨j, hj, _⟩ := exists_lowest _ h
    have hj2 : j ≠ 0 := by
      rintro rfl
      rw [Nat.testBit_zero, decide_eq_true_iff] at hj
      rw [and_three] at h3
      omega
    have hjw : w.testBit (idx + j) = true := by rwa [Nat.testBit_shiftRight] at hj
    have hj32 : idx + j < 32 := by
      by_contra hge
      have hlt : w < 2 ^ (idx + j) :=
        Nat.lt_of_lt_of_le hw (Nat.pow_le_pow_right (by omega) (by omega))
      rw [Nat.testBit_lt_two_pow hlt] at hjw
      contradiction
    intro hz
    have hk := (hbit (idx + j)).mpr ⟨hj32, by omega, hjw⟩
    rw [hz, Nat.zero_testBit] at hk
    contradiction
  have hlt : (((w >>> idx) <<< idx) % 2 ^ 32) &&& leftBits (idx2bit idx) < 2 ^ 32 :=
    Nat.lt_of_le_of_lt Nat.and_le_right (leftBits_lt hidx)
  obtain ⟨h1, h2, _⟩ := bit2idx_lowest hlt hne
  obtain ⟨_, h4, h5⟩ := (hbit _).mp h2
  exact ⟨h1, h5, h4⟩

/-- No bit from `nb / 8` on: no small bin has a chunk that fits. -/
theorem Ok.small_starved {w : Nat} (O : Ok σ m lo hi h)
    (hbits : ∀ i < 32, w.testBit i = true ↔ h.bins.small i ≠ []) (hnb8 : nb % 8 = 0)
    (h0 : w >>> (nb / 8) = 0) {a t : Nat} (ha : h.inBins a t) (ht : t < 256) : t < nb := by
  by_contra hge
  have ht8 := (O.core.chunk_bounds ha.1).2.1
  simp only at ht8
  have hmem : a ∈ h.bins.small (t / 8) := by
    apply (O.core.binned.smallMem (t / 8) (by omega) a).mpr
    rwa [show 8 * (t / 8) = t by omega]
  have hset := (hbits (t / 8) (by omega)).mpr (List.ne_nil_of_mem hmem)
  have hsplit : t / 8 = nb / 8 + (t / 8 - nb / 8) := by omega
  rw [hsplit, ← Nat.testBit_shiftRight, h0, Nat.zero_testBit] at hset
  contradiction

/-- An empty map of trees: no chunk is large. -/
theorem Ok.no_trees (O : Ok σ m lo hi h)
    (hbits : ∀ i < 32, (0 : Nat).testBit i = true ↔ h.bins.tree i ≠ .nil) {a t : Nat}
    (ha : h.inBins a t) : t < 256 := by
  by_contra hge
  have hi32 := computeTreeIndex_lt t
  have hmem := (O.core.binned.treeMem _ hi32 a t).mpr ⟨ha, by omega, rfl⟩
  have hnil : h.bins.tree (computeTreeIndex t) = .nil := by
    by_contra hne
    have hset := (hbits _ hi32).mpr hne
    rw [Nat.zero_testBit] at hset
    contradiction
  rw [hnil] at hmem
  simp [Trie.entries] at hmem

theorem wp_mallocSmall {Q : Option (Nat × Nat) → State → Prop} (O : Ok σ m lo hi h)
    (hnb : 32 ≤ nb) (hnb8 : nb % 8 = 0) (hnb256 : nb < 256) (hnone : ¬ h.Finds nb → Q none σ)
    (hQ : h.Finds nb → ∀ v τ h' sz, Gives σ m lo hi h v sz τ h' → nb ≤ sz →
      Q (some (v + 16, sz)) τ) :
    wp D (mallocSmall m nb) Q σ := by
  obtain ⟨w, hw, hbits⟩ := O.core.binned.smallMap
  have hw32 : w < 2 ^ 32 := Machine.get_lt hw
  have hidx : nb / 8 < 32 := by omega
  have htop : (h.dvsize < nb → ∀ a s, h.inBins a s → s < nb) →
      wp D (mallocFromDvOrTop m nb) Q σ := by
    intro hbins
    apply wp_mallocFromDvOrTop O
    · intro hdv ht
      apply hnone
      rintro (⟨a, s, ha, hle, _⟩ | hle | hlt)
      · have hs := hbins hdv a s ha
        omega
      · omega
      · omega
    · exact fun _ _ hf v τ h' sz => hQ (Or.inr hf) v τ h' sz
    · exact Or.inl ⟨hnb, hnb8⟩
  have hbin : ∀ i < 32, h.bins.small i ≠ [] → nb ≤ 8 * i → h.Finds nb := by
    intro i hi32 hne hle
    obtain ⟨v, _, _, _, hv⟩ := O.small_first hi32 hne
    exact Or.inl ⟨v, _, hv, hle, Or.inl hnb256⟩
  unfold mallocSmall
  simp only [wp_bind, smallmap, treemap, dvsize, smallIndex_eq]
  rw [wp_load hw]
  by_cases h3 : (w >>> (nb / 8)) &&& 3 = 0
  · rw [wp_if_neg (by simpa using h3)]
    simp only [wp_bind]
    rw [wp_load O.core.scalars.dvWord]
    by_cases hdv : nb > h.dvsize
    · rw [wp_if_pos hdv]
      by_cases hsb : w >>> (nb / 8) = 0
      · rw [wp_if_neg (by simpa using hsb)]
        obtain ⟨tw, htw, htbits⟩ := O.core.binned.treeMap
        simp only [wp_bind]
        rw [wp_load htw]
        by_cases ht0 : tw = 0
        · rw [wp_if_neg (by simpa using ht0)]
          apply htop
          intro _ a s ha
          subst ht0
          exact O.small_starved hbits hnb8 hsb ha (O.no_trees htbits ha)
        · rw [wp_if_pos ht0]
          simp only [wp_bind]
          apply wp_tmallocSmall O htw ht0 hnb hnb8 hnb256 (by omega)
          intro v s hs τ h' sz G hsz
          obtain ⟨pu, hg, h8, _⟩ := G.head
          obtain ⟨hv, hle, _⟩ := hs.picked (v, s) rfl
          rw [wp_if_pos (by omega)]
          simp only [wp_bind, mem2chunk, Nat.add_sub_cancel]
          rw [wp_chunksize hg h8, wp_pure]
          exact hQ (Or.inl ⟨v, s, hv, hle, Or.inl hnb256⟩) v τ h' sz G hsz
      · rw [wp_if_pos hsb]
        obtain ⟨hi32, hset, hgt⟩ := next_bin hw32 hidx h3 hsb
        have hne := (hbits _ hi32).mp hset
        apply wp_mallocNextSmall O hi32 hne hnb hnb8 (by omega) (by omega)
        exact hQ (hbin _ hi32 hne (by omega))
    · rw [wp_if_neg hdv]
      exact htop (fun hc => absurd hc hdv)
  · rw [wp_if_pos h3]
    obtain ⟨hi32, hset, hor⟩ := exact_bin hw32 hidx h3
    have hne := (hbits _ hi32).mp hset
    apply wp_mallocExactSmall O hi32 hne
    intro v τ h' G
    exact hQ (hbin _ hi32 hne (by omega)) v τ h' _ G (by omega)

theorem wp_mallocLarge {Q : Option (Nat × Nat) → State → Prop} (O : Ok σ m lo hi h)
    (hnb : 256 ≤ nb) (hnb8 : nb % 8 = 0) (hnb64 : nb < 2 ^ 64) (hnone : ¬ h.Finds nb → Q none σ)
    (hQ : h.Finds nb → ∀ v τ h' sz, Gives σ m lo hi h v sz τ h' → nb ≤ sz →
      Q (some (v + 16, sz)) τ) :
    wp D (mallocLarge m nb) Q σ := by
  have htop : (h.dvsize < nb → ¬ h.Meets nb) → wp D (mallocFromDvOrTop m nb) Q σ := by
    intro hbins
    apply wp_mallocFromDvOrTop O
    · intro hdv ht
      apply hnone
      rintro (hmeets | hle | hlt)
      · exact hbins hdv hmeets
      · omega
      · omega
    · exact fun _ _ hf v τ h' sz => hQ (Or.inr hf) v τ h' sz
    · exact Or.inl ⟨by omega, hnb8⟩
  obtain ⟨tw, htw, htbits⟩ := O.core.binned.treeMap
  unfold mallocLarge
  simp only [wp_bind, treemap]
  rw [wp_load htw]
  by_cases ht0 : tw = 0
  · rw [wp_if_neg (by simpa using ht0)]
    apply htop
    rintro _ ⟨a, s, ha, hle, _⟩
    subst ht0
    have hlt := O.no_trees htbits ha
    omega
  · rw [wp_if_pos ht0]
    simp only [wp_bind]
    apply wp_tmallocLarge O hnb hnb8 hnb64
    · intro best _ hiff hle
      rw [wp_if_neg (by simp)]
      apply htop
      -- with `dv` too small, the search has found nothing at all
      intro hdv hmeets
      obtain ⟨e, he⟩ := Option.ne_none_iff_exists'.mp (hiff.mpr hmeets)
      have hdv' := (hle e he).1
      omega
    · intro v s _ hmeets _ τ h' sz G hsz
      obtain ⟨pu, hg, h8, _⟩ := G.head
      rw [wp_if_pos (by omega)]
      simp only [wp_bind, mem2chunk, Nat.add_sub_cancel]
      rw [wp_chunksize hg h8, wp_pure]
      exact hQ (Or.inl hmeets) v τ h' sz G hsz

theorem padRequest_spec (hb : bytes < maxRequest) :
    padRequest bytes % 8 = 0 ∧ bytes + 8 ≤ padRequest bytes ∧ padRequest bytes < bytes + 16 := by
  simp only [maxRequest] at hb
  simp only [padRequest, clearBits, addSize, chunkOverhead, chunkAlignMask, and_seven]
  omega

theorem request2size_spec (hb : bytes < maxRequest) :
    32 ≤ request2size bytes ∧ request2size bytes % 8 = 0 ∧ bytes + 8 ≤ request2size bytes ∧
      request2size bytes < 2 ^ 64 := by
  have hpad := padRequest_spec hb
  simp only [maxRequest] at hb
  unfold request2size
  by_cases hmin : bytes < minRequest
  · rw [if_pos hmin]
    simp only [minRequest] at hmin
    refine ⟨by decide, by decide, ?_, by decide⟩
    show bytes + 8 ≤ 32
    omega
  · rw [if_neg hmin]
    simp only [minRequest] at hmin
    omega

theorem request2size_large (hb : maxSmallRequest < bytes) :
    request2size bytes = padRequest bytes := by
  simp only [maxSmallRequest] at hb
  unfold request2size
  rw [if_neg (by simp only [minRequest]; omega)]

/-- The padded size of a small request is that of a small chunk. -/
theorem request2size_small (hb : bytes ≤ maxSmallRequest) : request2size bytes < 256 := by
  simp only [maxSmallRequest] at hb
  unfold request2size
  by_cases hmin : bytes < minRequest
  · rw [if_pos hmin]
    decide
  · rw [if_neg hmin]
    have hpad := padRequest_spec (show bytes < maxRequest by simp only [maxRequest]; omega)
    omega

/-- `mspace_malloc` returns null and changes nothing, or gives a chunk with room
for the request, cut from the front of free memory, and counts its size. -/
theorem wp_mspaceMallocFront {Q : Nat → State → Prop} (O : Ok σ m lo hi h)
    (h0 : (bytes < maxRequest → ¬ h.Finds (request2size bytes)) → Q 0 σ)
    (hQ : h.Finds (request2size bytes) → ∀ v τ h' sz, Ok τ m lo hi h' → h'.Fronted v sz →
      h'.live.Perm ((v, sz) :: h.live) → bytes + 8 ≤ sz → h'.exts = addSize h.exts sz →
      Frame (Quiet m hi (Payload h.chunks)) σ τ → Q (v + 16) τ) :
    wp D (mspaceMalloc m bytes) Q σ := by
  -- what follows once a chunk has been found
  have hfound : h.Finds (request2size bytes) → ∀ v τ h' sz, Gives σ m lo hi h v sz τ h' →
      bytes + 8 ≤ sz → wp D (update 8 (exts m) fun e => addSize e sz)
        (fun _ τ => wp D (pure (v + 16) : Code Nat) Q τ) τ := by
    intro hf v τ h' sz G hsz
    apply G.ok.wp_account (addSize_lt h'.exts sz)
    intro υ O' hfr
    rw [wp_pure]
    refine hQ hf v υ _ sz O' G.front G.live hsz (by rw [G.exts]) (G.frame.trans (hfr.mono ?_))
    exact quiet_mono (fun e he => G.live.mem_iff.mpr (List.mem_cons_of_mem _ he))
  have hszs := O.sizes_lt
  unfold mspaceMalloc
  by_cases hsmall : bytes ≤ maxSmallRequest
  · rw [wp_if_pos hsmall]
    simp only [wp_bind]
    have h3 := request2size_small hsmall
    simp only [maxSmallRequest] at hsmall
    obtain ⟨h1, h2, h4, _⟩ := request2size_spec (show bytes < maxRequest by
      simp only [maxRequest]
      omega)
    show wp D (mallocSmall m (request2size bytes)) _ σ
    apply wp_mallocSmall O h1 h2 h3
    · exact fun hs => h0 fun _ => hs
    · intro hf v τ h' sz G hsz
      simp only [wp_bind]
      exact hfound hf v τ h' sz G (by omega)
  · rw [wp_if_neg hsmall]
    have hlarge := request2size_large (Nat.lt_of_not_le hsmall)
    simp only [maxSmallRequest] at hsmall
    by_cases hbig : bytes ≥ maxRequest
    · rw [wp_if_pos hbig]
      simp only [wp_bind]
      have hmax : h.dvsize < maxSizeT ∧ h.topsize ≤ maxSizeT := by
        simp only [maxSizeT]
        omega
      apply wp_mallocFromDvOrTop O
      · exact fun _ _ => h0 fun hb => absurd hbig (by omega)
      · intro h32 h8
        simp [maxSizeT] at h8
      · exact Or.inr hmax
    · rw [wp_if_neg hbig]
      simp only [wp_bind]
      have hpad := padRequest_spec (Nat.lt_of_not_ge hbig)
      simp only [maxRequest] at hbig
      apply wp_mallocLarge O (by omega) hpad.1 (by omega)
      · exact fun hs => h0 fun _ => hlarge ▸ hs
      · intro hf v τ h' sz G hsz
        simp only [wp_bind]
        exact hfound (hlarge ▸ hf) v τ h' sz G (by omega)

theorem wp_mspaceMalloc {Q : Nat → State → Prop} (O : Ok σ m lo hi h)
    (h0 : (bytes < maxRequest → ¬ h.Finds (request2size bytes)) → Q 0 σ)
    (hQ : h.Finds (request2size bytes) → ∀ v τ h' sz, Ok τ m lo hi h' →
      h'.live.Perm ((v, sz) :: h.live) → bytes + 8 ≤ sz → h'.exts = addSize h.exts sz →
      Frame (Quiet m hi (Payload h.chunks)) σ τ → Q (v + 16) τ) :
    wp D (mspaceMalloc m bytes) Q σ :=
  wp_mspaceMallocFront O h0 fun hf v τ h' sz O' _ => hQ hf v τ h' sz O'

end

end Mmdata.Proofs
