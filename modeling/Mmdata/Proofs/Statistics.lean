import Mmdata.Proofs.Lives
import Mmdata.Proofs.Usage

namespace Mmdata.Proofs
open Lib Malloc

/-- The sizes of the free chunks. -/
def freeSizes (cs : List Chunk) : List Nat := (cs.filter fun c => !c.used).map Chunk.size

def usedSizes (cs : List Chunk) : List Nat := (cs.filter (·.used)).map Chunk.size

/-- Take in the chunks `cs` one by one. -/
def foldChunks {α : Type} (f : α → Nat → Bool → α) (cs : List Chunk) (a : α) : α :=
  cs.foldl (fun a c => f a c.size c.used) a

section

variable {D : Trap → Prop} {σ : State} {m lo hi p q a base cap ms : Nat} {pu pu' : Bool} {h : Heap}
  {live : List Nat} {cs : List Chunk} {α : Type} {f : α → Nat → Bool → α} {x : α}

theorem Tiled.length_le (ht : Tiled σ pu p cs pu' q) : p + 32 * cs.length ≤ q := by
  induction cs generalizing pu p with
  | nil => exact Nat.le_of_eq ht.2.symm
  | cons c cs ih =>
    obtain ⟨_, hc, hrest⟩ := ht
    have hle := ih hrest
    have hlarge := hc.large
    rw [List.length_cons]
    omega

theorem Tiled.sizes (ht : Tiled σ pu p cs pu' q) :
    p + ((usedSizes cs).sum + (freeSizes cs).sum) = q := by
  induction cs generalizing pu p with
  | nil => exact ht.2.symm
  | cons c cs ih =>
    have hrest := ih ht.2.2
    by_cases hu : c.used = true
    · simp [usedSizes, freeSizes, hu] at hrest ⊢
      omega
    · simp [usedSizes, freeSizes, hu] at hrest ⊢
      omega

/-- All that a run does. -/
theorem run_of_wp {β : Type} {y : Code β} {r : β} {τ : State}
    (hw : wp (fun _ => False) y (fun v υ => v = r ∧ υ = τ) σ) : y σ = .ok (r, τ) := by
  obtain ⟨v, υ, hr, rfl, rfl⟩ := ok_of_wp hw
  exact hr

/-! The walk over the chunks. -/

/-- The head of a chunk is not that of a fencepost. -/
theorem headWord_ne_fencepost {s : Nat} {cu : Bool} (hs : 32 ≤ s) :
    headWord s pu cu ≠ fencepostHead := by
  simp only [headWord, fencepostHead]
  omega

theorem Ok.wp_segmentHolds {Q : Bool → State → Prop} (O : Ok σ m lo hi h) (h1 : lo ≤ a)
    (h2 : a < hi + 48) : wp D (segmentHolds (seg m) a) Q σ ↔ Q true σ := by
  have S := O.core.scalars
  unfold segmentHolds
  simp only [seg, segBase, segSize, wp_bind]
  rw [wp_loadPtr S.segBase, wp_load S.segSize, wp_pure]
  have hin : (decide (lo ≤ a) && decide (a < lo + (hi + 48 - lo))) = true := by
    simp only [Bool.and_eq_true, decide_eq_true_eq]
    omega
  rw [hin]

theorem Ok.wp_walkChunks {Q : α → State → Prop} {fuel : Nat} (O : Ok σ m lo hi h)
    (ht : Tiled σ pu q cs true h.top) (hq : lo ≤ q) (hf : cs.length < fuel)
    (hQ : Q (foldChunks f cs x) σ) : wp D (walkChunks m (seg m) f fuel q x) Q σ := by
  have hle := ht.le
  have htop := O.core.topFits.2
  have S := O.core.scalars
  induction fuel generalizing cs pu q x with
  | zero => omega
  | succ fuel ih =>
    simp only [walkChunks, walkGoesOn, wp_bind]
    rw [O.wp_segmentHolds hq (by omega), wp_if_neg (by simp), wp_bind, top, wp_loadPtr S.topPtr]
    cases cs with
    | nil =>
      obtain ⟨_, rfl⟩ := ht
      rw [wp_if_pos rfl, wp_pure, wp_if_neg (by simp), wp_pure]
      exact hQ
    | cons c cs =>
      obtain ⟨rfl, hc, hrest⟩ := ht
      have hlarge := hc.large
      have hlast := hrest.le
      rw [wp_if_neg (by omega), wp_bind, head, wp_load hc.head, wp_pure,
        wp_if_pos (by simpa using headWord_ne_fencepost hlarge), wp_bind,
        wp_chunksize hc.head hc.align, wp_bind, wp_cinuse hc.head hc.align]
      rw [List.length_cons] at hf
      exact ih hrest (by omega) (by omega) hQ hlast

/-- The statistics take in the chunk of the malloc_state and then those behind it. -/
theorem Held.wp_walkSegments {Q : α → State → Prop} (H : Held σ base cap live h)
    (hQ : Q (foldChunks f h.chunks (f x mstateSize true)) σ) :
    wp D (walkSegments (base + 64) f loopFuel (seg (base + 64)) x) Q σ := by
  have O := H.ok
  have S := O.core.scalars
  have hal := O.core.arena.align
  have htop := O.core.topFits.2
  have hword := O.core.arena.word
  have hown : ChunkAt σ true ⟨base + 48, 936, true⟩ :=
    ⟨show 936 % 8 = 0 by decide, show 32 ≤ 936 by decide, H.ownHead, fun hu => by contradiction⟩
  have ht : Tiled σ true (base + 48) (⟨base + 48, 936, true⟩ :: h.chunks) true h.top :=
    ⟨rfl, hown, O.core.tiled⟩
  have hlen := ht.length_le
  have hfuel : loopFuel = 2 ^ 64 - 2 + 1 + 1 := rfl
  rw [hfuel]
  simp only [walkSegments]
  rw [wp_if_neg (by simp only [seg]; omega)]
  simp only [wp_bind, seg, segBase, segNext]
  rw [wp_loadPtr S.segBase, alignAsChunk_self (by omega)]
  apply O.wp_walkChunks ht (Nat.le_refl _) (by simp only [loopFuel]; omega)
  rw [wp_loadPtr S.segNext, wp_if_pos rfl, wp_pure]
  exact hQ

/-! What is counted. -/

theorem foldChunks_tally {t : Tally} (hpos : ∀ c ∈ cs, 0 < c.size) (hm : t.mfree ≤ t.sum)
    (hn : t.nfree ≤ t.mfree) (hlt : t.sum + ((usedSizes cs).sum + (freeSizes cs).sum) < 2 ^ 64) :
    foldChunks Tally.add cs t = ⟨t.sum + ((usedSizes cs).sum + (freeSizes cs).sum),
      t.mfree + (freeSizes cs).sum, t.nfree + (freeSizes cs).length⟩ := by
  induction cs generalizing t with
  | nil => rfl
  | cons c cs ih =>
    have hc := hpos c List.mem_cons_self
    have hstep : foldChunks Tally.add (c :: cs) t = foldChunks Tally.add cs (t.add c.size c.used) :=
      rfl
    by_cases hu : c.used = true
    · simp only [usedSizes, freeSizes, List.filter_cons, hu, if_true, List.map_cons, List.sum_cons,
        Bool.not_true, Bool.false_eq_true, if_false] at hlt ⊢
      have hadd : t.add c.size true = ⟨t.sum + c.size, t.mfree, t.nfree⟩ := by
        simp only [Tally.add, addSize, if_true, Tally.mk.injEq, and_true]
        omega
      rw [hstep, hu, hadd, ih (fun d hd => hpos d (List.mem_cons_of_mem _ hd))]
      · simp only [usedSizes, freeSizes, Tally.mk.injEq, and_true]
        omega
      · simp only
        omega
      · exact hn
      · simp only [usedSizes, freeSizes]
        omega
    · have hu' : c.used = false := by simpa using hu
      simp only [usedSizes, freeSizes, List.filter_cons, hu', if_true, List.map_cons,
        List.sum_cons, Bool.not_false, Bool.false_eq_true, if_false, List.length_cons] at hlt ⊢
      have hadd : t.add c.size false = ⟨t.sum + c.size, t.mfree + c.size, t.nfree + 1⟩ := by
        simp only [Tally.add, addSize, Bool.false_eq_true, if_false, Tally.mk.injEq]
        omega
      rw [hstep, hu', hadd, ih (fun d hd => hpos d (List.mem_cons_of_mem _ hd))]
      · simp only [usedSizes, freeSizes, Tally.mk.injEq]
        omega
      · simp only
        omega
      · simp only
        omega
      · simp only [usedSizes, freeSizes]
        omega

def subFree (used size : Nat) (inuse : Bool) : Nat := if inuse then used else subSize used size

theorem foldChunks_subFree {u : Nat} (hle : (freeSizes cs).sum ≤ u) (hlt : u < 2 ^ 64) :
    foldChunks subFree cs u = u - (freeSizes cs).sum := by
  induction cs generalizing u with
  | nil => rfl
  | cons c cs ih =>
    have hstep : foldChunks subFree (c :: cs) u = foldChunks subFree cs (subFree u c.size c.used) :=
      rfl
    by_cases hu : c.used = true
    · simp only [freeSizes, List.filter_cons, hu, Bool.not_true, Bool.false_eq_true, if_false]
        at hle ⊢
      rw [hstep, hu]
      exact ih hle hlt
    · have hu' : c.used = false := by simpa using hu
      simp only [freeSizes, List.filter_cons, hu', Bool.not_false, if_true, List.map_cons,
        List.sum_cons] at hle ⊢
      have hsub : subFree u c.size false = u - c.size := by
        rw [subFree, if_neg Bool.false_ne_true, subSize_le (by omega) hlt]
      rw [hstep, hu', hsub, ih]
      · simp only [freeSizes]
        omega
      · simp only [freeSizes]
        omega
      · omega

theorem Heap.used_sizes (h : Heap) : h.used = (usedSizes h.chunks).sum := by
  rw [Heap.used, Heap.live, List.map_map]
  rfl

/-- Where the bytes of the capacity are. -/
theorem Living.capacity (L : Living σ base cap live h) :
    mstateSize + (live.map (blockSize σ)).sum +
      (h.topsize + topFootSize + (freeSizes h.chunks).sum) = cap ∧ cap < 2 ^ 64 := by
  have hsizes := L.held.ok.core.tiled.sizes
  have hfits := L.held.ok.core.topFits
  have hword := L.held.ok.core.arena.word
  have hbehind := L.homed.filed.behind
  have hused := L.held.sum_blocks
  rw [h.used_sizes] at hused
  simp only [mstateSize, topFootSize]
  omega

/-- What `mallinfo` reports of the heap `h` with these live blocks. -/
def infoOf (σ : State) (cap : Nat) (live : List Nat) (h : Heap) : Mallinfo where
  arena := cap
  ordblks := (freeSizes h.chunks).length + 1
  hblkhd := 0
  usmblks := cap
  uordblks := mstateSize + (live.map (blockSize σ)).sum
  fordblks := h.topsize + topFootSize + (freeSizes h.chunks).sum
  keepcost := h.topsize

theorem Living.wp_mallinfo {Q : Mallinfo → State → Prop} (L : Living σ base cap live h)
    (hQ : Q (infoOf σ cap live h) σ) : wp D (mspaceMallinfo (base + 64)) Q σ := by
  have H := L.held
  have O := H.ok
  have S := O.core.scalars
  obtain ⟨hcap, hlt⟩ := L.capacity
  have htop := O.core.tiled.le
  have hsizes := O.core.tiled.sizes
  have hfits := O.core.topFits
  have hused := H.sum_blocks
  rw [h.used_sizes] at hused
  have hseg : base + cap + 48 - (base + 48) = cap := by omega
  have hfoot := S.footprint
  have hmax := S.maxFootprint
  rw [hseg] at hfoot hmax
  simp only [mstateSize, topFootSize] at hcap
  have hpos : ∀ c ∈ h.chunks, 0 < c.size := by
    intro c hc
    have hb := O.core.chunk_bounds hc
    omega
  have hfree : addSize h.topsize topFootSize = h.topsize + 72 := by
    simp only [addSize, topFootSize]
    omega
  have hadd : (⟨h.topsize + 72, h.topsize + 72, 1⟩ : Tally).add mstateSize true =
      ⟨h.topsize + 72 + 936, h.topsize + 72, 1⟩ := by
    simp only [Tally.add, addSize, mstateSize, if_true, Tally.mk.injEq, and_true]
    omega
  have htally : foldChunks Tally.add h.chunks ⟨h.topsize + 72 + 936, h.topsize + 72, 1⟩ =
      ⟨cap, h.topsize + 72 + (freeSizes h.chunks).sum, (freeSizes h.chunks).length + 1⟩ := by
    have hm : h.topsize + 72 ≤ h.topsize + 72 + 936 := by omega
    have hlarge : h.topsize + 72 + 936 + ((usedSizes h.chunks).sum + (freeSizes h.chunks).sum) =
        cap := by omega
    rw [foldChunks_tally hpos hm (Nat.le_add_left 1 _) (by rw [hlarge]; exact hlt), hlarge,
      Nat.add_comm 1]
  unfold mspaceMallinfo internalMallinfo
  rw [wp_bind, top, wp_loadPtr S.topPtr, wp_if_neg (by omega), wp_bind, topsize, wp_load S.topWord,
    hfree, wp_bind]
  apply H.wp_walkSegments
  rw [hadd, htally, wp_bind, footprint, wp_load hfoot, wp_bind, maxFootprint, wp_load hmax, wp_bind,
    wp_load hfoot, wp_bind, wp_load S.topWord, wp_pure]
  have hnone : subSize cap cap = 0 := by
    rw [subSize_le (Nat.le_refl _) hlt, Nat.sub_self]
  have hin : subSize cap (h.topsize + 72 + (freeSizes h.chunks).sum) =
      936 + (live.map (blockSize σ)).sum := by
    rw [subSize_le (by omega) hlt]
    omega
  simp only [hnone, hin]
  exact hQ

theorem Living.wp_mallocStats {Q : Nat × Nat × Nat → State → Prop} (L : Living σ base cap live h)
    (hQ : Q (cap, cap, mstateSize + (live.map (blockSize σ)).sum) σ) :
    wp D (mspaceMallocStats (base + 64)) Q σ := by
  have H := L.held
  have O := H.ok
  have S := O.core.scalars
  obtain ⟨hcap, hlt⟩ := L.capacity
  have htop := O.core.tiled.le
  have hseg : base + cap + 48 - (base + 48) = cap := by omega
  have hfoot := S.footprint
  have hmax := S.maxFootprint
  rw [hseg] at hfoot hmax
  simp only [mstateSize, topFootSize] at hcap hQ
  have hstart : subSize cap (addSize h.topsize topFootSize) = cap - (h.topsize + 72) := by
    have hfree : addSize h.topsize topFootSize = h.topsize + 72 := by
      simp only [addSize, topFootSize]
      omega
    rw [hfree, subSize_le (by omega) hlt]
  unfold mspaceMallocStats internalMallocStats
  rw [wp_bind, top, wp_loadPtr S.topPtr, wp_if_neg (by omega), wp_bind, maxFootprint, wp_load hmax,
    wp_bind, footprint, wp_load hfoot, wp_bind, topsize, wp_load S.topWord, hstart, wp_bind]
  apply H.wp_walkSegments
  have hsub : foldChunks subFree h.chunks (cap - (h.topsize + 72)) =
      936 + (live.map (blockSize σ)).sum := by
    rw [foldChunks_subFree (by omega) (by omega)]
    omega
  have hown : subFree (cap - (h.topsize + 72)) mstateSize true = cap - (h.topsize + 72) := rfl
  change wp D (pure (cap, cap, foldChunks subFree h.chunks
    (subFree (cap - (h.topsize + 72)) mstateSize true))) Q σ
  rw [hown, hsub, wp_pure]
  exact hQ

/-- In every state of its life the statistics of an image are exact, and all bytes of the capacity
belong to a live block, to the malloc_state or to the free memory that is reported. -/
theorem statistics_exact (R : Life base cap ms σ live) : ∃ h, Sound σ ms h ∧
    mspaceMallinfo ms σ = .ok (infoOf σ cap live h, σ) ∧
    mspaceMallocStats ms σ = .ok ((cap, cap, (infoOf σ cap live h).uordblks), σ) ∧
    mspaceFootprint ms σ = .ok (cap, σ) ∧ mspaceMaxFootprint ms σ = .ok (cap, σ) ∧
    (infoOf σ cap live h).uordblks + (infoOf σ cap live h).fordblks = cap := by
  obtain ⟨rfl, h, L⟩ := life_living R
  have H := L.held
  have S := H.ok.core.scalars
  have hseg : base + cap + 48 - (base + 48) = cap := by omega
  have hfoot := S.footprint
  have hmax := S.maxFootprint
  rw [hseg] at hfoot hmax
  refine ⟨h, H.sound, ?_, ?_, ?_, ?_, L.capacity.1⟩
  · exact run_of_wp (L.wp_mallinfo ⟨rfl, rfl⟩)
  · exact run_of_wp (L.wp_mallocStats ⟨rfl, rfl⟩)
  · exact run_of_wp ((wp_load hfoot).mpr ⟨rfl, rfl⟩)
  · exact run_of_wp ((wp_load hmax).mpr ⟨rfl, rfl⟩)

theorem statistics_exact_sample : ∃ σ i, Life 4096 65536 4160 σ [5408] ∧
    mspaceMallinfo 4160 σ = .ok (i, σ) ∧ i.arena = 65536 ∧ i.uordblks + i.fordblks = 65536 := by
  obtain ⟨σ, hr⟩ := result_ok sample_live
  have R := sample_life hr
  obtain ⟨h, _, hi, _, _, _, hsum⟩ := statistics_exact R
  exact ⟨σ, _, R, hi, rfl, hsum⟩

/-! The end of an mspace. -/

theorem Held.wp_destroyMspace {Q : Nat → State → Prop} (H : Held σ base cap live h) (hQ : Q 0 σ) :
    wp D (destroyMspace (base + 64)) Q σ := by
  have S := H.ok.core.scalars
  have hfuel : loopFuel = 2 ^ 64 - 2 + 1 + 1 := rfl
  unfold destroyMspace
  rw [hfuel]
  simp only [destroyLoop]
  rw [wp_if_neg (by simp only [seg]; omega)]
  simp only [wp_bind, seg, segBase, segSize, segFlags, segNext]
  rw [wp_loadPtr S.segBase, wp_load S.segSize, wp_load S.segFlags, wp_loadPtr S.segNext,
    wp_if_neg (by decide), wp_if_pos rfl, wp_pure]
  exact hQ

/-- The memory of an image is not the mspace's to give back: `destroy_mspace` frees nothing. -/
theorem destroy_frees_nothing (R : Life base cap ms σ live) : destroyMspace ms σ = .ok (0, σ) := by
  obtain ⟨rfl, h, L⟩ := life_living R
  exact run_of_wp (L.held.wp_destroyMspace ⟨rfl, rfl⟩)

theorem destroy_frees_nothing_sample : ∃ σ, Life 4096 65536 4160 σ [5408] ∧
    destroyMspace 4160 σ = .ok (0, σ) := by
  obtain ⟨σ, hr⟩ := result_ok sample_live
  have R := sample_life hr
  exact ⟨σ, R, destroy_frees_nothing R⟩

end

end Mmdata.Proofs
