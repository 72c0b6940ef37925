import Mmdata.Proofs.AlikeTrim

namespace Mmdata.Proofs
open Lib Malloc Relocation

/-- A chunk, or null, and the remainder it leaves. -/
def BestMoves (L : Relocation Globals) (r r' : Nat × Nat) : Prop :=
  L.Points r.1 r'.1 ∧ r.2 = r'.2

/-- A chunk found, or none, and its size. -/
def FoundMoves (L : Relocation Globals) (r r' : Option (Nat × Nat)) : Prop :=
  r = none ∧ r' = none ∨
    ∃ p p' n, L.Moves p p' ∧ r = some (chunk2mem p, n) ∧ r' = some (chunk2mem p', n)

/-- The memory of a chunk and where it moves. -/
def BlockMoves (L : Relocation Globals) (v v' : Nat) : Prop :=
  ∃ p p', L.Moves p p' ∧ v = chunk2mem p ∧ v' = chunk2mem p'

/-- Both null, or the memory of a chunk and where it moves. -/
def MemMoves (L : Relocation Globals) (v v' : Nat) : Prop := v = 0 ∧ v' = 0 ∨ BlockMoves L v v'

section

variable {L : Relocation Globals} {m m' p p' t t' v v' r nb i idx fuel : Nat}

theorem memMoves_null : MemMoves L 0 0 := Or.inl ⟨rfl, rfl⟩

theorem memMoves_chunk (hp : L.Moves p p') : MemMoves L (chunk2mem p) (chunk2mem p') :=
  Or.inr ⟨p, p', hp, rfl, rfl⟩

theorem MemMoves.zero_iff (h : MemMoves L v v') : v = 0 ↔ v' = 0 := by
  cases h with
  | inl h => exact iff_of_true h.1 h.2
  | inr h =>
    obtain ⟨p, p', _, rfl, rfl⟩ := h
    simp [chunk2mem]

theorem MemMoves.chunk (h : MemMoves L v v') (h0 : v ≠ 0) : L.Moves (mem2chunk v) (mem2chunk v') := by
  cases h with
  | inl h => exact absurd h.1 h0
  | inr h =>
    obtain ⟨p, p', hp, rfl, rfl⟩ := h
    exact hp

theorem MemMoves.moves (h : MemMoves L v v') (h0 : v ≠ 0) : L.Moves v v' := by
  cases h with
  | inl h => exact absurd h.1 h0
  | inr h =>
    obtain ⟨p, p', hp, rfl, rfl⟩ := h
    exact hp.add 16

theorem found_chunk (hp : L.Moves p p') (n : Nat) :
    FoundMoves L (some (chunk2mem p, n)) (some (chunk2mem p', n)) :=
  Or.inr ⟨p, p', n, hp, rfl, rfl⟩

/-! Searching the trees. -/

theorem alike_leftmostChild (ht : L.Points t t') :
    L.Alike (leftmostChild t) (leftmostChild t') L.Points := by
  unfold leftmostChild
  apply alike_bind (alike_loadPtr (ht.field (k := 32) (by decide)))
  intro c c' hc
  apply alike_if (not_congr hc.zero_iff)
  · intro _
    exact alike_pure hc
  · intro _
    exact alike_loadPtr (ht.field (k := 40) (by decide))

/-- The subtree left aside is null or moves along, as the best chunk does. -/
theorem alike_tmallocDescend {rsize sizebits rst rst' : Nat} (ht : L.Moves t t')
    (hv : L.Points v v') (hr : L.Points rst rst') :
    L.Alike (tmallocDescend nb fuel t v rsize sizebits rst)
      (tmallocDescend nb fuel t' v' rsize sizebits rst')
      fun a b => L.Points a.1 b.1 ∧ BestMoves L a.2 b.2 := by
  induction fuel generalizing t t' v v' rsize sizebits rst rst' with
  | zero => exact alike_trap
  | succ fuel ih =>
    unfold tmallocDescend
    apply alike_bind (alike_chunksize ht.points)
    intro c c' hc
    cases hc
    apply alike_if Iff.rfl
    · intro _
      exact alike_pure ⟨ht.points, ht.points, rfl⟩
    · intro _
      have hbest : L.Points (if subSize c nb < rsize then t else v)
          (if subSize c nb < rsize then t' else v') := by
        split
        · exact ht.points
        · exact hv
      apply alike_bind (alike_loadPtr (child_moves ht 1).aims)
      intro rt rt' hrt
      apply alike_bind (alike_loadPtr (child_moves ht ((sizebits >>> 63) &&& 1)).aims)
      intro u u' hu
      have hrest : L.Points (if rt ≠ 0 ∧ rt ≠ u then rt else rst)
          (if rt' ≠ 0 ∧ rt' ≠ u' then rt' else rst') := by
        have hiff : (rt ≠ 0 ∧ rt ≠ u) ↔ (rt' ≠ 0 ∧ rt' ≠ u') :=
          and_congr (not_congr hrt.zero_iff) (not_congr (hrt.eq_iff hu))
        by_cases hc : rt ≠ 0 ∧ rt ≠ u
        · rw [if_pos hc, if_pos (hiff.mp hc)]
          exact hrt
        · rw [if_neg hc, if_neg fun hc' => hc (hiff.mpr hc')]
          exact hr
      apply alike_if hu.zero_iff
      · intro _
        exact alike_pure ⟨hrest, hbest, rfl⟩
      · intro h0
        exact ih (hu.moves h0) hbest hrest

theorem alike_leftmostWalk {rsize : Nat} (ht : L.Points t t') (hv : L.Points v v') :
    L.Alike (leftmostWalk nb fuel t v rsize) (leftmostWalk nb fuel t' v' rsize)
      (BestMoves L) := by
  induction fuel generalizing t t' v v' rsize with
  | zero => exact alike_trap
  | succ fuel ih =>
    unfold leftmostWalk
    apply alike_if ht.zero_iff
    · intro _
      exact alike_pure ⟨hv, rfl⟩
    · intro _
      apply alike_bind (alike_chunksize ht)
      intro c c' hc
      cases hc
      apply alike_bind (alike_leftmostChild ht)
      intro u u' hu
      apply alike_if Iff.rfl
      · intro _
        exact ih hu ht
      · intro _
        exact ih hu hv

theorem alike_tmallocLargeSearch (hm : L.Moves m m') :
    L.Alike (tmallocLargeSearch m nb) (tmallocLargeSearch m' nb) (BestMoves L) := by
  have hwalk : ∀ t t' v v' rsize, L.Points t t' → L.Points v v' → L.Alike (do
        let t ←
          if t = 0 ∧ v = 0 then do
            let leftbits := leftBits (idx2bit (computeTreeIndex nb)) &&& (← load 4 (treemap m))
            if leftbits ≠ 0 then loadPtr (treebinAt m (computeBit2idx (leastBit leftbits)))
            else pure 0
          else pure t
        leftmostWalk nb loopFuel t v rsize) (do
        let t ←
          if t' = 0 ∧ v' = 0 then do
            let leftbits := leftBits (idx2bit (computeTreeIndex nb)) &&& (← load 4 (treemap m'))
            if leftbits ≠ 0 then loadPtr (treebinAt m' (computeBit2idx (leastBit leftbits)))
            else pure 0
          else pure t'
        leftmostWalk nb loopFuel t v' rsize) (BestMoves L) := by
    intro t t' v v' rsize ht hv
    apply alike_if (and_congr ht.zero_iff hv.zero_iff)
    · intro _
      apply alike_bind (alike_load (hm.add 4).aims)
      intro w w' hw
      cases hw
      apply alike_if Iff.rfl
      · intro _
        apply alike_bind (alike_loadPtr (treebinAt_moves hm _).aims)
        intro u u' hu
        exact alike_leftmostWalk hu hv
      · intro _
        exact alike_leftmostWalk points_null hv
    · intro _
      exact alike_leftmostWalk ht hv
  unfold tmallocLargeSearch
  apply alike_bind (alike_loadPtr (treebinAt_moves hm _).aims)
  intro root root' hroot
  apply alike_if (not_congr hroot.zero_iff)
  · intro h0
    apply alike_bind (alike_tmallocDescend (hroot.moves h0) points_null points_null)
    intro a b hab
    obtain ⟨t, v, rsize⟩ := a
    obtain ⟨t', v', rsize'⟩ := b
    obtain ⟨ht, hv, rfl⟩ := hab
    exact hwalk t t' v v' rsize ht hv
  · intro _
    exact hwalk 0 0 0 0 _ points_null points_null

/-! Taking a chunk. -/

theorem okNext_add (hp : L.Moves p p') (nb : Nat) : okNext p (p + nb) = okNext p' (p' + nb) :=
  okNext_moves hp (hp.add nb)

/-- A chunk of a tree is taken and split; `x` does with the remainder what is to be done. -/
theorem alike_takeLarge {rsize : Nat} {x x' : Code Unit} (hm : L.Moves m m')
    (hv : L.Points v v') (hx : L.Moves v v' → L.Alike x x' Done) :
    L.Alike (do
        check (← okAddress m v)
        check (okNext v (v + nb))
        unlinkLargeChunk m v
        if rsize < minChunkSize then setInuseAndPinuse v (addSize rsize nb)
        else do
          setSizeAndPinuseOfInuseChunk v nb
          setSizeAndPinuseOfFreeChunk (v + nb) rsize
          x
        return chunk2mem v) (do
        check (← okAddress m' v')
        check (okNext v' (v' + nb))
        unlinkLargeChunk m' v'
        if rsize < minChunkSize then setInuseAndPinuse v' (addSize rsize nb)
        else do
          setSizeAndPinuseOfInuseChunk v' nb
          setSizeAndPinuseOfFreeChunk (v' + nb) rsize
          x'
        return chunk2mem v') (MemMoves L) := by
  cases hv with
  | inl h0 =>
    obtain ⟨rfl, rfl⟩ := h0
    apply alike_checked hm.points points_null
    apply alike_bind (alike_check _)
    intro _ _ _
    exact alike_of_faults (faults_bind (faults_bind (faults_loadPtr (low_src (by decide)))))
  | inr hv =>
    apply alike_checked hm.points hv.points
    rw [okNext_add hv]
    apply alike_bind (alike_check _)
    intro _ _ _
    apply alike_bind (alike_unlinkLargeChunk hm hv)
    intro _ _ _
    apply alike_if Iff.rfl
    · intro _
      apply alike_bind (alike_setInuseAndPinuse hv)
      intro _ _ _
      exact alike_pure (memMoves_chunk hv)
    · intro _
      apply alike_bind (alike_setSizeAndPinuseOfInuseChunk hv.points)
      intro _ _ _
      apply alike_bind (alike_setSizeAndPinuseOfFreeChunk (hv.add nb))
      intro _ _ _
      apply alike_bind (hx hv)
      intro _ _ _
      exact alike_pure (memMoves_chunk hv)

theorem alike_tmallocLarge (hm : L.Moves m m') :
    L.Alike (tmallocLarge m nb) (tmallocLarge m' nb) (MemMoves L) := by
  unfold tmallocLarge
  apply alike_bind (alike_tmallocLargeSearch hm)
  intro a b hab
  obtain ⟨v, rsize⟩ := a
  obtain ⟨v', rsize'⟩ := b
  obtain ⟨hv, rfl⟩ := hab
  apply alike_bind (alike_load (hm.add 8).aims)
  intro d d' hd
  cases hd
  apply alike_if (and_congr (not_congr hv.zero_iff) Iff.rfl)
  · intro _
    exact alike_takeLarge hm hv fun hv => alike_insertChunk hm (hv.add nb)
  · intro _
    exact alike_pure memMoves_null

theorem alike_tmallocSmall (hm : L.Moves m m') :
    L.Alike (tmallocSmall m nb) (tmallocSmall m' nb) (MemMoves L) := by
  unfold tmallocSmall
  apply alike_bind (alike_load (hm.add 4).aims)
  intro w w' hw
  cases hw
  apply alike_bind (alike_loadPtr (treebinAt_moves hm _).aims)
  intro root root' hroot
  apply alike_bind (alike_chunksize hroot)
  intro c c' hc
  cases hc
  apply alike_bind (alike_leftmostChild hroot)
  intro t t' ht
  apply alike_bind (alike_leftmostWalk ht hroot)
  intro a b hab
  obtain ⟨v, rsize⟩ := a
  obtain ⟨v', rsize'⟩ := b
  obtain ⟨hv, rfl⟩ := hab
  exact alike_takeLarge hm hv fun hv => alike_replaceDv hm (hv.add nb).points

/-- A null `dv` or `top` is caught when its head is written. -/
theorem alike_mallocFromDvOrTop (hm : L.Moves m m') :
    L.Alike (mallocFromDvOrTop m nb) (mallocFromDvOrTop m' nb) (FoundMoves L) := by
  unfold mallocFromDvOrTop
  apply alike_bind (alike_load (hm.add 8).aims)
  intro dvs dvs' hdvs
  cases hdvs
  apply alike_if Iff.rfl
  · intro _
    apply alike_bind (alike_loadPtr (hm.add 32).aims)
    intro p p' hp
    apply alike_if Iff.rfl
    · intro _
      cases hp with
      | inl h0 =>
        obtain ⟨rfl, rfl⟩ := h0
        apply alike_of_faults
        apply faults_after timid_store
        intro _
        apply faults_after timid_store
        intro _
        apply faults_after (timid_bind timid_store fun _ => timid_store)
        intro _
        exact faults_bind (faults_store (low_src (by decide)))
      | inr hp =>
        apply alike_bind (alike_storePtr (hm.add 32).aims (hp.add nb).points)
        intro _ _ _
        apply alike_bind (alike_store (hm.add 8).aims)
        intro _ _ _
        apply alike_bind (alike_setSizeAndPinuseOfFreeChunk (hp.add nb))
        intro _ _ _
        apply alike_bind (alike_setSizeAndPinuseOfInuseChunk hp.points)
        intro _ _ _
        exact alike_pure (found_chunk hp nb)
    · intro _
      cases hp with
      | inl h0 =>
        obtain ⟨rfl, rfl⟩ := h0
        apply alike_of_faults
        apply faults_after timid_store
        intro _
        apply faults_after timid_store
        intro _
        exact faults_bind (faults_bind (faults_store (low_src (by decide))))
      | inr hp =>
        apply alike_bind (alike_store (hm.add 8).aims)
        intro _ _ _
        apply alike_bind (alike_storePtr (hm.add 32).aims points_null)
        intro _ _ _
        apply alike_bind (alike_setInuseAndPinuse hp)
        intro _ _ _
        exact alike_pure (found_chunk hp dvs)
  · intro _
    apply alike_bind (alike_load (hm.add 16).aims)
    intro ts ts' hts
    cases hts
    apply alike_if Iff.rfl
    · intro _
      apply alike_bind (alike_store (hm.add 16).aims)
      intro _ _ _
      apply alike_bind (alike_loadPtr (hm.add 40).aims)
      intro p p' hp
      cases hp with
      | inl h0 =>
        obtain ⟨rfl, rfl⟩ := h0
        apply alike_of_faults
        apply faults_after timid_store
        intro _
        apply faults_after timid_store
        intro _
        exact faults_bind (faults_store (low_src (by decide)))
      | inr hp =>
        apply alike_bind (alike_storePtr (hm.add 40).aims (hp.add nb).points)
        intro _ _ _
        apply alike_bind (alike_store ((hp.add nb).add 8).aims)
        intro _ _ _
        apply alike_bind (alike_setSizeAndPinuseOfInuseChunk hp.points)
        intro _ _ _
        exact alike_pure (found_chunk hp nb)
    · intro _
      exact alike_pure (Or.inl ⟨rfl, rfl⟩)

/-- The bins hold no null chunk. -/
theorem alike_mallocExactSmall (hm : L.Moves m m') :
    L.Alike (mallocExactSmall m idx) (mallocExactSmall m' idx) (FoundMoves L) := by
  have hb := smallbinAt_moves hm idx
  unfold mallocExactSmall
  apply alike_bind (alike_loadPtr (hb.add 16).aims)
  intro p p' hp
  cases hp with
  | inl h0 =>
    obtain ⟨rfl, rfl⟩ := h0
    exact alike_of_faults (faults_bind faults_chunksize_null)
  | inr hp =>
    apply alike_bind (alike_chunksize hp.points)
    intro size size' hsize
    cases hsize
    apply alike_bind (alike_unlinkFirstSmallChunk hm hb.points hp.points)
    intro _ _ _
    apply alike_bind (alike_setInuseAndPinuse hp)
    intro _ _ _
    exact alike_pure (found_chunk hp size)

theorem alike_mallocNextSmall (hm : L.Moves m m') :
    L.Alike (mallocNextSmall m nb i) (mallocNextSmall m' nb i) (FoundMoves L) := by
  have hb := smallbinAt_moves hm i
  unfold mallocNextSmall
  apply alike_bind (alike_loadPtr (hb.add 16).aims)
  intro p p' hp
  cases hp with
  | inl h0 =>
    obtain ⟨rfl, rfl⟩ := h0
    exact alike_of_faults (faults_bind (faults_bind (faults_loadPtr (low_src (by decide)))))
  | inr hp =>
    have hlast : L.Alike (do return some (chunk2mem p, ← chunksize p))
        (do return some (chunk2mem p', ← chunksize p')) (FoundMoves L) := by
      apply alike_bind (alike_chunksize hp.points)
      intro c c' hc
      cases hc
      exact alike_pure (found_chunk hp c)
    apply alike_bind (alike_unlinkFirstSmallChunk hm hb.points hp.points)
    intro _ _ _
    apply alike_if Iff.rfl
    · intro _
      apply alike_bind (alike_setInuseAndPinuse hp)
      intro _ _ _
      exact hlast
    · intro _
      apply alike_bind (alike_setSizeAndPinuseOfInuseChunk hp.points)
      intro _ _ _
      apply alike_bind (alike_setSizeAndPinuseOfFreeChunk (hp.add nb))
      intro _ _ _
      apply alike_bind (alike_replaceDv hm (hp.add nb).points)
      intro _ _ _
      exact hlast

/-- What a tree gave, else what `dv` or `top` gives. -/
theorem alike_foundInTree {x x' : Code Nat} (hm : L.Moves m m') (hx : L.Alike x x' (MemMoves L)) :
    L.Alike (do
        let mem ← x
        if mem ≠ 0 then return some (mem, ← chunksize (mem2chunk mem))
        mallocFromDvOrTop m nb) (do
        let mem ← x'
        if mem ≠ 0 then return some (mem, ← chunksize (mem2chunk mem))
        mallocFromDvOrTop m' nb) (FoundMoves L) := by
  apply alike_bind hx
  intro v v' hv
  apply alike_if (not_congr hv.zero_iff)
  · intro h0
    apply alike_bind (alike_chunksize (hv.chunk h0).points)
    intro c c' hc
    cases hc
    cases hv with
    | inl hv => exact absurd hv.1 h0
    | inr hv =>
      obtain ⟨p, p', hp, rfl, rfl⟩ := hv
      exact alike_pure (found_chunk hp c)
  · intro _
    exact alike_mallocFromDvOrTop hm

theorem alike_mallocSmall (hm : L.Moves m m') :
    L.Alike (mallocSmall m nb) (mallocSmall m' nb) (FoundMoves L) := by
  unfold mallocSmall
  apply alike_bind (alike_load hm.aims)
  intro w w' hw
  cases hw
  apply alike_if Iff.rfl
  · intro _
    exact alike_mallocExactSmall hm
  · intro _
    apply alike_bind (alike_load (hm.add 8).aims)
    intro d d' hd
    cases hd
    apply alike_if Iff.rfl
    · intro _
      apply alike_if Iff.rfl
      · intro _
        exact alike_mallocNextSmall hm
      · intro _
        apply alike_bind (alike_load (hm.add 4).aims)
        intro t t' ht
        cases ht
        apply alike_if Iff.rfl
        · intro _
          exact alike_foundInTree hm (alike_tmallocSmall hm)
        · intro _
          exact alike_mallocFromDvOrTop hm
    · intro _
      exact alike_mallocFromDvOrTop hm

theorem alike_mallocLarge (hm : L.Moves m m') :
    L.Alike (mallocLarge m nb) (mallocLarge m' nb) (FoundMoves L) := by
  unfold mallocLarge
  apply alike_bind (alike_load (hm.add 4).aims)
  intro t t' ht
  cases ht
  apply alike_if Iff.rfl
  · intro _
    exact alike_foundInTree hm (alike_tmallocLarge hm)
  · intro _
    exact alike_mallocFromDvOrTop hm

theorem alike_found {r r' : Option (Nat × Nat)} (hm : L.Moves m m') (hr : FoundMoves L r r') :
    L.Alike
      (match r with
      | none => return 0
      | some (mem, size) => do
        update 8 (exts m) fun e => addSize e size
        return mem)
      (match r' with
      | none => return 0
      | some (mem, size) => do
        update 8 (exts m') fun e => addSize e size
        return mem) (MemMoves L) := by
  cases hr with
  | inl h0 =>
    obtain ⟨rfl, rfl⟩ := h0
    exact alike_pure memMoves_null
  | inr hr =>
    obtain ⟨p, p', n, hp, rfl, rfl⟩ := hr
    apply alike_bind (alike_update (hm.add 920).aims)
    intro _ _ _
    exact alike_pure (memMoves_chunk hp)

theorem alike_mspaceMalloc {bytes : Nat} (hm : L.Moves m m') :
    L.Alike (mspaceMalloc m bytes) (mspaceMalloc m' bytes) (MemMoves L) := by
  unfold mspaceMalloc
  apply alike_if Iff.rfl
  · intro _
    exact alike_bind (alike_mallocSmall hm) fun _ _ => alike_found hm
  · intro _
    apply alike_if Iff.rfl
    · intro _
      exact alike_bind (alike_mallocFromDvOrTop hm) fun _ _ => alike_found hm
    · intro _
      exact alike_bind (alike_mallocLarge hm) fun _ _ => alike_found hm

end

end Mmdata.Proofs
