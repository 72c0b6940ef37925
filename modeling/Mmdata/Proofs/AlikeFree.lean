import Mmdata.Proofs.AlikeMalloc

namespace Mmdata.Proofs
open Lib Malloc Relocation

/-- The free region so far, or none. -/
def RegionMoves (L : Relocation Globals) (r r' : Option (Nat × Nat)) : Prop :=
  r = none ∧ r' = none ∨ ∃ p p' n, L.Moves p p' ∧ r = some (p, n) ∧ r' = some (p', n)

section

variable {L : Relocation Globals} {m m' p p' t t' v v' n n' s nb bytes : Nat}

theorem region_chunk (hp : L.Moves p p') (n : Nat) : RegionMoves L (some (p, n)) (some (p', n)) :=
  Or.inr ⟨p, p', n, hp, rfl, rfl⟩

/-! Freeing. -/

/-- The predecessor is found below the chunk, in both or in neither. -/
theorem aims_prev (hp : L.Moves p p') (s : Nat) : L.Aims (p - s) (p' - s) := by
  intro hsrc
  have hlow := L.low
  exact hp.sub (by omega)

theorem alike_freeBackward (hm : L.Moves m m') (hp : L.Moves p p') (hn : L.Moves n n') :
    L.Alike (freeBackward m p s n) (freeBackward m' p' s n') (RegionMoves L) := by
  unfold freeBackward
  apply alike_bind (alike_pinuse hp.points)
  intro b b' hb
  cases hb
  apply alike_if Iff.rfl
  · intro _
    exact alike_pure (region_chunk hp s)
  · intro _
    apply alike_bind (alike_load hp.aims)
    intro prevsize prevsize' hps
    cases hps
    have hrest : L.Alike (do
          let prev ← checkPtr (p - prevsize)
          check (← okAddress m prev)
          if prev ≠ (← loadPtr (dv m)) then do
            unlinkChunk m prev prevsize
            return some (prev, addSize s prevsize)
          else if (← load 8 (head n)) &&& inuseBits = inuseBits then do
            store 8 (dvsize m) (addSize s prevsize)
            setFreeWithPinuse prev (addSize s prevsize) n
            return none
          else return some (prev, addSize s prevsize)) (do
          let prev ← checkPtr (p' - prevsize)
          check (← okAddress m' prev)
          if prev ≠ (← loadPtr (dv m')) then do
            unlinkChunk m' prev prevsize
            return some (prev, addSize s prevsize)
          else if (← load 8 (head n')) &&& inuseBits = inuseBits then do
            store 8 (dvsize m') (addSize s prevsize)
            setFreeWithPinuse prev (addSize s prevsize) n'
            return none
          else return some (prev, addSize s prevsize)) (RegionMoves L) := by
      apply alike_bind (alike_checkPtr (aims_prev hp prevsize))
      intro prev prev' hprev
      apply alike_checked hm.points hprev.points
      apply alike_bind (alike_loadPtr (hm.add 32).aims)
      intro d d' hd
      apply alike_if (not_congr (hprev.points.eq_iff hd))
      · intro _
        apply alike_bind (alike_unlinkChunk hm hprev)
        intro _ _ _
        exact alike_pure (region_chunk hprev _)
      · intro _
        apply alike_bind (alike_load (hn.add 8).aims)
        intro h h' hh
        cases hh
        apply alike_if Iff.rfl
        · intro _
          apply alike_bind (alike_store (hm.add 8).aims)
          intro _ _ _
          apply alike_bind (alike_setFreeWithPinuse hprev hn.points)
          intro _ _ _
          exact alike_pure (Or.inl ⟨rfl, rfl⟩)
        · intro _
          exact alike_pure (region_chunk hprev _)
    apply alike_if Iff.rfl
    · intro _
      apply alike_bind (S := RegionMoves L) (R := Done) alike_trap
      intro _ _ _
      exact hrest
    · intro _
      exact hrest

theorem alike_freeBinned (hm : L.Moves m m') (hp : L.Moves p p') :
    L.Alike (freeBinned m p s) (freeBinned m' p' s) Done := by
  unfold freeBinned
  apply alike_if Iff.rfl
  · intro _
    exact alike_insertSmallChunk hm hp.points
  · intro _
    apply alike_bind (alike_insertLargeChunk hm hp)
    intro _ _ _
    apply alike_bind (alike_update (hm.add 56).aims)
    intro _ _ _
    apply alike_bind (alike_load (hm.add 56).aims)
    intro c c' hc
    cases hc
    apply alike_if Iff.rfl
    · intro _
      apply alike_bind (alike_releaseUnusedSegments hm)
      intro _ _ _
      exact alike_pure trivial
    · intro _
      exact alike_pure trivial

theorem alike_freeIntoTop (hG : ParamsMove L) (hm : L.Moves m m') (hp : L.Moves p p') :
    L.Alike (freeIntoTop m p s) (freeIntoTop m' p' s) Done := by
  have htrim : ∀ tsize, L.Alike (do
        if tsize > (← load 8 (trimCheck m)) then do
          let _ ← sysTrim m 0) (do
        if tsize > (← load 8 (trimCheck m')) then do
          let _ ← sysTrim m' 0) Done := by
    intro tsize
    apply alike_bind (alike_load (hm.add 48).aims)
    intro c c' hc
    cases hc
    apply alike_if Iff.rfl
    · intro _
      apply alike_bind (alike_sysTrim hG hm)
      intro _ _ _
      exact alike_pure trivial
    · intro _
      exact alike_pure trivial
  unfold freeIntoTop
  apply alike_bind (alike_update (hm.add 16).aims)
  intro _ _ _
  apply alike_bind (alike_load (hm.add 16).aims)
  intro tsize tsize' hts
  cases hts
  apply alike_bind (alike_storePtr (hm.add 40).aims hp.points)
  intro _ _ _
  apply alike_bind (alike_store (hp.add 8).aims)
  intro _ _ _
  apply alike_bind (alike_loadPtr (hm.add 32).aims)
  intro d d' hd
  apply alike_if (hp.points.eq_iff hd)
  · intro _
    apply alike_bind (alike_storePtr (hm.add 32).aims points_null)
    intro _ _ _
    apply alike_bind (alike_store (hm.add 8).aims)
    intro _ _ _
    exact htrim tsize
  · intro _
    exact htrim tsize

theorem alike_freeForward (hG : ParamsMove L) (hm : L.Moves m m') (hp : L.Moves p p')
    (hn : L.Moves n n') : L.Alike (freeForward m p s n) (freeForward m' p' s n') Done := by
  unfold freeForward
  rw [okNext_moves hp hn]
  apply alike_bind (alike_check _)
  intro _ _ _
  apply alike_bind (alike_pinuse hn.points)
  intro b b' hb
  cases hb
  apply alike_bind (alike_check b)
  intro _ _ _
  apply alike_bind (alike_cinuse hn.points)
  intro c c' hc
  cases hc
  apply alike_if Iff.rfl
  · intro _
    apply alike_bind (alike_setFreeWithPinuse hp hn.points)
    intro _ _ _
    exact alike_freeBinned hm hp
  · intro _
    apply alike_bind (alike_loadPtr (hm.add 40).aims)
    intro t t' ht
    apply alike_if (hn.points.eq_iff ht)
    · intro _
      exact alike_freeIntoTop hG hm hp
    · intro _
      apply alike_bind (alike_loadPtr (hm.add 32).aims)
      intro d d' hd
      apply alike_if (hn.points.eq_iff hd)
      · intro _
        apply alike_bind (alike_update (hm.add 8).aims)
        intro _ _ _
        apply alike_bind (alike_load (hm.add 8).aims)
        intro dsize dsize' hds
        cases hds
        apply alike_bind (alike_storePtr (hm.add 32).aims hp.points)
        intro _ _ _
        exact alike_setSizeAndPinuseOfFreeChunk hp
      · intro _
        apply alike_bind (alike_chunksize hn.points)
        intro nsize nsize' hns
        cases hns
        apply alike_bind (alike_unlinkChunk hm hn)
        intro _ _ _
        apply alike_bind (alike_setSizeAndPinuseOfFreeChunk hp)
        intro _ _ _
        apply alike_bind (alike_loadPtr (hm.add 32).aims)
        intro e e' he
        apply alike_if (hp.points.eq_iff he)
        · intro _
          exact alike_store (hm.add 8).aims
        · intro _
          exact alike_freeBinned hm hp

theorem alike_mspaceFree (hG : ParamsMove L) (hm : L.Moves m m') (hv : MemMoves L v v') :
    L.Alike (mspaceFree m v) (mspaceFree m' v') Done := by
  unfold mspaceFree
  apply alike_if (not_congr hv.zero_iff)
  · intro h0
    have hp := hv.chunk h0
    apply alike_bind (alike_chunksize hp.points)
    intro size size' hsize
    cases hsize
    apply alike_checked hm.points hp.points
    apply alike_bind (alike_cinuse hp.points)
    intro b b' hb
    cases hb
    apply alike_bind (alike_check b)
    intro _ _ _
    apply alike_bind (alike_freeBackward hm hp (hp.add size))
    intro r r' hr
    cases hr with
    | inl hr =>
      obtain ⟨rfl, rfl⟩ := hr
      exact alike_update (hm.add 920).aims
    | inr hr =>
      obtain ⟨q, q', k, hq, rfl, rfl⟩ := hr
      apply alike_bind (alike_freeForward hG hm hq (hp.add size))
      intro _ _ _
      exact alike_update (hm.add 920).aims
  · intro _
    exact alike_pure trivial

/-! Resizing. -/

theorem alike_mmapResize (hG : ParamsMove L) (hp : L.Moves p p') :
    L.Alike (mmapResize p nb) (mmapResize p' nb) L.Points := by
  unfold mmapResize
  apply alike_bind (alike_chunksize hp.points)
  intro oldsize oldsize' hold
  cases hold
  apply alike_if Iff.rfl
  · intro _
    exact alike_pure points_null
  · intro _
    apply alike_param hG (by decide)
    intro granularity
    apply alike_if Iff.rfl
    · intro _
      exact alike_pure hp.points
    · intro _
      exact alike_trap

/-- A chunk, or null, and the memory of a remainder, or null. -/
def PlaceMoves (L : Relocation Globals) (r r' : Nat × Nat) : Prop :=
  L.Points r.1 r'.1 ∧ MemMoves L r.2 r'.2

theorem alike_reallocInPlace (hG : ParamsMove L) (hm : L.Moves m m') (hp : L.Moves p p')
    (hn : L.Moves n n') : L.Alike (reallocInPlace m p s n nb) (reallocInPlace m' p' s n' nb)
      (PlaceMoves L) := by
  unfold reallocInPlace
  apply alike_bind (alike_isMmapped hp.points)
  intro b b' hb
  cases hb
  apply alike_if Iff.rfl
  · intro _
    apply alike_bind (alike_mmapResize hG hp)
    intro r r' hr
    exact alike_pure ⟨hr, memMoves_null⟩
  · intro _
    apply alike_if Iff.rfl
    · intro _
      apply alike_if Iff.rfl
      · intro _
        apply alike_bind (alike_setInuse hp)
        intro _ _ _
        apply alike_bind (alike_setInuse (hp.add nb))
        intro _ _ _
        exact alike_pure ⟨hp.points, memMoves_chunk (hp.add nb)⟩
      · intro _
        exact alike_pure ⟨hp.points, memMoves_null⟩
    · intro _
      apply alike_bind (alike_loadPtr (hm.add 40).aims)
      intro t t' ht
      apply alike_bind (alike_load (hm.add 16).aims)
      intro ts ts' hts
      cases hts
      apply alike_if (and_congr (hn.points.eq_iff ht) Iff.rfl)
      · intro _
        apply alike_bind (alike_setInuse hp)
        intro _ _ _
        apply alike_bind (alike_store ((hp.add nb).add 8).aims)
        intro _ _ _
        apply alike_bind (alike_storePtr (hm.add 40).aims (hp.add nb).points)
        intro _ _ _
        apply alike_bind (alike_store (hm.add 16).aims)
        intro _ _ _
        exact alike_pure ⟨hp.points, memMoves_null⟩
      · intro _
        exact alike_pure ⟨points_null, memMoves_null⟩

theorem alike_internalRealloc (hG : ParamsMove L) (hm : L.Moves m m') (hb : BlockMoves L v v') :
    L.Alike (internalRealloc m v bytes) (internalRealloc m' v' bytes) (MemMoves L) := by
  have hv : MemMoves L v v' := Or.inr hb
  obtain ⟨p, p', hp, rfl, rfl⟩ := hb
  unfold internalRealloc
  apply alike_if Iff.rfl
  · intro _
    exact alike_pure memMoves_null
  · intro _
    apply alike_bind (alike_chunksize hp.points)
    intro oldsize oldsize' hold
    cases hold
    have hn := hp.add oldsize
    apply alike_checked hm.points hp.points
    apply alike_bind (alike_cinuse hp.points)
    intro b b' hb
    cases hb
    apply alike_bind (alike_check b)
    intro _ _ _
    apply alike_bind (R := Done)
    · have heq := okNext_moves hp hn
      simp only [mem2chunk, chunk2mem, Nat.add_sub_cancel] at heq ⊢
      rw [heq]
      exact alike_check _
    intro _ _ _
    apply alike_bind (alike_pinuse hn.points)
    intro b b' hb
    cases hb
    apply alike_bind (alike_check b)
    intro _ _ _
    apply alike_bind (alike_reallocInPlace hG hm hp hn)
    intro r r' hr
    obtain ⟨newp, extra⟩ := r
    obtain ⟨newp', extra'⟩ := r'
    obtain ⟨hnew, hextra⟩ := hr
    apply alike_if (not_congr hnew.zero_iff)
    · intro h0
      have hnew := hnew.moves h0
      apply alike_if (not_congr hextra.zero_iff)
      · intro _
        apply alike_bind (alike_mspaceFree hG hm hextra)
        intro _ _ _
        exact alike_pure (memMoves_chunk hnew)
      · intro _
        exact alike_pure (memMoves_chunk hnew)
    · intro _
      apply alike_bind (alike_mspaceMalloc hm)
      intro w w' hw
      apply alike_if (not_congr hw.zero_iff)
      · intro h0
        apply alike_bind (alike_overheadFor hp.points)
        intro o o' ho
        cases ho
        apply alike_bind (alike_memcpy (hw.moves h0).aims (hp.add 16).aims)
        intro _ _ _
        apply alike_bind (alike_mspaceFree hG hm hv)
        intro _ _ _
        exact alike_pure hw
      · intro _
        exact alike_pure hw

theorem alike_mspaceRealloc (hG : ParamsMove L) (hm : L.Moves m m') (hb : BlockMoves L v v') :
    L.Alike (mspaceRealloc m v bytes) (mspaceRealloc m' v' bytes) (MemMoves L) := by
  have hv : MemMoves L v v' := Or.inr hb
  unfold mspaceRealloc
  apply alike_if hv.zero_iff
  · intro _
    exact alike_mspaceMalloc hm
  · intro _
    exact alike_internalRealloc hG hm hb

theorem alike_mspaceUsableSize (hb : BlockMoves L v v') :
    L.Alike (mspaceUsableSize v) (mspaceUsableSize v') Eq := by
  have hv : MemMoves L v v' := Or.inr hb
  obtain ⟨p, p', hp, rfl, rfl⟩ := hb
  unfold mspaceUsableSize
  apply alike_if hv.zero_iff
  · intro _
    exact alike_pure rfl
  · intro _
    apply alike_bind (alike_cinuse hp.points)
    intro b b' hb
    cases hb
    apply alike_if Iff.rfl
    · intro _
      apply alike_bind (alike_chunksize hp.points)
      intro c c' hc
      cases hc
      apply alike_bind (alike_overheadFor hp.points)
      intro o o' ho
      cases ho
      exact alike_pure rfl
    · intro _
      exact alike_pure rfl

end

end Mmdata.Proofs
