import Mmdata.Proofs.AlikeHeads

namespace Mmdata.Proofs
open Lib Malloc Relocation

section

variable {L : Relocation Globals} {m m' p p' b b' f f' x x' t t' s i k fuel : Nat}

/-! Smallbins. -/

/-- Four links, after the old first chunk of the bin. -/
theorem alike_insertSmallChunk (hm : L.Moves m m') (hp : L.Points p p') :
    L.Alike (insertSmallChunk m p s) (insertSmallChunk m' p' s) Done := by
  have hb := smallbinAt_moves hm (smallIndex s)
  have hrest : ∀ f f', L.Points f f' → L.Alike (do
        storePtr (fd (smallbinAt m (smallIndex s))) p
        storePtr (bk f) p
        storePtr (fd p) f
        storePtr (bk p) (smallbinAt m (smallIndex s))) (do
        storePtr (fd (smallbinAt m' (smallIndex s))) p'
        storePtr (bk f') p'
        storePtr (fd p') f'
        storePtr (bk p') (smallbinAt m' (smallIndex s))) Done := by
    intro f f' hf
    apply alike_bind (alike_storePtr (hb.add 16).aims hp)
    intro _ _ _
    apply alike_bind (alike_storePtr (hf.field (by decide)) hp)
    intro _ _ _
    apply alike_bind (alike_storePtr (hp.field (by decide)) hf)
    intro _ _ _
    exact alike_storePtr (hp.field (by decide)) hb.points
  unfold insertSmallChunk
  apply alike_bind (alike_smallmapIsMarked hm)
  intro c c' hc
  cases hc
  apply alike_if Iff.rfl
  · intro _
    apply alike_bind (alike_loadPtr (hb.add 16).aims)
    intro f f' hf
    exact alike_checked hm.points hf (hrest f f' hf)
  · intro _
    apply alike_bind (alike_markSmallmap hm)
    intro _ _ _
    exact hrest _ _ hb.points

theorem alike_okLink (hm : L.Moves m m') (hf : L.Points f f') :
    L.Alike (okLink m i f) (okLink m' i f') Eq := by
  unfold okLink
  apply alike_if (hf.eq_iff (smallbinAt_moves hm i).points)
  · intro _
    exact alike_pure rfl
  · intro _
    exact alike_okAddress hm.points hf

theorem alike_unlinkSmallChunk (hm : L.Moves m m') (hp : L.Points p p') :
    L.Alike (unlinkSmallChunk m p s) (unlinkSmallChunk m' p' s) Done := by
  unfold unlinkSmallChunk
  apply alike_bind (alike_loadPtr (hp.field (by decide)))
  intro f f' hf
  apply alike_bind (alike_loadPtr (hp.field (by decide)))
  intro b b' hb
  apply alike_if (hf.eq_iff hb)
  · intro _
    exact alike_clearSmallmap hm
  · intro _
    apply alike_bind (alike_okLink hm hf)
    intro c c' hc
    cases hc
    apply alike_bind (alike_check c)
    intro _ _ _
    apply alike_bind (alike_okLink hm hb)
    intro d d' hd
    cases hd
    apply alike_bind (alike_check d)
    intro _ _ _
    apply alike_bind (alike_storePtr (hf.field (by decide)) hb)
    intro _ _ _
    exact alike_storePtr (hb.field (by decide)) hf

theorem alike_unlinkFirstSmallChunk (hm : L.Moves m m') (hb : L.Points b b')
    (hp : L.Points p p') :
    L.Alike (unlinkFirstSmallChunk m b p i) (unlinkFirstSmallChunk m' b' p' i) Done := by
  unfold unlinkFirstSmallChunk
  apply alike_bind (alike_loadPtr (hp.field (by decide)))
  intro f f' hf
  apply alike_if (hb.eq_iff hf)
  · intro _
    exact alike_clearSmallmap hm
  · intro _
    apply alike_checked hm.points hf
    apply alike_bind (alike_storePtr (hb.field (by decide)) hf)
    intro _ _ _
    exact alike_storePtr (hf.field (by decide)) hb

theorem alike_replaceDv (hm : L.Moves m m') (hp : L.Points p p') :
    L.Alike (replaceDv m p s) (replaceDv m' p' s) Done := by
  have hrest : L.Alike (do store 8 (dvsize m) s; storePtr (dv m) p)
      (do store 8 (dvsize m') s; storePtr (dv m') p') Done := by
    apply alike_bind (alike_store (hm.add 8).aims)
    intro _ _ _
    exact alike_storePtr (hm.add 32).aims hp
  unfold replaceDv
  apply alike_bind (alike_load (hm.add 8).aims)
  intro v v' hv
  cases hv
  apply alike_if Iff.rfl
  · intro _
    apply alike_bind (alike_loadPtr (hm.add 32).aims)
    intro d d' hd
    apply alike_bind (alike_insertSmallChunk hm hd)
    intro _ _ _
    exact hrest
  · intro _
    exact hrest

/-! Trees. -/

/-- One step down, on the same side. -/
theorem alike_insertLargeLoop (hm : L.Moves m m') (hx : L.Points x x') (ht : L.Points t t') :
    L.Alike (insertLargeLoop m x s fuel t k) (insertLargeLoop m' x' s fuel t' k) Done := by
  induction fuel generalizing t t' k with
  | zero => exact alike_trap
  | succ fuel ih =>
    unfold insertLargeLoop
    cases ht with
    | inl h0 =>
      obtain ⟨rfl, rfl⟩ := h0
      apply alike_of_faults
      apply faults_bind
      apply faults_bind
      exact faults_load (Nat.lt_of_lt_of_le (by decide) L.low)
    | inr ht =>
      apply alike_bind (alike_chunksize ht.points)
      intro c c' hc
      cases hc
      apply alike_if Iff.rfl
      · intro _
        have hslot := child_moves ht ((k >>> 63) &&& 1)
        apply alike_bind (alike_loadPtr hslot.aims)
        intro u u' hu
        apply alike_if (not_congr hu.zero_iff)
        · intro _
          exact ih hu
        · intro _
          apply alike_checked hm.points hslot.points
          apply alike_bind (alike_storePtr hslot.aims hx)
          intro _ _ _
          apply alike_bind (alike_storePtr (hx.field (by decide)) ht.points)
          intro _ _ _
          apply alike_bind (alike_storePtr (hx.field (by decide)) hx)
          intro _ _ _
          exact alike_storePtr (hx.field (by decide)) hx
      · intro _
        apply alike_bind (alike_loadPtr (ht.add 16).aims)
        intro f f' hf
        apply alike_checked hm.points ht.points
        apply alike_checked hm.points hf
        apply alike_bind (alike_storePtr (hf.field (by decide)) hx)
        intro _ _ _
        apply alike_bind (alike_storePtr (ht.add 16).aims hx)
        intro _ _ _
        apply alike_bind (alike_storePtr (hx.field (by decide)) hf)
        intro _ _ _
        apply alike_bind (alike_storePtr (hx.field (by decide)) ht.points)
        intro _ _ _
        exact alike_storePtr (hx.field (by decide)) points_null

theorem alike_insertLargeChunk (hm : L.Moves m m') (hx : L.Moves x x') :
    L.Alike (insertLargeChunk m x s) (insertLargeChunk m' x' s) Done := by
  have hh := treebinAt_moves hm (computeTreeIndex s)
  unfold insertLargeChunk
  apply alike_bind (alike_store (hx.add 56).aims)
  intro _ _ _
  apply alike_bind (alike_storePtr (child_moves hx 1).aims points_null)
  intro _ _ _
  apply alike_bind (alike_storePtr (child_moves hx 0).aims points_null)
  intro _ _ _
  apply alike_bind (alike_treemapIsMarked hm)
  intro c c' hc
  cases hc
  apply alike_if Iff.rfl
  · intro _
    apply alike_bind (alike_loadPtr hh.aims)
    intro t t' ht
    exact alike_insertLargeLoop hm hx.points ht
  · intro _
    apply alike_bind (alike_markTreemap hm)
    intro _ _ _
    apply alike_bind (alike_storePtr hh.aims hx.points)
    intro _ _ _
    apply alike_bind (alike_loadPtr hh.aims)
    intro r r' hr
    apply alike_bind (alike_storePtr (hx.add 48).aims hr)
    intro _ _ _
    apply alike_bind (alike_storePtr (hx.add 24).aims hx.points)
    intro _ _ _
    exact alike_storePtr (hx.add 16).aims hx.points

/-- A node and the slot that holds it. -/
def PairMoves (L : Relocation Globals) (r r' : Nat × Nat) : Prop :=
  L.Moves r.1 r'.1 ∧ L.Moves r.2 r'.2

theorem alike_findLeaf (ht : L.Moves t t') (hp : L.Moves p p') :
    L.Alike (findLeaf fuel t p) (findLeaf fuel t' p') (PairMoves L) := by
  induction fuel generalizing t t' p p' with
  | zero => exact alike_trap
  | succ fuel ih =>
    unfold findLeaf
    apply alike_bind (alike_loadPtr (child_moves ht 1).aims)
    intro c c' hc
    apply alike_if (not_congr hc.zero_iff)
    · intro h0
      exact ih (hc.moves h0) (child_moves ht 1)
    · intro _
      apply alike_bind (alike_loadPtr (child_moves ht 0).aims)
      intro d d' hd
      apply alike_if (not_congr hd.zero_iff)
      · intro h0
        exact ih (hd.moves h0) (child_moves ht 0)
      · intro _
        exact alike_pure ⟨ht, hp⟩

/-- What follows the choice between the children. -/
theorem alike_takeLeaf {r0 r0' r1 r1' : Nat} (hm : L.Moves m m') (hx : L.Moves x x')
    (h1 : L.Points r1 r1') (h0 : L.Points r0 r0') : L.Alike
      (if r0 ≠ 0 then do
        let (r, rp) ← findLeaf loopFuel r0 (if r1 ≠ 0 then child x 1 else child x 0)
        check (← okAddress m rp)
        storePtr rp 0
        return r
      else return 0)
      (if r0' ≠ 0 then do
        let (r, rp) ← findLeaf loopFuel r0' (if r1' ≠ 0 then child x' 1 else child x' 0)
        check (← okAddress m' rp)
        storePtr rp 0
        return r
      else return 0) L.Points := by
  apply alike_if (not_congr h0.zero_iff)
  · intro hne
    have hslot : L.Moves (if r1 ≠ 0 then child x 1 else child x 0)
        (if r1' ≠ 0 then child x' 1 else child x' 0) := by
      by_cases hz : r1 = 0
      · rw [if_neg (not_not.mpr hz), if_neg (not_not.mpr (h1.zero_iff.mp hz))]
        exact child_moves hx 0
      · rw [if_pos hz, if_pos fun hz' => hz (h1.zero_iff.mpr hz')]
        exact child_moves hx 1
    apply alike_bind (alike_findLeaf (h0.moves hne) hslot)
    intro r r' hr
    apply alike_checked hm.points hr.2.points
    apply alike_bind (alike_storePtr hr.2.aims points_null)
    intro _ _ _
    exact alike_pure hr.1.points
  · intro _
    exact alike_pure points_null

theorem alike_detachReplacement (hm : L.Moves m m') (hx : L.Moves x x') :
    L.Alike (detachReplacement m x) (detachReplacement m' x') L.Points := by
  unfold detachReplacement
  apply alike_bind (alike_loadPtr (hx.add 24).aims)
  intro b b' hb
  apply alike_if (not_congr (hb.eq_iff hx.points))
  · intro _
    apply alike_bind (alike_loadPtr (hx.add 16).aims)
    intro f f' hf
    apply alike_checked hm.points hf
    apply alike_bind (alike_storePtr (hf.field (by decide)) hb)
    intro _ _ _
    apply alike_bind (alike_storePtr (hb.field (by decide)) hf)
    intro _ _ _
    exact alike_pure hb
  · intro _
    apply alike_bind (alike_loadPtr (child_moves hx 1).aims)
    intro r1 r1' h1
    apply alike_if (not_congr h1.zero_iff)
    · intro _
      exact alike_takeLeaf hm hx h1 h1
    · intro _
      apply alike_bind (alike_loadPtr (child_moves hx 0).aims)
      intro r0 r0' h0
      exact alike_takeLeaf hm hx h1 h0

theorem alike_relinkParent {xp xp' r r' : Nat} (hm : L.Moves m m') (hx : L.Moves x x')
    (hxp : L.Points xp xp') (hr : L.Points r r') :
    L.Alike (relinkParent m x xp r) (relinkParent m' x' xp' r') Done := by
  unfold relinkParent
  apply alike_bind (alike_load (hx.add 56).aims)
  intro i i' hi
  cases hi
  have hh := treebinAt_moves hm i
  apply alike_bind (alike_loadPtr hh.aims)
  intro t t' ht
  apply alike_if (hx.points.eq_iff ht)
  · intro _
    apply alike_bind (alike_storePtr hh.aims hr)
    intro _ _ _
    apply alike_if hr.zero_iff
    · intro _
      exact alike_clearTreemap hm
    · intro _
      exact alike_pure trivial
  · intro _
    apply alike_checked hm.points hxp
    apply alike_bind (alike_loadPtr (hxp.field (k := 32) (by decide)))
    intro c c' hc
    apply alike_if (hc.eq_iff hx.points)
    · intro _
      exact alike_storePtr (hxp.field (k := 32) (by decide)) hr
    · intro _
      exact alike_storePtr (hxp.field (k := 40) (by decide)) hr

theorem alike_relinkChild {r r' : Nat} (hm : L.Moves m m') (hx : L.Moves x x')
    (hr : L.Moves r r') : L.Alike (relinkChild m x r i) (relinkChild m' x' r' i) Done := by
  unfold relinkChild
  apply alike_bind (alike_loadPtr (child_moves hx i).aims)
  intro c c' hc
  apply alike_if (not_congr hc.zero_iff)
  · intro _
    apply alike_checked hm.points hc
    apply alike_bind (alike_storePtr (child_moves hr i).aims hc)
    intro _ _ _
    exact alike_storePtr (hc.field (by decide)) hr.points
  · intro _
    exact alike_pure trivial

theorem alike_relinkChildren {xp xp' r r' : Nat} (hm : L.Moves m m') (hx : L.Moves x x')
    (hxp : L.Points xp xp') (hr : L.Points r r') :
    L.Alike (relinkChildren m x xp r) (relinkChildren m' x' xp' r') Done := by
  unfold relinkChildren
  apply alike_if (not_congr hr.zero_iff)
  · intro h0
    have hr := hr.moves h0
    apply alike_checked hm.points hr.points
    apply alike_bind (alike_storePtr (hr.add 48).aims hxp)
    intro _ _ _
    apply alike_bind (alike_relinkChild hm hx hr)
    intro _ _ _
    exact alike_relinkChild hm hx hr
  · intro _
    exact alike_pure trivial

theorem alike_unlinkLargeChunk (hm : L.Moves m m') (hx : L.Moves x x') :
    L.Alike (unlinkLargeChunk m x) (unlinkLargeChunk m' x') Done := by
  unfold unlinkLargeChunk
  apply alike_bind (alike_loadPtr (hx.add 48).aims)
  intro xp xp' hxp
  apply alike_bind (alike_detachReplacement hm hx)
  intro r r' hr
  apply alike_if (not_congr hxp.zero_iff)
  · intro _
    apply alike_bind (alike_relinkParent hm hx hxp hr)
    intro _ _ _
    exact alike_relinkChildren hm hx hxp hr
  · intro _
    exact alike_pure trivial

theorem alike_insertChunk (hm : L.Moves m m') (hp : L.Moves p p') :
    L.Alike (insertChunk m p s) (insertChunk m' p' s) Done := by
  unfold insertChunk
  apply alike_if Iff.rfl
  · intro _
    exact alike_insertSmallChunk hm hp.points
  · intro _
    exact alike_insertLargeChunk hm hp

theorem alike_unlinkChunk (hm : L.Moves m m') (hp : L.Moves p p') :
    L.Alike (unlinkChunk m p s) (unlinkChunk m' p' s) Done := by
  unfold unlinkChunk
  apply alike_if Iff.rfl
  · intro _
    exact alike_unlinkSmallChunk hm hp.points
  · intro _
    exact alike_unlinkLargeChunk hm hp

end

end Mmdata.Proofs
