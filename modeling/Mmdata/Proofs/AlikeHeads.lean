import Mmdata.Lib.Relocation
import Mmdata.Malloc.Mspace

namespace Mmdata.Proofs
open Lib Malloc Relocation

/-- The parameters are reached alike. -/
def ParamsMove (L : Relocation Globals) : Prop :=
  ∀ g g', L.glob g g' → g.pageSize = g'.pageSize ∧
    ∀ o < mallocParamsSize, L.Aims (g.pmparams + o) (g'.pmparams + o)

/-- Whatever is returned. -/
def Done {α β : Type} (_ : α) (_ : β) : Prop := True

section

variable {L : Relocation Globals} {m m' p p' n n' a a' s i : Nat}

theorem alike_chunksize (hp : L.Points p p') : L.Alike (chunksize p) (chunksize p') Eq := by
  unfold chunksize
  apply alike_bind (alike_load (hp.field (by decide)))
  intro v v' hv
  cases hv
  exact alike_pure rfl

theorem alike_cinuse (hp : L.Points p p') : L.Alike (cinuse p) (cinuse p') Eq := by
  unfold cinuse
  apply alike_bind (alike_load (hp.field (by decide)))
  intro v v' hv
  cases hv
  exact alike_pure rfl

theorem alike_pinuse (hp : L.Points p p') : L.Alike (pinuse p) (pinuse p') Eq := by
  unfold pinuse
  apply alike_bind (alike_load (hp.field (by decide)))
  intro v v' hv
  cases hv
  exact alike_pure rfl

theorem alike_clearPinuse (hp : L.Points p p') : L.Alike (clearPinuse p) (clearPinuse p') Done :=
  alike_update (hp.field (by decide))

theorem alike_setFoot (hp : L.Moves p p') : L.Alike (setFoot p s) (setFoot p' s) Done :=
  alike_store (hp.add s).aims

theorem alike_setSizeAndPinuseOfFreeChunk (hp : L.Moves p p') :
    L.Alike (setSizeAndPinuseOfFreeChunk p s) (setSizeAndPinuseOfFreeChunk p' s) Done := by
  unfold setSizeAndPinuseOfFreeChunk
  apply alike_bind (alike_store (hp.add 8).aims)
  intro _ _ _
  exact alike_setFoot hp

theorem alike_setFreeWithPinuse (hp : L.Moves p p') (hn : L.Points n n') :
    L.Alike (setFreeWithPinuse p s n) (setFreeWithPinuse p' s n') Done := by
  unfold setFreeWithPinuse
  apply alike_bind (alike_clearPinuse hn)
  intro _ _ _
  exact alike_setSizeAndPinuseOfFreeChunk hp

theorem alike_setInuse (hp : L.Moves p p') : L.Alike (setInuse p s) (setInuse p' s) Done := by
  unfold setInuse
  apply alike_bind (alike_loadLow (hp.add 8).aims)
  intro b b' hb
  cases hb
  apply alike_bind (alike_store (hp.add 8).aims)
  intro _ _ _
  exact alike_setLowBit ((hp.add s).add 8).aims

theorem alike_setInuseAndPinuse (hp : L.Moves p p') :
    L.Alike (setInuseAndPinuse p s) (setInuseAndPinuse p' s) Done := by
  unfold setInuseAndPinuse
  apply alike_bind (alike_store (hp.add 8).aims)
  intro _ _ _
  exact alike_setLowBit ((hp.add s).add 8).aims

theorem alike_setSizeAndPinuseOfInuseChunk (hp : L.Points p p') :
    L.Alike (setSizeAndPinuseOfInuseChunk p s) (setSizeAndPinuseOfInuseChunk p' s) Done :=
  alike_store (hp.field (by decide))

theorem alike_isMmapped (hp : L.Points p p') : L.Alike (isMmapped p) (isMmapped p') Eq := by
  unfold isMmapped
  apply alike_bind (alike_pinuse hp)
  intro b b' hb
  cases hb
  apply alike_if Iff.rfl
  · intro _
    exact alike_pure rfl
  · intro _
    apply alike_bind (alike_load (hp.field (k := 0) (by decide)))
    intro v v' hv
    cases hv
    exact alike_pure rfl

theorem alike_overheadFor (hp : L.Points p p') : L.Alike (overheadFor p) (overheadFor p') Eq := by
  unfold overheadFor
  apply alike_bind (alike_isMmapped hp)
  intro b b' hb
  cases hb
  exact alike_pure rfl

theorem alike_okAddress (hm : L.Points m m') (ha : L.Points a a') :
    L.Alike (okAddress m a) (okAddress m' a') Eq := by
  unfold okAddress
  apply alike_bind (alike_loadPtr (hm.field (by decide)))
  intro t t' ht
  apply alike_pure
  rw [decide_eq_decide]
  exact ht.le_iff ha

theorem okNext_moves (hp : L.Moves p p') (hn : L.Moves n n') : okNext p n = okNext p' n' := by
  unfold okNext
  rw [decide_eq_decide]
  have hle := hn.le_iff hp
  omega

theorem alike_check (b : Bool) : L.Alike (check b) (check b) Done := by
  unfold check
  apply alike_if Iff.rfl
  · intro _
    exact alike_pure trivial
  · intro _
    exact alike_trap

/-- A check of an address, and what follows it. -/
theorem alike_checked {α β : Type} {x : Code α} {y : Code β} {R : α → β → Prop}
    (hm : L.Points m m') (ha : L.Points a a') (h : L.Alike x y R) :
    L.Alike (okAddress m a >>= fun b => check b >>= fun _ => x)
      (okAddress m' a' >>= fun b => check b >>= fun _ => y) R := by
  apply alike_bind (alike_okAddress hm ha)
  intro b b' hb
  cases hb
  exact alike_bind (alike_check b) fun _ _ _ => h

/-! Bin maps. -/

theorem alike_markSmallmap (hm : L.Moves m m') :
    L.Alike (markSmallmap m i) (markSmallmap m' i) Done := alike_update hm.aims

theorem alike_clearSmallmap (hm : L.Moves m m') :
    L.Alike (clearSmallmap m i) (clearSmallmap m' i) Done := alike_update hm.aims

theorem alike_smallmapIsMarked (hm : L.Moves m m') :
    L.Alike (smallmapIsMarked m i) (smallmapIsMarked m' i) Eq := by
  unfold smallmapIsMarked
  apply alike_bind (alike_load hm.aims)
  intro v v' hv
  cases hv
  exact alike_pure rfl

theorem alike_markTreemap (hm : L.Moves m m') :
    L.Alike (markTreemap m i) (markTreemap m' i) Done := alike_update (hm.add 4).aims

theorem alike_clearTreemap (hm : L.Moves m m') :
    L.Alike (clearTreemap m i) (clearTreemap m' i) Done := alike_update (hm.add 4).aims

theorem alike_treemapIsMarked (hm : L.Moves m m') :
    L.Alike (treemapIsMarked m i) (treemapIsMarked m' i) Eq := by
  unfold treemapIsMarked
  apply alike_bind (alike_load (hm.add 4).aims)
  intro v v' hv
  cases hv
  exact alike_pure rfl

theorem smallbinAt_moves (hm : L.Moves m m') (i : Nat) :
    L.Moves (smallbinAt m i) (smallbinAt m' i) := (hm.add 72).add (16 * i)

theorem treebinAt_moves (hm : L.Moves m m') (i : Nat) :
    L.Moves (treebinAt m i) (treebinAt m' i) := (hm.add 600).add (8 * i)

theorem child_moves (hp : L.Moves p p') (i : Nat) : L.Moves (child p i) (child p' i) :=
  (hp.add 32).add (8 * i)

end

end Mmdata.Proofs
