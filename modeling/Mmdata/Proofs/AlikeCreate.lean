import Mmdata.Proofs.AlikeTrim

namespace Mmdata.Proofs
open Lib Malloc Relocation

/-- The parameters may be aimed at an address and at where it moves. -/
def AimsMove (L : Relocation Globals) : Prop :=
  ∀ g g' p p', L.glob g g' → L.Moves p p' → L.glob { g with pmparams := p } { g' with pmparams := p' }

section

variable {L : Relocation Globals} {m m' p p' base base' n k cap : Nat}

theorem alike_initMparams (hG : ParamsMove L) : L.Alike initMparams initMparams Done := by
  unfold initMparams
  apply alike_bind alike_globals
  intro g g' hg
  obtain ⟨hpage, hparam⟩ := hG g g' hg
  apply alike_bind (alike_load (hparam 8 (by decide)))
  intro v v' hv
  cases hv
  apply alike_if Iff.rfl
  · intro _
    -- what follows the choice of the magic number
    have hrest : L.Alike (do
          store 8 (paramPageSize g.pmparams) g.pageSize
          store 8 (paramGranularity g.pmparams) defaultGranularity
          check (defaultGranularity &&& (defaultGranularity - 1) = 0)
          check (g.pageSize &&& subSize g.pageSize 1 = 0)) (do
          store 8 (paramPageSize g'.pmparams) g'.pageSize
          store 8 (paramGranularity g'.pmparams) defaultGranularity
          check (defaultGranularity &&& (defaultGranularity - 1) = 0)
          check (g'.pageSize &&& subSize g'.pageSize 1 = 0)) Done := by
      rw [← hpage]
      apply alike_bind (alike_store (hparam 8 (by decide)))
      intro _ _ _
      apply alike_bind (alike_store (hparam 16 (by decide)))
      intro _ _ _
      apply alike_bind (alike_check _)
      intro _ _ _
      exact alike_check _
    apply alike_bind (alike_store (hparam 24 (by decide)))
    intro _ _ _
    apply alike_bind (alike_store (hparam 32 (by decide)))
    intro _ _ _
    apply alike_bind (alike_store (hparam 40 (by decide)))
    intro _ _ _
    apply alike_bind (alike_load (hparam 0 (by decide)))
    intro w w' hw
    cases hw
    apply alike_if Iff.rfl
    · intro _
      apply alike_bind (alike_store (hparam 0 (by decide)))
      intro _ _ _
      exact hrest
    · intro _
      exact hrest
  · intro _
    exact alike_pure trivial

theorem alike_forLoop {f g : Nat → Code Unit} (h : ∀ i, L.Alike (f i) (g i) Done) :
    L.Alike (forLoop f n k) (forLoop g n k) Done := by
  induction n generalizing k with
  | zero => exact alike_pure trivial
  | succ n ih =>
    unfold forLoop
    apply alike_bind (h k)
    intro _ _ _
    exact ih

theorem alike_initBins (hm : L.Moves m m') : L.Alike (initBins m) (initBins m') Done := by
  apply alike_forLoop
  intro i
  have hb := smallbinAt_moves hm i
  apply alike_bind (alike_storePtr (hb.add 24).aims hb.points)
  intro _ _ _
  exact alike_storePtr (hb.add 16).aims hb.points

theorem alike_initTop (hG : ParamsMove L) (hm : L.Moves m m') (hp : L.Moves p p') :
    L.Alike (initTop m p n) (initTop m' p' n) Done := by
  unfold initTop
  rw [← alignOffset_moves hp]
  generalize alignOffset (chunk2mem p) = d
  have hp := hp.add d
  apply alike_bind (alike_storePtr (hm.add 40).aims hp.points)
  intro _ _ _
  apply alike_bind (alike_store (hm.add 16).aims)
  intro _ _ _
  apply alike_bind (alike_store (hp.add 8).aims)
  intro _ _ _
  apply alike_bind (alike_store ((hp.add (subSize n d)).add 8).aims)
  intro _ _ _
  apply alike_param hG (by decide)
  intro v
  exact alike_store (hm.add 48).aims

theorem alike_initUserMstate {first : Nat} (hG : ParamsMove L) (hb : L.Moves base base') :
    L.Alike (initUserMstate base cap first) (initUserMstate base' cap first) L.Moves := by
  have hmsp := alignAsChunk_moves hb
  have hm : L.Moves (chunk2mem (alignAsChunk base)) (chunk2mem (alignAsChunk base')) := hmsp.add 16
  have hseg := hm.add 880
  unfold initUserMstate
  apply alike_if Iff.rfl
  · intro _
    exact alike_pure hm
  intro _
  apply alike_bind (alike_memset hm.aims)
  intro _ _ _
  apply alike_bind (alike_store (hmsp.add 8).aims)
  intro _ _ _
  apply alike_bind (alike_storePtr (hm.add 24).aims hb.points)
  intro _ _ _
  apply alike_bind (alike_storePtr hseg.aims hb.points)
  intro _ _ _
  apply alike_bind (alike_storePtr (hseg.add 16).aims points_null)
  intro _ _ _
  apply alike_bind (alike_store (hm.add 864).aims)
  intro _ _ _
  apply alike_bind (alike_store (hm.add 856).aims)
  intro _ _ _
  apply alike_bind (alike_store (hseg.add 8).aims)
  intro _ _ _
  apply alike_param hG (o := 0) (by decide)
  intro _
  apply alike_bind (alike_store (hm.add 64).aims)
  intro _ _ _
  apply alike_bind (alike_store (hm.add 56).aims)
  intro _ _ _
  apply alike_param hG (by decide)
  intro _
  apply alike_bind (alike_store (hm.add 872).aims)
  intro _ _ _
  apply alike_bind (alike_storePtr (hm.add 912).aims points_null)
  intro _ _ _
  apply alike_bind (alike_store (hm.add 920).aims)
  intro _ _ _
  apply alike_bind (alike_storePtr (hm.add 32).aims points_null)
  intro _ _ _
  apply alike_bind (alike_forLoop fun i => alike_storePtr (treebinAt_moves hm i).aims points_null)
  intro _ _ _
  apply alike_bind (alike_update (hm.add 872).aims)
  intro _ _ _
  apply alike_bind (alike_initBins hm)
  intro _ _ _
  apply alike_bind (alike_chunksize hmsp.points)
  intro c c' hc
  cases hc
  have hmn := hmsp.add c
  have hsize : subSize (base + cap) (alignAsChunk base + c) =
      subSize (base' + cap) (alignAsChunk base' + c) := by
    have h1 := hb.2
    have h2 := hmsp.2
    unfold subSize
    rw [show base + cap + 2 ^ 64 - (alignAsChunk base + c) =
      base' + cap + 2 ^ 64 - (alignAsChunk base' + c) by omega]
  apply alike_bind (R := Done)
  · simp only [hsize]
    exact alike_initTop hG hm hmn
  intro _ _ _
  exact alike_pure hm

/-- Creation at an address, and where it moves. -/
theorem alike_createMspaceWithBase {locked recreate : Nat} (hG : ParamsMove L) (hA : AimsMove L)
    (hb : L.Moves base base') : L.Alike (createMspaceWithBase base cap locked recreate)
      (createMspaceWithBase base' cap locked recreate) L.Points := by
  have hbase := hb.add 48
  -- what follows the initialisation of the parameters
  have hrest : ∀ first : Nat, L.Alike (do
        if cap > mstateSize + topFootSize then do
          let pageSize ← load 8 (paramPageSize (← globals).pmparams)
          if cap < subSize 0 (addSize (mstateSize + topFootSize) pageSize) then do
            let m ← initUserMstate (base + mallocParamsSize) cap first
            if first = 0 then return m
            store 4 (segFlags (seg m)) externBit
            update 4 (mflags m) fun w => if locked ≠ 0 then w ||| 0 else clearBits w 0
            return m
          else return 0
        else return 0) (do
        if cap > mstateSize + topFootSize then do
          let pageSize ← load 8 (paramPageSize (← globals).pmparams)
          if cap < subSize 0 (addSize (mstateSize + topFootSize) pageSize) then do
            let m ← initUserMstate (base' + mallocParamsSize) cap first
            if first = 0 then return m
            store 4 (segFlags (seg m)) externBit
            update 4 (mflags m) fun w => if locked ≠ 0 then w ||| 0 else clearBits w 0
            return m
          else return 0
        else return 0) L.Points := by
    intro first
    apply alike_if Iff.rfl
    · intro _
      apply alike_param hG (by decide)
      intro pageSize
      apply alike_if Iff.rfl
      · intro _
        apply alike_bind (alike_initUserMstate hG hbase)
        intro m m' hm
        apply alike_if Iff.rfl
        · intro _
          exact alike_pure hm.points
        · intro _
          apply alike_bind (alike_store ((hm.add 880).add 24).aims)
          intro _ _ _
          apply alike_bind (alike_update (hm.add 872).aims)
          intro _ _ _
          exact alike_pure hm.points
      · intro _
        exact alike_pure points_null
    · intro _
      exact alike_pure points_null
  unfold createMspaceWithBase
  apply alike_bind alike_globals
  intro g g' hg
  apply alike_bind (alike_setGlobals (hA g g' base base' hg hb))
  intro _ _ _
  apply alike_bind (alike_load hb.aims)
  intro v v' hv
  cases hv
  apply alike_if Iff.rfl
  · intro _
    apply alike_bind (alike_initMparams hG)
    intro _ _ _
    exact hrest _
  · intro _
    exact hrest _

end

end Mmdata.Proofs
