import Mmdata.Proofs.AlikeBins

namespace Mmdata.Proofs
open Lib Malloc Relocation

section

variable {L : Relocation Globals} {m m' p p' a a' t t' v v' s nb k n fuel : Nat}

/-- An address in the null object is out of reach. -/
theorem low_src (h : k < 64) : 0 + k < L.src := by
  have hlow := L.low
  omega

theorem faults_chunksize_null : L.Faults (chunksize 0) :=
  faults_bind (faults_load (low_src (by decide)))

/-! Segments and trimming. -/

theorem alike_segmentHolding (ha : L.Moves a a') (hp : L.Points p p') :
    L.Alike (segmentHolding a fuel p) (segmentHolding a' fuel p') L.Points := by
  induction fuel generalizing p p' with
  | zero => exact alike_trap
  | succ fuel ih =>
    unfold segmentHolding
    apply alike_bind (alike_loadPtr (hp.field (k := 0) (by decide)))
    intro b b' hb
    apply alike_bind (alike_checkPtr (hb.field (k := 0) (by decide)))
    intro base base' hbase
    apply alike_bind (alike_load (hp.field (by decide)))
    intro size size' hsize
    cases hsize
    have hin : (base ≤ a ∧ a < base + size) ↔ (base' ≤ a' ∧ a' < base' + size) := by
      have h1 := hbase.2
      have h2 := ha.2
      omega
    apply alike_if hin
    · intro _
      exact alike_pure hp
    · intro _
      apply alike_bind (alike_loadPtr (hp.field (by decide)))
      intro q q' hq
      apply alike_if hq.zero_iff
      · intro _
        exact alike_pure points_null
      · intro _
        exact ih hq

theorem alignOffset_moves (hp : L.Moves p p') :
    alignOffset (chunk2mem p) = alignOffset (chunk2mem p') := by
  have hmod := (hp.add 16).align
  have hand : chunk2mem p &&& chunkAlignMask = chunk2mem p' &&& chunkAlignMask := by
    simp only [chunkAlignMask, chunk2mem, Nat.and_two_pow_sub_one_eq_mod _ 3, hmod]
  unfold alignOffset
  rw [hand]

theorem alignAsChunk_moves (hp : L.Moves p p') : L.Moves (alignAsChunk p) (alignAsChunk p') := by
  unfold alignAsChunk
  rw [← alignOffset_moves hp]
  exact hp.add _

theorem alike_releaseLoop (hp : L.Points p p') :
    L.Alike (releaseLoop m fuel p n) (releaseLoop m' fuel p' n) Eq := by
  induction fuel generalizing p p' n with
  | zero => exact alike_trap
  | succ fuel ih =>
    unfold releaseLoop
    apply alike_if hp.zero_iff
    · intro _
      exact alike_pure rfl
    · intro _
      apply alike_bind (alike_loadPtr (hp.field (k := 0) (by decide)))
      intro base base' hbase
      apply alike_bind (alike_load (hp.field (by decide)))
      intro size size' hsize
      cases hsize
      apply alike_bind (alike_loadPtr (hp.field (by decide)))
      intro q q' hq
      apply alike_bind (alike_load (hp.field (by decide)))
      intro flags flags' hflags
      cases hflags
      apply alike_if Iff.rfl
      · intro _
        cases hbase with
        | inl h0 =>
          obtain ⟨rfl, rfl⟩ := h0
          exact alike_of_faults (faults_bind faults_chunksize_null)
        | inr hbase =>
          have hc := alignAsChunk_moves hbase
          apply alike_bind (alike_chunksize hc.points)
          intro psize psize' hpsize
          cases hpsize
          apply alike_bind (alike_cinuse hc.points)
          intro c c' hcc
          cases hcc
          have hend : decide (alignAsChunk base + psize ≥ base + size - topFootSize) =
              decide (alignAsChunk base' + psize ≥ base' + size - topFootSize) := by
            rw [decide_eq_decide]
            have h1 := hbase.2
            have h2 := hc.2
            omega
          rw [hend]
          apply alike_if Iff.rfl
          · intro _
            apply alike_bind (S := Eq) (R := Done) alike_trap
            intro _ _ _
            exact ih hq
          · intro _
            exact ih hq
      · intro _
        exact ih hq

theorem alike_releaseUnusedSegments (hm : L.Moves m m') :
    L.Alike (releaseUnusedSegments m) (releaseUnusedSegments m') Eq := by
  unfold releaseUnusedSegments
  apply alike_bind (alike_loadPtr ((hm.add 880).add 16).aims)
  intro sp sp' hsp
  apply alike_bind (alike_releaseLoop hsp)
  intro n n' hn
  cases hn
  apply alike_bind (alike_store (hm.add 56).aims)
  intro _ _ _
  exact alike_pure rfl

/-- A parameter is the same in both. -/
theorem alike_param (hG : ParamsMove L) {o : Nat} (ho : o < mallocParamsSize) {α β : Type}
    {f : Nat → Code α} {g : Nat → Code β} {R : α → β → Prop}
    (h : ∀ v, L.Alike (f v) (g v) R) :
    L.Alike (globals >>= fun G => load k (G.pmparams + o) >>= f)
      (globals >>= fun G => load k (G.pmparams + o) >>= g) R := by
  apply alike_bind alike_globals
  intro G G' hg
  apply alike_bind (alike_load ((hG G G' hg).2 o ho))
  intro w w' hw
  cases hw
  exact h w

theorem alike_sysTrim (hG : ParamsMove L) (hm : L.Moves m m') :
    L.Alike (sysTrim m s) (sysTrim m' s) Eq := by
  have hseg : L.Moves (seg m) (seg m') := hm.add 880
  -- what follows once no segment has been shrunk
  have hrest : L.Alike (do
        let released ← releaseUnusedSegments m
        let ts ← load 8 (topsize m)
        if released = 0 ∧ ts > (← load 8 (trimCheck m)) then store 8 (trimCheck m) maxSizeT
        return if released ≠ 0 then 1 else 0) (do
        let released ← releaseUnusedSegments m'
        let ts ← load 8 (topsize m')
        if released = 0 ∧ ts > (← load 8 (trimCheck m')) then store 8 (trimCheck m') maxSizeT
        return if released ≠ 0 then 1 else 0) Eq := by
    apply alike_bind (alike_releaseUnusedSegments hm)
    intro r r' hr
    cases hr
    apply alike_bind (alike_load (hm.add 16).aims)
    intro ts ts' hts
    cases hts
    apply alike_bind (alike_load (hm.add 48).aims)
    intro tc tc' htc
    cases htc
    apply alike_if Iff.rfl
    · intro _
      apply alike_bind (alike_store (hm.add 48).aims)
      intro _ _ _
      exact alike_pure rfl
    · intro _
      exact alike_pure rfl
  unfold sysTrim
  apply alike_bind (alike_loadPtr (hm.add 40).aims)
  intro t t' ht
  apply alike_if (and_congr Iff.rfl (not_congr ht.zero_iff))
  · intro hpad
    have ht := ht.moves hpad.2
    apply alike_bind (alike_load (hm.add 16).aims)
    intro ts ts' hts
    cases hts
    apply alike_if Iff.rfl
    · intro _
      have hshrink : L.Alike (do
            let sp ← segmentHolding t loopFuel (seg m)
            let flags ← load 4 (segFlags sp)
            if flags &&& externBit = 0 then trap .syscall
            let released ← releaseUnusedSegments m
            let ts ← load 8 (topsize m)
            if released = 0 ∧ ts > (← load 8 (trimCheck m)) then store 8 (trimCheck m) maxSizeT
            return if released ≠ 0 then 1 else 0) (do
            let sp ← segmentHolding t' loopFuel (seg m')
            let flags ← load 4 (segFlags sp)
            if flags &&& externBit = 0 then trap .syscall
            let released ← releaseUnusedSegments m'
            let ts ← load 8 (topsize m')
            if released = 0 ∧ ts > (← load 8 (trimCheck m')) then store 8 (trimCheck m') maxSizeT
            return if released ≠ 0 then 1 else 0) Eq := by
        apply alike_bind (alike_segmentHolding ht hseg.points)
        intro sp sp' hsp
        apply alike_bind (alike_load (hsp.field (by decide)))
        intro flags flags' hflags
        cases hflags
        apply alike_if Iff.rfl
        · intro _
          apply alike_bind (S := Eq) (R := Done) alike_trap
          intro _ _ _
          exact hrest
        · intro _
          exact hrest
      apply alike_param hG (by decide)
      intro unit
      apply alike_if Iff.rfl
      · intro _
        apply alike_bind (S := Eq) (R := Done) alike_trap
        intro _ _ _
        exact hshrink
      · intro _
        exact hshrink
    · intro _
      exact hrest
  · intro _
    exact alike_pure rfl

end

end Mmdata.Proofs
