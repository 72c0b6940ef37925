import Mmdata.Proofs.Runs

namespace Mmdata.Proofs
open Lib Malloc

/-- The states reached when `mspace_trim` is called now and then. -/
inductive Trimming (base cap ms : Nat) : State → List Nat → Prop
  | created {σ τ : State} {locked recreate : Nat} : Ready σ base cap → recreate ≠ 0 →
      createMspaceWithBase base cap locked recreate σ = .ok (ms, τ) → ms ≠ 0 →
      Trimming base cap ms τ []
  | step {σ τ : State} {live live' : List Nat} {c : Call} {v : Nat} :
      Trimming base cap ms σ live → perform ms live c σ = .ok ((v, live'), τ) →
      Trimming base cap ms τ live'
  | trim {σ τ : State} {live : List Nat} {pad r : Nat} : Trimming base cap ms σ live →
      mspaceTrim ms pad σ = .ok (r, τ) → Trimming base cap ms τ live

/-- There is one segment. It came from outside, and it holds top. -/
structure OneSegment (σ : State) (ms : Nat) : Prop where
  next : σ.getPtr (segNext (seg ms)) = some 0
  flags : σ.get 4 (segFlags (seg ms)) = some externBit
  holdsTop : ∃ b size t, σ.getPtr (segBase (seg ms)) = some b ∧
    σ.get 8 (segSize (seg ms)) = some size ∧ σ.getPtr (top ms) = some t ∧ b ≤ t ∧ t < b + size

/-- `is_mmapped` is false for the chunk of this block. -/
def NotMmapped (σ : State) (p : Nat) : Prop := result (isMmapped (mem2chunk p)) σ = some false

section

variable {σ τ : State} {m lo hi p s base cap ms : Nat} {h : Heap} {live : List Nat}

theorem result_of_wp {α : Type} {x : Code α} {r : α}
    (hw : wp (fun _ => False) x (fun v _ => v = r) σ) : result x σ = some r := by
  obtain ⟨v, τ, hx, rfl⟩ := ok_of_wp hw
  unfold result
  rw [hx]

theorem Ok.oneSegment (O : Ok σ m lo hi h) : OneSegment σ m := by
  have S := O.core.scalars
  have hlow := O.core.arena.low
  have hle := O.core.tiled.le
  obtain ⟨_, hfits⟩ := O.core.topFits
  exact ⟨S.segNext, S.segFlags, lo, hi + 48 - lo, h.top, S.segBase, S.segSize, S.topPtr,
    by omega, by omega⟩

theorem Ok.notMmapped (O : Ok σ m lo hi h) (hp : (p, s) ∈ h.live) : NotMmapped σ (p + 16) := by
  apply result_of_wp
  rw [mem2chunk, Nat.add_sub_cancel]
  exact O.core.wp_isMmapped (mem_live.mp hp) rfl

/-- The chunk of the malloc_state has no predecessor that could be free. -/
theorem Held.own_notMmapped (H : Held σ base cap live h) : NotMmapped σ (base + 64) := by
  apply result_of_wp
  have hhead : σ.get 8 (base + 64 - 16 + 8) = some (headWord 936 true true) := by
    rw [show base + 64 - 16 + 8 = base + 56 by omega]
    exact H.ownHead
  unfold isMmapped
  rw [wp_bind, mem2chunk, wp_pinuse hhead (by decide), wp_if_pos rfl]
  rfl

theorem trimming_held (R : Trimming base cap ms σ live) : ms = base + 64 ∧
    TrimOk (· = .divZero) σ (base + 64) (base + cap) ∧ ∃ h, Held σ base cap live h := by
  induction R with
  | created hR hrec hr h0 => exact wp_ok (ready_created hR hrec (capacity_large hr h0)) hr h0
  | step _ hr ih =>
    obtain ⟨rfl, T, h, H⟩ := ih
    obtain ⟨h', hout⟩ := wp_ok (H.ok.wp_perform H.blocks fun _ => T) hr
    exact ⟨rfl, T.within (hout.frame H.ok), h', H.outcome hout⟩
  | @trim σ τ live pad r _ hr ih =>
    obtain ⟨rfl, T, h, H⟩ := ih
    have hend : wp (· = .divZero) (mspaceTrim (base + 64) pad)
        (fun _ τ => TrimOk (· = .divZero) τ (base + 64) (base + cap) ∧ Held τ base cap live h)
        σ := by
      apply wp_sysTrim H.ok fun _ => T
      intro _ τ O hf _
      refine ⟨T.frame hf, O, H.blocks, ?_⟩
      rw [hf.get]
      · exact H.ownHead
      · intro b h1 h2 hb
        have hl := hb.1
        omega
    obtain ⟨T', H'⟩ := wp_ok hend hr
    exact ⟨rfl, T', h, H'⟩

/-- In every state reached there is the one segment, no chunk in use counts as
mapped on its own, and no call asks the system to unmap or to remap. -/
theorem memory_stays (R : Trimming base cap ms σ live) :
    OneSegment σ ms ∧ NotMmapped σ ms ∧ (∀ p ∈ live, NotMmapped σ p) ∧
    (∀ c, perform ms live c σ ≠ .error .syscall) ∧
    ∀ pad, mspaceTrim ms pad σ ≠ .error .syscall := by
  obtain ⟨rfl, T, h, H⟩ := trimming_held R
  refine ⟨H.ok.oneSegment, H.own_notMmapped, ?_, ?_, ?_⟩
  · intro p hp
    obtain ⟨⟨a, s⟩, he, rfl⟩ := List.mem_map.mp (H.blocks.mem_iff.mp hp)
    exact H.ok.notMmapped he
  · intro c he
    have hd := wp_error (H.ok.wp_perform H.blocks fun _ => T) he
    contradiction
  · intro pad he
    have hw : wp (· = .divZero) (mspaceTrim (base + 64) pad) (fun _ _ => True) σ :=
      wp_sysTrim H.ok (fun _ => T) fun _ _ _ _ _ => trivial
    have hd := wp_error hw he
    contradiction

set_option maxRecDepth 100000 in
/-- A block is given, and then trimming is tried. -/
theorem memory_stays_trimmed : ∃ τ, OneSegment τ 4160 ∧ NotMmapped τ 5096 := by
  have hrun : result (do
      let ms ← createMspaceWithBase 4096 65536 0 1
      let r ← perform ms [] (.malloc 100)
      return (ms, r.2, ← mspaceTrim ms 0)) zeroed = some (4160, [5096], 0) := by
    decide +kernel
  obtain ⟨τ, hτ⟩ := result_ok hrun
  obtain ⟨ms, σ, hσ, hrest⟩ := bind_ok hτ
  obtain ⟨⟨v, live⟩, υ, hυ, hrest⟩ := bind_ok hrest
  obtain ⟨u, ω, hu, hpure⟩ := bind_ok hrest
  cases hpure
  have R : Trimming 4096 65536 4160 τ [5096] :=
    .trim (.step (c := .malloc 100) (.created zeroed_ready (by decide) hσ (by decide)) hυ) hu
  obtain ⟨hone, _, hblocks, _⟩ := memory_stays R
  exact ⟨τ, hone, hblocks 5096 List.mem_cons_self⟩

end

end Mmdata.Proofs
