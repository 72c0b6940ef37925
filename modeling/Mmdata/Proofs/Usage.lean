import Mmdata.Proofs.Runs

namespace Mmdata.Proofs
open Lib Malloc

/-- The size of the chunk of a block, header included. -/
def blockSize (σ : State) (p : Nat) : Nat := (result (chunksize (mem2chunk p)) σ).getD 0

/-- `mspace_used` returns the sum of the sizes of the live chunks. -/
def UsedExact (σ : State) (ms : Nat) (live : List Nat) : Prop :=
  result (mspaceUsed ms) σ = some (live.map (blockSize σ)).sum

/-- A reallocation that takes the branch growing a chunk into top: top is behind
the chunk, which is too small, and large enough. -/
def GrowsIntoTop (σ : State) (ms : Nat) (live : List Nat) : Call → Prop
  | .realloc k n => n < maxRequest ∧ ∃ p ts, live[k]? = some p ∧
      σ.getPtr (top ms) = some (mem2chunk p + blockSize σ p) ∧ σ.get 8 (topsize ms) = some ts ∧
      blockSize σ p < request2size n ∧ request2size n < blockSize σ p + ts
  | _ => False

/-- The states reached without a reallocation that grows into top. -/
inductive Steady (base cap ms : Nat) : State → List Nat → Prop
  | created {σ τ : State} {locked recreate : Nat} : Ready σ base cap → recreate ≠ 0 →
      createMspaceWithBase base cap locked recreate σ = .ok (ms, τ) → ms ≠ 0 →
      Steady base cap ms τ []
  | step {σ τ : State} {live live' : List Nat} {c : Call} {v : Nat} : Steady base cap ms σ live →
      ¬ GrowsIntoTop σ ms live c → perform ms live c σ = .ok ((v, live'), τ) →
      Steady base cap ms τ live'

section

variable {σ τ : State} {m lo hi p q s k n v base cap ms : Nat} {h h' : Heap}
  {live live' : List Nat} {c : Call}

theorem Tiled.used_le {cs : List Chunk} {pu pu' : Bool} (ht : Tiled σ pu p cs pu' q) :
    p + (((cs.filter (·.used)).map (fun c => (c.addr, c.size))).map Prod.snd).sum ≤ q := by
  induction cs generalizing pu p with
  | nil =>
    have hq := ht.2
    simp [hq]
  | cons c cs ih =>
    obtain ⟨_, _, hrest⟩ := ht
    have hle := ih hrest
    by_cases hu : c.used = true
    · simp only [List.filter_cons, hu, if_true, List.map_cons, List.sum_cons]
      omega
    · simp only [List.filter_cons, hu, Bool.false_eq_true, if_false]
      omega

/-- The sizes of the live chunks. -/
def Heap.used (h : Heap) : Nat := (h.live.map Prod.snd).sum

theorem Ok.used_lt (O : Ok σ m lo hi h) : h.used < 2 ^ 64 := by
  have hle := O.core.tiled.used_le
  have hfits := O.core.topFits.2
  have hword := O.core.arena.word
  unfold Heap.used Heap.live
  omega

theorem used_perm {L : List (Nat × Nat)} (hl : h.live.Perm ((p, s) :: L)) :
    h.used = s + (L.map Prod.snd).sum := by
  have he := (hl.map Prod.snd).sum_nat
  simpa [Heap.used] using he

theorem Ok.blockSize_eq (O : Ok σ m lo hi h) (hp : (p, s) ∈ h.live) :
    blockSize σ (p + 16) = s := by
  obtain ⟨_, _, _, hc⟩ := O.core.tiled.mem (mem_live.mp hp)
  have hw : wp (fun _ => False) (chunksize p) (fun u _ => u = s) σ := by
    rw [wp_chunksize hc.head hc.align]
  unfold wp at hw
  unfold blockSize result
  rw [mem2chunk, Nat.add_sub_cancel]
  split at hw
  · exact hw
  · exact hw.elim

theorem Held.sum_blocks (H : Held σ base cap live h) : (live.map (blockSize σ)).sum = h.used := by
  have hperm := (H.blocks.map (blockSize σ)).sum_nat
  rw [hperm, List.map_map]
  unfold Heap.used
  congr 1
  apply List.map_congr_left
  intro e he
  exact H.ok.blockSize_eq he

/-- The branch of the code, seen from the heap. -/
theorem Held.grows (H : Held σ base cap live h) (hk : live[k]? = some (p + 16))
    (hp : (p, s) ∈ h.live) (hn : n < maxRequest) (hg : GrowsTop h p s n) :
    GrowsIntoTop σ (base + 64) live (.realloc k n) := by
  obtain ⟨h1, h2, h3⟩ := hg
  refine ⟨hn, p + 16, h.topsize, hk, ?_, H.ok.core.scalars.topWord, ?_, ?_⟩
  · rw [H.ok.blockSize_eq hp, mem2chunk, Nat.add_sub_cancel, ← h1]
    exact H.ok.core.scalars.topPtr
  · rw [H.ok.blockSize_eq hp]
    exact h2
  · rw [H.ok.blockSize_eq hp]
    exact h3

/-- Every other call keeps the counter exact. -/
theorem Held.exts_exact (H : Held σ base cap live h) (he : h.exts = h.used)
    (R : Outcome σ (base + 64) (base + 48) (base + cap) h live c v live' τ h')
    (hg : ¬ GrowsIntoTop σ (base + 64) live c) : h'.exts = h'.used := by
  have hlt' := (R.ok H.ok).used_lt
  have hlt := H.ok.used_lt
  cases R with
  | nothing => exact he
  | given _ hl _ hexts =>
    have hu := used_perm hl
    have hold : h.used = (h.live.map Prod.snd).sum := rfl
    rw [hexts, he]
    simp only [addSize]
    omega
  | taken _ _ _ hl hexts =>
    have hu := used_perm hl
    have hnew : h'.used = (h'.live.map Prod.snd).sum := rfl
    rw [hexts, he]
    simp only [subSize]
    omega
  | @resized k n p s w s' _ _ hk hp hR =>
    obtain ⟨L, hl, hl'⟩ := hR.live
    have hu := used_perm hl
    have hu' := used_perm hl'
    have hb := hR.ok.core.chunk_bounds (mem_live.mp (hl'.mem_iff.mpr List.mem_cons_self))
    have hword := hR.ok.core.arena.word
    have hlarge := hR.large
    simp only at hb
    have hn : n < maxRequest := by
      simp only [maxRequest]
      omega
    rw [hR.exts fun hc => hg (H.grows hk hp hn hc), he]
    simp only [subSize, addSize]
    omega
  | written => exact he

/-- As long as no chunk has grown into top, `mspace_used` is exact. -/
theorem used_exact_when_steady (R : Steady base cap ms σ live) : UsedExact σ ms live := by
  have hinv : ms = base + 64 ∧ TrimOk (· = .divZero) σ (base + 64) (base + cap) ∧
      ∃ h, Held σ base cap live h ∧ h.exts = h.used := by
    induction R with
    | @created σ τ locked recreate hR hrec hr h0 =>
      have hend : wp (· = .divZero) (createMspaceWithBase base cap locked recreate)
          (fun r τ => r ≠ 0 → r = base + 64 ∧ TrimOk (· = .divZero) τ (base + 64) (base + cap) ∧
            ∃ h, Held τ base cap [] h ∧ h.exts = h.used) σ := by
        apply (ready_buffer hR (capacity_large hr h0)).wp_createMspaceWithBase hrec
        · intro τ _ _ hc
          exact absurd rfl hc
        · intro τ O hown _ T _ _
          exact ⟨rfl, T, _, ⟨O, List.Perm.refl _, hown⟩, rfl⟩
      exact wp_ok hend hr h0
    | step _ hg hr ih =>
      obtain ⟨rfl, T, h, H, he⟩ := ih
      obtain ⟨h', hout⟩ := wp_ok (H.ok.wp_perform H.blocks fun _ => T) hr
      exact ⟨rfl, T.within (hout.frame H.ok), h', H.outcome hout, H.exts_exact he hout hg⟩
  obtain ⟨rfl, _, h, H, he⟩ := hinv
  have hw : wp (fun _ => False) (mspaceUsed (base + 64)) (fun u _ => u = h.used) σ := by
    rw [mspaceUsed, wp_load (show σ.get 8 (exts (base + 64)) = some h.exts from
      H.ok.core.scalars.extsWord)]
    exact he
  unfold UsedExact
  rw [H.sum_blocks]
  unfold wp at hw
  unfold result
  split at hw
  · rw [hw]
  · exact hw.elim

/-- The first call of a run. -/
theorem Steady.first {cs : List Call} {vs : List Nat} (R : Steady base cap ms σ live)
    (hg : ¬ GrowsIntoTop σ ms live c) (hr : performAll ms (c :: cs) live σ = .ok ((vs, live'), τ)) :
    ∃ v vs' live₁ υ, perform ms live c σ = .ok ((v, live₁), υ) ∧ Steady base cap ms υ live₁ ∧
      performAll ms cs live₁ υ = .ok ((vs', live'), τ) := by
  obtain ⟨⟨v, live₁⟩, υ, hc, hrest⟩ := bind_ok hr
  obtain ⟨⟨vs', live₂⟩, ω, hcs, hpure⟩ := bind_ok hrest
  cases hpure
  exact ⟨v, vs', live₁, υ, hc, R.step hg hc, hcs⟩

set_option maxRecDepth 100000 in
/-- Two blocks are given, the first shrinks from 112 bytes to 40, and the second is taken
back. -/
theorem used_exact_when_steady_shrunk : ∃ σ τ,
    createMspaceWithBase 4096 65536 0 1 zeroed = .ok (4160, σ) ∧
    performAll 4160 [.malloc 100, .malloc 600, .realloc 1 30, .free 0] [] σ =
      .ok (([5096, 5208, 5096, 0], [5096]), τ) ∧
    result (mspaceUsed 4160) τ = some 40 ∧ UsedExact τ 4160 [5096] := by
  have hrun : result (do
      let ms ← createMspaceWithBase 4096 65536 0 1
      let r ← performAll ms [.malloc 100, .malloc 600, .realloc 1 30, .free 0] []
      return (ms, r, ← mspaceUsed ms)) zeroed =
        some (4160, ([5096, 5208, 5096, 0], [5096]), 40) := by
    decide +kernel
  have hgiven : result (do
      let ms ← createMspaceWithBase 4096 65536 0 1
      let r ← perform ms [] (.malloc 100)
      let r ← perform ms r.2 (.malloc 600)
      return (r.2, ← chunksize (mem2chunk 5096))) zeroed = some ([5208, 5096], 112) := by
    decide +kernel
  obtain ⟨_, hτ⟩ := result_ok hrun
  obtain ⟨ms, σ, hc, hrest⟩ := bind_ok hτ
  obtain ⟨r, τ, hr, hrest⟩ := bind_ok hrest
  obtain ⟨u, _, hu, hpure⟩ := bind_ok hrest
  cases hpure
  have R : Steady 4096 65536 4160 σ [] := .created zeroed_ready (by decide) hc (by decide)
  obtain ⟨v₁, _, live₁, σ₁, h₁, R₁, hr₁⟩ := R.first id hr
  obtain ⟨v₂, _, live₂, σ₂, h₂, R₂, hr₂⟩ := R₁.first id hr₁
  rw [result, bind_of_ok hc, bind_of_ok h₁] at hgiven
  simp only [bind_of_ok h₂] at hgiven
  obtain ⟨_, hτ⟩ := result_ok hgiven
  obtain ⟨s, _, hs, hpure⟩ := bind_ok hτ
  cases hpure
  have hshrinks : ¬ GrowsIntoTop σ₂ 4160 [5208, 5096] (.realloc 1 30) := by
    rintro ⟨_, p, ts, hp, _, _, hlt, _⟩
    cases hp
    have hsize : blockSize σ₂ 5096 = 112 := by rw [blockSize, result, hs, Option.getD_some]
    rw [hsize] at hlt
    exact absurd hlt (by decide)
  obtain ⟨v₃, _, live₃, σ₃, h₃, R₃, hr₃⟩ := R₂.first hshrinks hr₂
  obtain ⟨v₄, _, live₄, σ₄, h₄, R₄, hr₄⟩ := R₃.first id hr₃
  cases hr₄
  exact ⟨σ, _, hc, hr, by rw [result, hu], used_exact_when_steady R₄⟩

set_option maxRecDepth 100000 in
/-- A block that has grown into top is taken back: no block is live, and the
counter has wrapped around. -/
theorem used_wraps : ∃ τ, Reach 4096 65536 4160 τ [] ∧
    result (mspaceUsed 4160) τ = some (2 ^ 64 - 96) ∧ ¬ UsedExact τ 4160 [] := by
  have hrun : result (do
      let (ms, vs, live) ← session 4096 65536 0 [.malloc 100, .realloc 0 200, .free 0]
      return (ms, vs, live, ← mspaceUsed ms)) zeroed =
        some (4160, [5096, 5096, 0], [], 2 ^ 64 - 96) := by
    decide +kernel
  obtain ⟨τ, hτ⟩ := result_ok hrun
  obtain ⟨⟨ms, vs, live⟩, σ, hσ, hrest⟩ := bind_ok hτ
  obtain ⟨u, υ, hu, hpure⟩ := bind_ok hrest
  cases hpure
  have hres : result (mspaceUsed 4160) σ = some (2 ^ 64 - 96) := by rw [result, hu]
  refine ⟨σ, reach_session zeroed_ready hσ (by decide), hres, ?_⟩
  rw [UsedExact, hres, List.map_nil, List.sum_nil]
  decide

end

end Mmdata.Proofs
