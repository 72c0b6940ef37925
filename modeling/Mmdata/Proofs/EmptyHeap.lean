import Mmdata.Proofs.Runs

namespace Mmdata.Proofs
open Lib Malloc

section

variable {σ τ : State} {m lo hi a base cap ms locked recreate : Nat} {h : Heap}
  {P : Nat → Prop} {cs : List Call} {vs : List Nat}

/-- Without chunks in use there are none: the last of them is in use. -/
theorem Ok.no_chunks (O : Ok σ m lo hi h) (hl : h.live = []) : h.chunks = [] := by
  cases List.eq_nil_or_concat h.chunks with
  | inl hnil => exact hnil
  | inr hcons =>
    obtain ⟨l, c, hcs⟩ := hcons
    rw [List.concat_eq_append] at hcs
    have ht := O.core.tiled
    rw [hcs] at ht
    have hu := ht.last.1
    have hm : (c.addr, c.size) ∈ h.live := by
      apply mem_live.mpr
      rw [hcs, hu]
      exact List.mem_append_right _ List.mem_cons_self
    rw [hl] at hm
    contradiction

/-- A bin map without bins in use is 0. -/
theorem MapAt.zero (hM : MapAt σ a P) (hP : ∀ i < 32, ¬ P i) : σ.get 4 a = some 0 := by
  obtain ⟨w, hw, hb⟩ := hM
  have hlt : w < 2 ^ 32 := Machine.get_lt hw
  have hz : w = 0 := by
    apply Nat.eq_of_testBit_eq
    intro i
    rw [Nat.zero_testBit]
    by_cases hi : i < 32
    · exact Bool.eq_false_iff.mpr fun ht => hP i hi ((hb i hi).mp ht)
    · apply Nat.testBit_lt_two_pow
      exact Nat.lt_of_lt_of_le hlt (Nat.pow_le_pow_right (by decide) (by omega))
  rw [hw, hz]

/-- The mspace at `m` is empty: all memory up to `hi` is in top, and nothing else
is free. -/
structure Unused (σ : State) (m hi : Nat) : Prop where
  top : σ.getPtr (top m) = some (m + 920)
  topsize : σ.get 8 (topsize m) = some (hi - m - 944)
  dvsize : σ.get 8 (dvsize m) = some 0
  smallmap : σ.get 4 (smallmap m) = some 0
  treemap : σ.get 4 (treemap m) = some 0

theorem Ok.unused (O : Ok σ m lo hi h) (hl : h.live = []) : Unused σ m hi := by
  have C := O.core
  have hnil := O.no_chunks hl
  have hno : ∀ a s, ¬ h.inBins a s := by
    intro a s hin
    have hm := hin.1
    rw [hnil] at hm
    contradiction
  have ht := C.tiled
  rw [hnil] at ht
  have htop : h.top = m + 920 := ht.2
  obtain ⟨_, hfits⟩ := C.topFits
  have hdv : h.dvsize = 0 := by
    cases O.dvOk with
    | inl hd => exact hd.2
    | inr hd =>
      rw [hnil] at hd
      contradiction
  refine ⟨?_, ?_, ?_, C.binned.smallMap.zero ?_, C.binned.treeMap.zero ?_⟩
  · rw [← htop]
    exact C.scalars.topPtr
  · rw [show hi - m - 944 = h.topsize by omega]
    exact C.scalars.topWord
  · rw [← hdv]
    exact C.scalars.dvWord
  · intro i hi32 hne
    obtain ⟨a, _, he⟩ := List.ne_nil_iff_exists_cons.mp hne
    have hm : a ∈ h.bins.small i := by
      rw [he]
      exact List.mem_cons_self
    exact hno _ _ ((C.binned.smallMem i hi32 a).mp hm)
  · intro i hi32 hne
    cases he : h.bins.tree i with
    | nil => exact hne he
    | node a s ring l r =>
      have hm : (a, s) ∈ (h.bins.tree i).entries := by
        rw [he]
        exact mem_node_entries.mpr (Or.inl ⟨List.mem_cons_self, rfl⟩)
      exact hno _ _ ((C.binned.treeMem i hi32 a s).mp hm).1

/-- When no block is live, the heap is as it was right after creation. -/
theorem empty_heap_restored (hR : Ready σ base cap) (hrec : recreate ≠ 0)
    {σ₀ τ : State} (hc : createMspaceWithBase base cap locked recreate σ = .ok (ms, σ₀))
    (h0 : ms ≠ 0) (hr : performAll ms cs [] σ₀ = .ok ((vs, []), τ)) :
    Unused σ₀ ms (base + cap) ∧ Unused τ ms (base + cap) := by
  have R₀ : Reach base cap ms σ₀ [] := .created hR hrec hc h0
  have hempty : ∀ σ, Reach base cap ms σ [] → Unused σ ms (base + cap) := by
    intro σ R
    obtain ⟨rfl, _, h, H⟩ := reach_held R
    apply H.ok.unused
    exact List.map_eq_nil_iff.mp H.blocks.symm.eq_nil
  exact ⟨hempty σ₀ R₀, hempty τ (reach_all R₀ hr)⟩

set_option maxRecDepth 100000 in
/-- Three blocks are given, one grows, and all are taken back out of order. -/
theorem empty_heap_restored_session : ∃ σ₀ τ,
    createMspaceWithBase 4096 65536 0 1 zeroed = .ok (4160, σ₀) ∧
    performAll 4160 [.malloc 100, .malloc 600, .malloc 40, .realloc 1 900, .free 1, .free 0,
      .free 0] [] σ₀ = .ok (([5096, 5208, 5816, 5864, 0, 0, 0], []), τ) ∧
    Unused σ₀ 4160 69632 ∧ Unused τ 4160 69632 := by
  have hrun : result (do
      let ms ← createMspaceWithBase 4096 65536 0 1
      let r ← performAll ms [.malloc 100, .malloc 600, .malloc 40, .realloc 1 900,
        .free 1, .free 0, .free 0] []
      return (ms, r)) zeroed = some (4160, [5096, 5208, 5816, 5864, 0, 0, 0], []) := by
    decide +kernel
  obtain ⟨τ, hτ⟩ := result_ok hrun
  obtain ⟨ms, σ₀, hc, hrest⟩ := bind_ok hτ
  obtain ⟨r, υ, hr, hpure⟩ := bind_ok hrest
  cases hpure
  obtain ⟨h₀, hu⟩ := empty_heap_restored zeroed_ready (by decide) hc (by decide) hr
  exact ⟨σ₀, τ, hc, hr, h₀, hu⟩

end

end Mmdata.Proofs
