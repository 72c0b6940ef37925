import Mmdata.Proofs.HeapSound

namespace Mmdata.Proofs
open Lib Malloc

/-- The chunk `a` of `s` bytes is in a tree. -/
def TreeChunk (h : Heap) (a s : Nat) : Prop := ∃ i < 32, (a, s) ∈ (h.bins.tree i).entries

/-- No tree chunk of at least `nb` bytes is smaller. -/
def BestFit (h : Heap) (nb a s : Nat) : Prop :=
  TreeChunk h a s ∧ nb ≤ s ∧ ∀ b t, TreeChunk h b t → nb ≤ t → s ≤ t

/-- The chunk `p` is the root of a part of a tree. -/
def Rooted (σ : State) (h : Heap) (p : Nat) : Prop :=
  ∃ i < 32, ∃ par s ring l r, TreeAt σ i par (.node p s ring l r) ∧
    ∀ e ∈ (Trie.node p s ring l r).entries, e ∈ (h.bins.tree i).entries

/-- The chunk `a` is given away with at least `nb` bytes, beside all that was given. -/
def Taken (τ : State) (ms : Nat) (h : Heap) (a nb : Nat) : Prop :=
  ∃ h' sz, Sound τ ms h' ∧ h'.live.Perm ((a, sz) :: h.live) ∧ nb ≤ sz

section

variable {σ τ : State} {m lo hi a s v p q nb base cap ms : Nat} {h h' : Heap} {live : List Nat}
  {best : Option (Nat × Nat)}

theorem Ok.treeChunk_iff (O : Ok σ m lo hi h) : TreeChunk h a s ↔ h.inBins a s ∧ 256 ≤ s := by
  constructor
  · rintro ⟨i, hi32, he⟩
    obtain ⟨h1, h2, _⟩ := (O.core.binned.treeMem i hi32 a s).mp he
    exact ⟨h1, h2⟩
  · rintro ⟨h1, h2⟩
    have hi32 := computeTreeIndex_lt s
    exact ⟨_, hi32, (O.core.binned.treeMem _ hi32 a s).mpr ⟨h1, h2, rfl⟩⟩

/-- In an arena below the cut no index is computed from a cut size. -/
theorem Ok.allUncut (O : Ok σ m lo hi h) (hsize : hi < m + 2 ^ 40) : h.AllUncut := by
  intro a s ha
  have hb := O.core.chunk_bounds ha.1
  simp only at hb
  omega

/-- The search gives a chunk of the least size that fits. -/
theorem Searched.bestFit (S : Searched h nb (some (a, s))) (O : Ok σ m lo hi h)
    (hall : h.AllUncut) : BestFit h nb a s := by
  obtain ⟨ha, hle, h256⟩ := S.picked (a, s) rfl
  refine ⟨O.treeChunk_iff.mpr ⟨ha, h256⟩, hle, ?_⟩
  intro b t hb hfit
  obtain ⟨hbin, hb256⟩ := O.treeChunk_iff.mp hb
  obtain ⟨e, he, hmin⟩ := S.least hall b t hbin hb256 hfit
  cases he
  exact hmin

/-- A search that ends with nothing has nothing to give. -/
theorem Searched.not_bestFit (S : Searched h nb none) (O : Ok σ m lo hi h) (hall : h.AllUncut) :
    ¬ BestFit h nb a s := by
  rintro ⟨ha, hle, _⟩
  obtain ⟨hbin, h256⟩ := O.treeChunk_iff.mp ha
  obtain ⟨e, he, _⟩ := S.least hall a s hbin h256 hle
  contradiction

theorem BestFit.size_eq {b t : Nat} (ha : BestFit h nb a s) (hb : BestFit h nb b t) : s = t :=
  Nat.le_antisymm (ha.2.2 b t hb.1 hb.2.1) (hb.2.2 a s ha.1 ha.2.1)

/-- A chunk given out of a heap between calls leaves a heap between calls. -/
theorem Held.gives (H : Held σ base cap live h)
    (G : Gives σ (base + 64) (base + 48) (base + cap) h v s τ h') :
    Held τ base cap ((v + 16) :: live) h' := by
  refine ⟨G.ok, (H.blocks.cons _).trans (G.live.map blockOf).symm, ?_⟩
  rw [G.frame.get]
  · exact H.ownHead
  · intro b h1 h2 hb
    have hl := hb.1.1
    omega

theorem Held.taken (H : Held σ base cap live h)
    (G : Gives σ (base + 64) (base + 48) (base + cap) h v s τ h') (hs : nb ≤ s) :
    Taken τ (base + 64) h v nb :=
  ⟨h', s, (H.gives G).sound, G.live, hs⟩

theorem TreeChunk.large (O : Ok σ m lo hi h) (ha : TreeChunk h a s) : 256 ≤ s :=
  (O.treeChunk_iff.mp ha).2

theorem Sound.chunk_of_tree (S : Sound σ m h) (ha : TreeChunk h a s) :
    ⟨a, s, false⟩ ∈ allChunks m h := by
  obtain ⟨i, hi32, he⟩ := ha
  exact List.mem_cons_of_mem _ (S.keyed i hi32 _ he)

theorem Sound.tree_size_eq {t : Nat} (S : Sound σ m h) (ha : TreeChunk h a s)
    (hb : TreeChunk h a t) : s = t := by
  obtain ⟨_, _, _, hc⟩ := S.tiled.mem (S.chunk_of_tree ha)
  obtain ⟨_, _, _, hd⟩ := S.tiled.mem (S.chunk_of_tree hb)
  have hs := hc.large
  have ht := hd.large
  simp only at hs ht
  rcases S.tiled.apart (S.chunk_of_tree ha) (S.chunk_of_tree hb) with he | hlt | hlt
  · exact (Chunk.mk.inj he).2.1
  · simp only at hlt
    omega
  · simp only at hlt
    omega

/-- Below 2^40 bytes, `tmalloc_large` takes a tree chunk of the least size that fits a request
of 256 bytes or more, unless `dv` fits as well or better, and `tmalloc_small`, called while `dv`
is small, one of the least size of all. -/
theorem tree_search_best_fit (R : Reach base cap ms σ live) (hcap : cap < 2 ^ 40) :
    ∃ h, Sound σ ms h ∧
    (∀ nb, 256 ≤ nb → nb < 2 ^ 64 → nb % 8 = 0 → ∃ r τ, tmallocLarge ms nb σ = .ok (r, τ) ∧
      ((∃ a s, BestFit h nb a s ∧ (s < h.dvsize ∨ h.dvsize < nb) ∧ r = chunk2mem a ∧
          Taken τ ms h a nb) ∨
        (∀ a s, BestFit h nb a s → ¬ (s < h.dvsize ∨ h.dvsize < nb)) ∧ r = 0 ∧ τ = σ)) ∧
    (∀ nb w, 32 ≤ nb → nb < 256 → nb % 8 = 0 → h.dvsize < 256 →
      σ.get 4 (treemap ms) = some w → w ≠ 0 → ∃ r τ, tmallocSmall ms nb σ = .ok (r, τ) ∧
        ∃ a s, BestFit h 0 a s ∧ r = chunk2mem a ∧ Taken τ ms h a nb) := by
  obtain ⟨rfl, T, h, H⟩ := reach_held R
  have hall := H.ok.allUncut (show base + cap < base + 64 + 2 ^ 40 by omega)
  refine ⟨h, H.sound, ?_, ?_⟩
  · intro nb hnb hnb64 hnb8
    apply ok_of_wp
    apply wp_tmallocLarge H.ok hnb hnb8 hnb64
    · intro best hs _ hle
      refine Or.inr ⟨fun a s hfit => ?_, rfl, rfl⟩
      cases best with
      | none => exact absurd hfit (hs.not_bestFit H.ok hall)
      | some e =>
        obtain ⟨v, t⟩ := e
        have hsize := hfit.size_eq (hs.bestFit H.ok hall)
        have hdv := hle (v, t) rfl
        simp only at hdv
        omega
    · intro v s hs _ hdv τ h' sz G hsz
      exact Or.inl ⟨v, s, hs.bestFit H.ok hall, hdv, rfl, H.taken G hsz⟩
  · intro nb w hnb hnb256 hnb8 hdv hw hw0
    apply ok_of_wp
    apply wp_tmallocSmall H.ok hw hw0 hnb hnb8 hnb256 hdv
    intro v s hs τ h' sz G hsz
    obtain ⟨hv, _, hleast⟩ := hs.bestFit H.ok hall
    refine ⟨v, s, ⟨hv, Nat.zero_le s, fun b t hb _ => hleast b t hb ?_⟩, rfl, H.taken G hsz⟩
    have h256 := hb.large H.ok
    omega

/-! The chunks of a tree, found by following its links. -/

theorem Sound.root {i : Nat} (S : Sound σ m h) (hi32 : i < 32)
    (hp : loadPtr (treebinAt m i) σ = .ok (p, τ)) (hp0 : p ≠ 0) : τ = σ ∧ Rooted σ h p := by
  obtain ⟨par, ht⟩ := S.linked.tree i hi32
  have hrun : wp (fun _ => False) (loadPtr (treebinAt m i))
      (fun r υ => r = (h.bins.tree i).root ∧ υ = σ) σ := by
    rw [wp_loadPtr (S.linked.root i hi32)]
    exact ⟨rfl, rfl⟩
  obtain ⟨rfl, rfl⟩ := wp_ok hrun hp
  refine ⟨rfl, ?_⟩
  cases hc : h.bins.tree i with
  | nil =>
    rw [hc] at hp0
    exact absurd rfl hp0
  | node a s ring l r =>
    rw [hc] at ht
    exact ⟨i, hi32, par, s, ring, l, r, ht, fun e he => hc ▸ he⟩

theorem Rooted.child {k : Nat} (S : Rooted σ h p) (hk : k < 2)
    (hq : loadPtr (child p k) σ = .ok (q, τ)) (hq0 : q ≠ 0) : τ = σ ∧ Rooted σ h q := by
  obtain ⟨i, hi32, par, s, ring, l, r, ht, hsub⟩ := S
  have hchild : ∃ c, TreeAt σ i p c ∧ σ.getPtr (p + 32 + 8 * k) = some c.root ∧
      ∀ e ∈ c.entries, e ∈ (h.bins.tree i).entries := by
    have hk' : k = 0 ∨ k = 1 := by omega
    rcases hk' with rfl | rfl
    · exact ⟨l, ht.2.1, ht.1.fields.left, fun e he => hsub e (mem_node_entries.mpr (Or.inr (Or.inl he)))⟩
    · exact ⟨r, ht.2.2, ht.1.fields.right, fun e he => hsub e (mem_node_entries.mpr (Or.inr (Or.inr he)))⟩
  obtain ⟨c, hc, hroot, hin⟩ := hchild
  have hrun : wp (fun _ => False) (loadPtr (Malloc.child p k)) (fun r υ => r = c.root ∧ υ = σ) σ := by
    rw [Malloc.child, wp_loadPtr hroot]
    exact ⟨rfl, rfl⟩
  obtain ⟨rfl, rfl⟩ := wp_ok hrun hq
  refine ⟨rfl, ?_⟩
  cases c with
  | nil => exact absurd rfl hq0
  | node a t ring' l' r' => exact ⟨i, hi32, p, t, ring', l', r', hc, hin⟩

theorem Rooted.treeChunk (R : Rooted σ h p) (S : Sound σ m h)
    (hs : chunksize p σ = .ok (s, τ)) : τ = σ ∧ TreeChunk h p s := by
  obtain ⟨i, hi32, par, k, ring, l, r, ht, hsub⟩ := R
  have he := hsub (p, k) (mem_node_entries.mpr (Or.inl ⟨by simp, rfl⟩))
  obtain ⟨_, _, _, hc⟩ := S.tiled.mem (S.chunk_of_tree ⟨i, hi32, he⟩)
  have hrun : wp (fun _ => False) (chunksize p) (fun r υ => r = k ∧ υ = σ) σ := by
    rw [wp_chunksize hc.head hc.align]
    exact ⟨rfl, rfl⟩
  obtain ⟨rfl, rfl⟩ := wp_ok hrun hs
  exact ⟨rfl, i, hi32, he⟩

/-- The chunks at the root of a bin and below it on either side. -/
def topOfTree (ms i : Nat) : Code (List (Nat × Nat)) := do
  let p ← loadPtr (treebinAt ms i)
  let s ← chunksize p
  let q ← loadPtr (child p 0)
  let t ← chunksize q
  let r ← loadPtr (child p 1)
  return [(p, s), (q, t), (r, ← chunksize r)]

theorem Sound.topOfTree {i r t u : Nat} (S : Sound σ m h) (hi32 : i < 32)
    (ht : topOfTree m i σ = .ok ([(p, s), (q, t), (r, u)], τ)) (hp : p ≠ 0) (hq : q ≠ 0)
    (hr : r ≠ 0) : τ = σ ∧ TreeChunk h p s ∧ TreeChunk h q t ∧ TreeChunk h r u := by
  obtain ⟨p, σ₁, hroot, ht⟩ := bind_ok ht
  obtain ⟨s, σ₂, hs, ht⟩ := bind_ok ht
  obtain ⟨q, σ₃, hleft, ht⟩ := bind_ok ht
  obtain ⟨t, σ₄, ht', ht⟩ := bind_ok ht
  obtain ⟨r, σ₅, hright, ht⟩ := bind_ok ht
  obtain ⟨u, σ₆, hu, ht⟩ := bind_ok ht
  cases ht
  obtain ⟨rfl, Rp⟩ := S.root hi32 hroot hp
  obtain ⟨rfl, hps⟩ := Rp.treeChunk S hs
  obtain ⟨rfl, Rq⟩ := Rp.child (by decide) hleft hq
  obtain ⟨rfl, hqt⟩ := Rq.treeChunk S ht'
  obtain ⟨rfl, Rr⟩ := Rp.child (by decide) hright hr
  obtain ⟨rfl, hru⟩ := Rr.treeChunk S hu
  exact ⟨rfl, hps, hqt, hru⟩

set_option maxRecDepth 100000 in
/-- Of the chunks of 704, 568, 648 and again 568 bytes in one bin, one of 568 serves a request
for 544. -/
theorem tree_search_best_fit_freed : ∃ σ h τ, Sound σ 4160 h ∧ TreeChunk h 5080 704 ∧
    TreeChunk h 5816 568 ∧ TreeChunk h 6416 648 ∧ tmallocLarge 4160 544 σ = .ok (5832, τ) ∧
    BestFit h 544 5816 568 ∧ Taken τ 4160 h 5816 544 := by
  have hrun : result (do
      let (ms, _, live) ← session 4096 65536 0 [.malloc 696, .malloc 16, .malloc 560, .malloc 16,
        .malloc 640, .malloc 16, .malloc 560, .malloc 16, .free 7, .free 5, .free 3, .free 1]
      let tops ← topOfTree ms 2
      return (ms, live, tops, ← tmallocLarge ms 544)) zeroed = some (4160, [7680, 7080, 6400, 5800],
        [(5080, 704), (5816, 568), (6416, 648)], 5832) := by
    decide +kernel
  obtain ⟨τ, hτ⟩ := result_ok hrun
  obtain ⟨⟨ms, vs, live⟩, σ, hσ, hrest⟩ := bind_ok hτ
  obtain ⟨tops, σ₁, htops, hrest⟩ := bind_ok hrest
  obtain ⟨r, υ, hr, hpure⟩ := bind_ok hrest
  cases hpure
  have R := reach_session zeroed_ready hσ (by decide)
  obtain ⟨h, hs, hlarge, _⟩ := tree_search_best_fit R (by decide)
  obtain ⟨rfl, hp, hq, hr'⟩ := hs.topOfTree (by decide) htops (by decide) (by decide) (by decide)
  obtain ⟨r, ω, hok, hcase⟩ := hlarge 544 (by decide) (by decide) (by decide)
  obtain ⟨rfl, rfl⟩ := Prod.mk.injEq .. ▸ Except.ok.inj (hr.symm.trans hok)
  rcases hcase with ⟨a, s, hfit, _, hra, htaken⟩ | ⟨_, h0, _⟩
  · obtain rfl : a = 5816 := by
      simp only [chunk2mem] at hra
      omega
    obtain rfl : s = 568 := hs.tree_size_eq hfit.1 hq
    exact ⟨_, h, _, hs, hp, hq, hr', hok, hfit, htaken⟩
  · exact absurd h0 (by decide)

set_option maxRecDepth 100000 in
/-- Neither search does this for requests that `mspace_malloc` does not pass to it. With chunks
of 376, 256 and 320 bytes in the first bin `tmalloc_large` takes the one of 320 for a request of
64, and with a `dv` of 39976 bytes `tmalloc_small` takes nothing: it writes that chunk to a small
bin far outside of the image. -/
theorem tree_search_other_requests :
    (∃ σ h live τ, Reach 4096 65536 4160 σ live ∧ Sound σ 4160 h ∧ BestFit h 64 5488 256 ∧
      h.dvsize < 64 ∧ tmallocLarge 4160 64 σ = .ok (chunk2mem 5776, τ) ∧
      ∀ s, ¬ BestFit h 64 5776 s) ∧
    ∃ σ h live w, Reach 4096 65536 4160 σ live ∧ Sound σ 4160 h ∧
      σ.get 4 (treemap 4160) = some w ∧ w ≠ 0 ∧ result (tmallocSmall 4160 32) σ = none := by
  constructor
  · have hrun : result (do
        let (ms, _, live) ← session 4096 65536 0 [.malloc 368, .malloc 16, .malloc 248, .malloc 16,
          .malloc 312, .malloc 16, .free 5, .free 3, .free 1]
        let tops ← topOfTree ms 0
        let dvs ← load 8 (dvsize ms)
        return (ms, live, tops, dvs, ← tmallocLarge ms 64)) zeroed = some (4160, [6112, 5760, 5472],
          [(5080, 376), (5488, 256), (5776, 320)], 0, 5792) := by
      decide +kernel
    obtain ⟨τ, hτ⟩ := result_ok hrun
    obtain ⟨⟨ms, vs, live⟩, σ, hσ, hrest⟩ := bind_ok hτ
    obtain ⟨tops, σ₁, htops, hrest⟩ := bind_ok hrest
    obtain ⟨dvs, σ₂, hdv, hrest⟩ := bind_ok hrest
    obtain ⟨r, υ, hr, hpure⟩ := bind_ok hrest
    cases hpure
    have R := reach_session zeroed_ready hσ (by decide)
    obtain ⟨_, _, h, H⟩ := reach_held R
    have S : Sound σ 4160 h := H.sound
    obtain ⟨rfl, _, hleft, hright⟩ :=
      S.topOfTree (by decide) htops (by decide) (by decide) (by decide)
    obtain ⟨hw, rfl⟩ := load_ok hdv
    have hdv0 : 0 = h.dvsize := Option.some.inj (hw.symm.trans S.dv.2.1)
    have hfit : BestFit h 64 5488 256 :=
      ⟨hleft, by decide, fun b t hb _ => hb.large H.ok⟩
    refine ⟨_, h, _, _, R, S, hfit, by omega, hr, fun s hs => ?_⟩
    have h1 := hs.size_eq hfit
    have h2 := S.tree_size_eq hs.1 hright
    omega
  · have hrun : result (do
        let (ms, _, live) ← session 4096 65536 0 [.malloc 40000, .malloc 16, .malloc 600, .malloc 16,
          .free 3, .malloc 16, .free 2]
        return (ms, live, ← load 4 (treemap ms))) zeroed = some (4160, [5096, 45744, 45104], 4) := by
      decide +kernel
    have hfail : result (session 4096 65536 0 [.malloc 40000, .malloc 16, .malloc 600, .malloc 16,
        .free 3, .malloc 16, .free 2] >>= fun r => tmallocSmall r.1 32) zeroed = none := by
      decide +kernel
    obtain ⟨τ, hτ⟩ := result_ok hrun
    obtain ⟨⟨ms, vs, live⟩, σ, hσ, hrest⟩ := bind_ok hτ
    obtain ⟨w, σ₁, hmap, hpure⟩ := bind_ok hrest
    cases hpure
    rw [result_bind hσ] at hfail
    have R := reach_session zeroed_ready hσ (by decide)
    obtain ⟨_, _, h, H⟩ := reach_held R
    obtain ⟨hw, rfl⟩ := load_ok hmap
    exact ⟨_, h, _, 4, R, H.sound, hw, by decide, hfail⟩

end

end Mmdata.Proofs
