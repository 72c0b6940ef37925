import Mathlib.Data.List.Chain
import Mmdata.Proofs.Runs

namespace Mmdata.Proofs
open Lib Malloc

inductive Bin
  | small (i : Nat)
  | tree (i : Nat)
deriving DecidableEq

/-- The bin that a size selects. -/
def binOf (s : Nat) : Bin :=
  if isSmall s then .small (smallIndex s) else .tree (computeTreeIndex s)

/-- The chunk `a` is in the bin. -/
def Bins.holds (B : Bins) : Bin → Nat → Prop
  | .small i, a => i < 32 ∧ a ∈ B.small i
  | .tree i, a => i < 32 ∧ a ∈ (B.tree i).addrs

/-- The bins as the links in memory make them: a ring through the header of each
small bin in use, and a tree by chunk sizes below each tree bin. -/
structure Linked (σ : State) (m : Nat) (B : Bins) : Prop where
  small : ∀ i < 32, B.small i ≠ [] →
    LinkRing (fwd σ) (bwd σ) (smallbinAt m i) (B.small i)
  root : ∀ i < 32, σ.getPtr (treebinAt m i) = some (B.tree i).root
  tree : ∀ i < 32, ∃ par, TreeAt σ i par (B.tree i)
  ordered : ∀ i < 32, (B.tree i).Ordered (sizeBit i) 0
  once : ∀ i < 32, (B.small i).Nodup ∧ (B.tree i).addrs.Nodup

/-- Of two neighbours one is in use. -/
def Coalesced (cs : List Chunk) : Prop := cs.IsChain fun c d => c.used = true ∨ d.used = true

/-- The chunk of the malloc_state, and those behind it up to top. -/
def allChunks (m : Nat) (h : Heap) : List Chunk := ⟨mem2chunk m, mstateSize, true⟩ :: h.chunks

/-- The mspace at `m` holds the heap `h`, and the heap is as it should be. -/
structure Sound (σ : State) (m : Nat) (h : Heap) : Prop where
  segment : ∃ b size, σ.getPtr (segBase (seg m)) = some b ∧
    σ.get 8 (segSize (seg m)) = some size ∧ m = chunk2mem (alignAsChunk b) ∧
    h.top + h.topsize + topFootSize = b + size
  tiled : Tiled σ true (mem2chunk m) (allChunks m h) true h.top
  top : σ.getPtr (top m) = some h.top ∧ σ.get 8 (topsize m) = some h.topsize
  topHead : σ.get 8 (head h.top) = some (headWord h.topsize true false)
  coalesced : Coalesced (allChunks m h ++ [⟨h.top, h.topsize, false⟩])
  linked : Linked σ m h.bins
  filed : ∀ bin a, h.bins.holds bin a ↔
    ∃ s, ⟨a, s, false⟩ ∈ h.chunks ∧ a ≠ h.dv ∧ binOf s = bin
  keyed : ∀ i < 32, ∀ e ∈ (h.bins.tree i).entries, ⟨e.1, e.2, false⟩ ∈ h.chunks
  unfiled : ∀ bin a, h.bins.holds bin a → a ≠ h.top ∧ ∀ s, ⟨a, s, true⟩ ∉ h.chunks
  smallMap : MapAt σ (smallmap m) fun i => ∃ a, h.bins.holds (.small i) a
  treeMap : MapAt σ (treemap m) fun i => ∃ a, h.bins.holds (.tree i) a
  dv : σ.getPtr (dv m) = some h.dv ∧ σ.get 8 (dvsize m) = some h.dvsize ∧
    (h.dvsize = 0 ∨ ⟨h.dv, h.dvsize, false⟩ ∈ h.chunks)

section

variable {σ : State} {m lo hi p q base cap ms : Nat} {h : Heap} {live : List Nat}

/-- The memory says which heap it holds. -/
theorem Sound.same {h' : Heap} (S : Sound σ m h) (S' : Sound σ m h') :
    h'.top = h.top ∧ h'.topsize = h.topsize ∧ h'.chunks = h.chunks := by
  have htop : h'.top = h.top := Option.some.inj (S'.top.1.symm.trans S.top.1)
  have htiled := S'.tiled
  rw [htop] at htiled
  have hall : allChunks m h' = allChunks m h := htiled.unique S.tiled
  exact ⟨htop, Option.some.inj (S'.top.2.symm.trans S.top.2), (List.cons.inj hall).2⟩

/-- Between free chunks there is one in use. -/
theorem Tiled.coalesced {cs : List Chunk} {pu : Bool} {c t : Chunk} (hc : c.used = pu)
    (ht : Tiled σ pu p cs true q) :
    Coalesced (c :: cs ++ [t]) := by
  induction cs generalizing pu p c with
  | nil =>
    have hpu := ht.1
    exact List.isChain_pair.mpr (Or.inl (hc.trans hpu.symm))
  | cons d cs ih =>
    obtain ⟨_, hd, hrest⟩ := ht
    apply List.isChain_cons_cons.mpr
    refine ⟨?_, ih rfl hrest⟩
    cases hu : d.used with
    | true => exact Or.inr rfl
    | false => exact Or.inl (hc.trans (hd.free hu).1)

theorem Core.holds_small {F : Nat → Nat → Prop} (C : Core σ m lo hi h F)
    (hF : ∀ a s, F a s → ⟨a, s, false⟩ ∈ h.chunks) (i a : Nat) :
    h.bins.holds (.small i) a ↔ ∃ s, F a s ∧ binOf s = .small i := by
  constructor
  · rintro ⟨hi32, ha⟩
    have hm := (C.binned.smallMem i hi32 a).mp ha
    refine ⟨8 * i, hm, ?_⟩
    have hs : isSmall (8 * i) = true := (isSmall_iff _).mpr (by omega)
    simp only [binOf, hs, if_true, smallIndex_eq, Bin.small.injEq]
    omega
  · rintro ⟨s, ha, hb⟩
    have hs8 := (C.chunk_bounds (hF a s ha)).2.1
    simp only at hs8
    unfold binOf at hb
    split at hb
    · rename_i hs
      rw [isSmall_iff] at hs
      rw [smallIndex_eq, Bin.small.injEq] at hb
      have he : s = 8 * i := by omega
      exact ⟨by omega, (C.binned.smallMem i (by omega) a).mpr (he ▸ ha)⟩
    · contradiction

theorem Core.holds_tree {F : Nat → Nat → Prop} (C : Core σ m lo hi h F) (i a : Nat) :
    h.bins.holds (.tree i) a ↔ ∃ s, F a s ∧ binOf s = .tree i := by
  constructor
  · rintro ⟨hi32, ha⟩
    obtain ⟨⟨a, s⟩, he, rfl⟩ := List.mem_map.mp ha
    obtain ⟨hF, h256, hidx⟩ := (C.binned.treeMem i hi32 a s).mp he
    have hs : ¬ isSmall s = true := by
      rw [isSmall_iff]
      omega
    exact ⟨s, hF, by simp only [binOf, if_neg hs, hidx]⟩
  · rintro ⟨s, ha, hb⟩
    unfold binOf at hb
    split at hb
    · contradiction
    · rename_i hs
      rw [isSmall_iff] at hs
      rw [Bin.tree.injEq] at hb
      have hi32 : i < 32 := hb ▸ computeTreeIndex_lt s
      have he := (C.binned.treeMem i hi32 a s).mpr ⟨ha, by omega, hb⟩
      exact ⟨hi32, List.mem_map.mpr ⟨(a, s), he, rfl⟩⟩

theorem Ok.filed (O : Ok σ m lo hi h) (bin : Bin) (a : Nat) : h.bins.holds bin a ↔
    ∃ s, ⟨a, s, false⟩ ∈ h.chunks ∧ a ≠ h.dv ∧ binOf s = bin := by
  have hin : (∃ s, h.inBins a s ∧ binOf s = bin) ↔
      ∃ s, ⟨a, s, false⟩ ∈ h.chunks ∧ a ≠ h.dv ∧ binOf s = bin :=
    exists_congr fun s => and_assoc
  rw [← hin]
  cases bin with
  | small i => exact O.core.holds_small inBins_free i a
  | tree i => exact O.core.holds_tree i a

theorem mapAt_congr {P P' : Nat → Prop} {a : Nat} (hM : MapAt σ a P)
    (hP : ∀ i < 32, P i ↔ P' i) : MapAt σ a P' := by
  obtain ⟨w, hw, hb⟩ := hM
  exact ⟨w, hw, fun i hi32 => (hb i hi32).trans (hP i hi32)⟩

/-- The invariant in full, read off memory. -/
theorem Held.sound (H : Held σ base cap live h) : Sound σ (base + 64) h := by
  have O := H.ok
  have C := O.core
  have hal := C.arena.align
  obtain ⟨_, hfits⟩ := C.topFits
  have htop := C.tiled.le
  have htile : Tiled σ true (base + 48) (⟨base + 48, 936, true⟩ :: h.chunks) true h.top :=
    ⟨rfl, ⟨show 936 % 8 = 0 by decide, show 32 ≤ 936 by decide, H.ownHead, fun hu => by contradiction⟩, C.tiled⟩
  refine ⟨⟨base + 48, base + cap + 48 - (base + 48), C.scalars.segBase, C.scalars.segSize, ?_, ?_⟩,
    htile, ⟨C.scalars.topPtr, C.scalars.topWord⟩, C.topHead, htile.2.2.coalesced rfl,
    ⟨C.binned.smallRing, fun i hi32 => (C.binned.treeBin i hi32).1, ?_, C.binned.ordered,
      fun i hi32 => ⟨C.binned.smallNodup i hi32, C.binned.treeNodup i hi32⟩⟩,
    O.filed, fun i hi32 e he => ((C.binned.treeMem i hi32 e.1 e.2).mp he).1.1, ?_, ?_, ?_,
    C.scalars.dvPtr, C.scalars.dvWord, ?_⟩
  · rw [alignAsChunk_self (by omega)]
    rfl
  · simp only [topFootSize]
    omega
  · intro i hi32
    obtain ⟨_, par, _, ht⟩ := C.binned.treeBin i hi32
    exact ⟨par, ht⟩
  · intro bin a ha
    obtain ⟨s, hm, _, _⟩ := (O.filed bin a).mp ha
    obtain ⟨_, hle, _, hc⟩ := C.tiled.mem hm
    have hlarge := hc.large
    simp only at hle hlarge
    refine ⟨by omega, fun t ht => ?_⟩
    have hu := (C.free_unique hm ht).2
    contradiction
  · apply mapAt_congr C.binned.smallMap
    intro i hi32
    rw [List.ne_nil_iff_exists_cons]
    constructor
    · rintro ⟨a, l, hl⟩
      exact ⟨a, hi32, by simp [hl]⟩
    · rintro ⟨a, _, ha⟩
      exact List.ne_nil_iff_exists_cons.mp (List.ne_nil_of_mem ha)
  · apply mapAt_congr C.binned.treeMap
    intro i hi32
    constructor
    · intro hne
      cases ht : h.bins.tree i with
      | nil => exact absurd ht hne
      | node a s ring l r =>
        exact ⟨a, hi32, by rw [ht]; simp [Trie.addrs, Trie.entries]⟩
    · rintro ⟨a, _, ha⟩ hnil
      rw [hnil] at ha
      contradiction
  · rcases O.dvOk with ⟨_, hd⟩ | hd
    · exact Or.inl hd
    · exact Or.inr hd

/-- In every state reached the heap is sound, and every call returns, unless it
divides by a granularity of zero that the buffer brought along. -/
theorem heap_stays_sound (R : Reach base cap ms σ live) : (∃ h, Sound σ ms h) ∧
    ∀ c e, perform ms live c σ = .error e →
      e = .divZero ∧ σ.get 8 (paramGranularity σ.glob.pmparams) = some 0 := by
  obtain ⟨rfl, T, h, H⟩ := reach_held R
  refine ⟨⟨h, H.sound⟩, fun c e he => ?_⟩
  have T' : TrimOk (fun e => e = .divZero ∧ σ.get 8 (paramGranularity σ.glob.pmparams) = some 0)
      σ (base + 64) (base + cap) :=
    ⟨T.outside, T.mapped, fun hn => absurd (T.known hn) (by decide), fun hz => ⟨rfl, hz⟩⟩
  exact wp_error (H.ok.wp_perform H.blocks fun _ => T') he

set_option maxRecDepth 100000 in
/-- Two blocks given, one grown, one taken back. -/
theorem heap_stays_sound_session : ∃ τ, session 4096 65536 0 [.malloc 100, .malloc 600,
    .realloc 1 300, .free 0] zeroed = .ok ((4160, [5096, 5208, 5816, 0], [5816]), τ) ∧
    ∃ h, Sound τ 4160 h := by
  have hrun : result (session 4096 65536 0 [.malloc 100, .malloc 600, .realloc 1 300, .free 0])
      zeroed = some (4160, [5096, 5208, 5816, 0], [5816]) := by
    decide +kernel
  obtain ⟨τ, hτ⟩ := result_ok hrun
  exact ⟨τ, hτ, (heap_stays_sound (reach_session zeroed_ready hτ (by decide))).1⟩

end

end Mmdata.Proofs
