import Mmdata.Malloc.Mspace
import Mmdata.Proofs.Tiles

namespace Mmdata.Proofs
open Lib Malloc

/-- A heap as its words describe it: the chunks from the first behind the
malloc_state up to top, the bins, the designated victim, top, and the counter. -/
structure Heap where
  chunks : List Chunk
  bins : Bins
  dv : Nat
  dvsize : Nat
  top : Nat
  topsize : Nat
  exts : Nat

/-- The words of the malloc_state outside the bins. -/
structure Scalars (σ : State) (m lo hi d ds t ts e : Nat) : Prop where
  dvPtr : σ.getPtr (m + 32) = some d
  dvWord : σ.get 8 (m + 8) = some ds
  topPtr : σ.getPtr (m + 40) = some t
  topWord : σ.get 8 (m + 16) = some ts
  extsWord : σ.get 8 (m + 920) = some e
  trimWord : ∃ v, σ.get 8 (m + 48) = some v
  checkWord : ∃ v, σ.get 8 (m + 56) = some v
  segBase : σ.getPtr (m + 880) = some lo
  segSize : σ.get 8 (m + 888) = some (hi + 48 - lo)
  segNext : σ.getPtr (m + 896) = some 0
  segFlags : σ.get 4 (m + 904) = some externBit
  footprint : σ.get 8 (m + 856) = some (hi + 48 - lo)
  maxFootprint : σ.get 8 (m + 864) = some (hi + 48 - lo)
  flags : ∃ v, σ.get 4 (m + 872) = some v

/-- The heap `h`, whose bins hold the chunks of `F`. -/
structure Core (σ : State) (m lo hi : Nat) (h : Heap) (F : Nat → Nat → Prop) : Prop where
  arena : Arena σ m lo hi
  scalars : Scalars σ m lo hi h.dv h.dvsize h.top h.topsize h.exts
  tiled : Tiled σ true (m + 920) h.chunks true h.top
  topHead : σ.get 8 (h.top + 8) = some (headWord h.topsize true false)
  topAlign : h.topsize % 8 = 0
  topFits : 0 < h.topsize ∧ h.top + h.topsize + 24 = hi
  topFoot : σ.get 8 (hi - 16) = some topFootSize
  binned : Binned σ m hi h.bins F

/-- The free chunks that belong in bins. -/
def Heap.inBins (h : Heap) (a s : Nat) : Prop := ⟨a, s, false⟩ ∈ h.chunks ∧ a ≠ h.dv

/-- `dvsize` is 0, or the size of the free chunk `dv`. -/
def Heap.DvOk (h : Heap) : Prop :=
  h.dv = 0 ∧ h.dvsize = 0 ∨ ⟨h.dv, h.dvsize, false⟩ ∈ h.chunks

/-- The invariant of an mspace between operations. -/
structure Ok (σ : State) (m lo hi : Nat) (h : Heap) : Prop where
  core : Core σ m lo hi h h.inBins
  dvOk : h.DvOk

/-- Bytes that belong to the allocator while the bytes of `P` belong to clients. -/
def Own (m hi : Nat) (P : Nat → Prop) (b : Nat) : Prop := m ≤ b ∧ b < hi ∧ ¬ P b

/-- The same but for the trim threshold, which only trimming writes. -/
def Quiet (m hi : Nat) (P : Nat → Prop) (b : Nat) : Prop :=
  Own m hi P b ∧ (b < m + 48 ∨ m + 56 ≤ b)

section

variable {σ τ : State} {W P : Nat → Prop} {m lo hi d ds t ts e : Nat} {h : Heap}
  {F F' G : Nat → Nat → Prop}

/-- No scalar changes by writes to the bins or to the chunks. -/
theorem Scalars.frame (S : Scalars σ m lo hi d ds t ts e) (hf : Frame W σ τ)
    (h1 : ∀ b, m + 8 ≤ b → b < m + 72 → ¬ W b) (h2 : ∀ b, m + 856 ≤ b → b < m + 928 → ¬ W b) :
    Scalars τ m lo hi d ds t ts e := by
  refine ⟨?_, ?_, ?_, ?_, ?_, ?_, ?_, ?_, ?_, ?_, ?_, ?_, ?_, ?_⟩
  · rw [hf.getPtr (fun b ha hb => h1 b (by omega) (by omega))]
    exact S.dvPtr
  · rw [hf.get (fun b ha hb => h1 b (by omega) (by omega))]
    exact S.dvWord
  · rw [hf.getPtr (fun b ha hb => h1 b (by omega) (by omega))]
    exact S.topPtr
  · rw [hf.get (fun b ha hb => h1 b (by omega) (by omega))]
    exact S.topWord
  · rw [hf.get (fun b ha hb => h2 b (by omega) (by omega))]
    exact S.extsWord
  · rw [hf.get (fun b ha hb => h1 b (by omega) (by omega))]
    exact S.trimWord
  · rw [hf.get (fun b ha hb => h1 b (by omega) (by omega))]
    exact S.checkWord
  · rw [hf.getPtr (fun b ha hb => h2 b (by omega) (by omega))]
    exact S.segBase
  · rw [hf.get (fun b ha hb => h2 b (by omega) (by omega))]
    exact S.segSize
  · rw [hf.getPtr (fun b ha hb => h2 b (by omega) (by omega))]
    exact S.segNext
  · rw [hf.get (fun b ha hb => h2 b (by omega) (by omega))]
    exact S.segFlags
  · rw [hf.get (fun b ha hb => h2 b (by omega) (by omega))]
    exact S.footprint
  · rw [hf.get (fun b ha hb => h2 b (by omega) (by omega))]
    exact S.maxFootprint
  · rw [hf.get (fun b ha hb => h2 b (by omega) (by omega))]
    exact S.flags

/-- The bins depend on nothing but their zone. -/
theorem Binned.frame {B : Bins} (hB : Binned σ m hi B F) (S : Spread σ m hi F)
    (hf : Frame W σ τ) (hw : ∀ b, BinZone m F b → ¬ W b) : Binned τ m hi B F := by
  have hsm : ∀ i < 32, ∀ a ∈ B.small i, F a (8 * i) := fun i hi a ha => (hB.smallMem i hi a).mp ha
  refine ⟨hB.smallMap.frame hf ?_, hB.treeMap.frame hf ?_, fun i hi hne => ?_, fun i hi => ?_,
    hB.smallMem, hB.treeMem, hB.smallNodup, hB.treeNodup, hB.ordered⟩
  · exact fun b h1 h2 => hw b (Or.inl ⟨h1, by omega⟩)
  · exact fun b h1 h2 => hw b (Or.inl ⟨by omega, by omega⟩)
  · refine ring_frame (hB.smallRing i hi hne) hf (fun b hb => hw b ?_)
    exact smallZone_binZone hi (hsm i hi) S b (Or.inr hb)
  · have hz : ∀ b, TreeZone m i (B.tree i).addrs b → BinZone m F b := by
      refine treeZone_binZone hi (fun a ha => ?_)
      obtain ⟨s, hs, h256, _⟩ := hB.treeAddr hi ha
      exact ⟨s, hs, h256⟩
    refine (hB.treeBin i hi).frame hf (fun b h1 h2 => hw b ?_) (fun b hb => hw b ?_)
    · exact hz b (Or.inr (Or.inl ⟨h1, h2⟩))
    · exact hz b (Or.inr (Or.inr hb))

theorem Core.first_align (C : Core σ m lo hi h F) : (m + 920) % 8 = 0 := by
  have ha := C.arena.align
  omega

theorem Core.chunk_bounds (C : Core σ m lo hi h F) {c : Chunk} (hc : c ∈ h.chunks) :
    c.addr % 8 = 0 ∧ c.size % 8 = 0 ∧ 32 ≤ c.size ∧ m + 920 ≤ c.addr ∧
      c.addr + c.size + 32 ≤ hi := by
  obtain ⟨h1, h2, _, hcc⟩ := C.tiled.mem hc
  have h8 := C.tiled.mem_align C.first_align hc
  have htop := C.tiled.align C.first_align
  have hts := C.topAlign
  obtain ⟨hpos, hfits⟩ := C.topFits
  exact ⟨h8, hcc.align, hcc.large, h1, by omega⟩

/-- The foot lies behind the head of top. -/
theorem Core.foot_behind (C : Core σ m lo hi h F) : h.top + 32 ≤ hi ∧ m + 920 ≤ h.top := by
  have htop := C.tiled.le
  have hts := C.topAlign
  obtain ⟨hpos, hfits⟩ := C.topFits
  omega

/-- Free chunks are spread out. -/
theorem Core.spread (C : Core σ m lo hi h F) (hG : ∀ a s, G a s → ⟨a, s, false⟩ ∈ h.chunks) :
    Spread σ m hi G := by
  refine ⟨fun a s ha => ?_, fun a s ha => ?_, fun a s ha => ?_, fun a s b t ha hb => ?_⟩
  · obtain ⟨h1, h2, _⟩ := C.chunk_bounds (hG a s ha)
    exact ⟨h1, h2⟩
  · obtain ⟨_, _, h3, h4, h5⟩ := C.chunk_bounds (hG a s ha)
    simp only at h3 h4 h5
    omega
  · obtain ⟨_, _, pv, hcc⟩ := C.tiled.mem (hG a s ha)
    have hpv := (hcc.free rfl).1
    subst hpv
    exact hcc.head
  · have hap := C.tiled.apart (hG a s ha) (hG b t hb)
    simpa using hap

theorem BinZone.bounds (S : Spread σ m hi F) {b : Nat} (hb : BinZone m F b) :
    (m ≤ b ∧ b < m + 8) ∨ (m + 72 ≤ b ∧ b < m + 856) ∨ (m + 936 ≤ b ∧ b < hi) := by
  rcases hb with hb | hb | ⟨a, s, ha, h1, h2⟩
  · exact Or.inl hb
  · exact Or.inr (Or.inl hb)
  · have hab := S.bounds a s ha
    exact Or.inr (Or.inr (by omega))

/-- Work on the bins leaves the tiling alone. -/
theorem Core.binZone_tile (C : Core σ m lo hi h F) (hG : ∀ a s, G a s → ⟨a, s, false⟩ ∈ h.chunks)
    {b : Nat} (hb : BinZone m G b) : ¬ TileWord h.chunks b ∧ ¬ Payload h.chunks b ∧
      b < h.top + 8 := by
  have hword : TileWord h.chunks b → m + 928 ≤ b := fun ht => by
    have hwb := C.tiled.word_bounds ht
    omega
  have hpay : Payload h.chunks b → m + 936 ≤ b := fun hp => by
    have hpb := C.tiled.payload_bounds hp
    omega
  have htop := C.tiled.le
  rcases hb with hb | hb | ⟨a, s, ha, h1, h2⟩
  · exact ⟨fun ht => by have hw := hword ht; omega, fun hp => by have hq := hpay hp; omega,
      by omega⟩
  · exact ⟨fun ht => by have hw := hword ht; omega, fun hp => by have hq := hpay hp; omega,
      by omega⟩
  · have hm := hG a s ha
    have hab := C.tiled.mem hm
    refine ⟨?_, C.tiled.free_not_payload hm rfl (by simpa using by omega) (by simpa using by omega),
      by simp only at hab; omega⟩
    rintro ⟨c, hc, hw⟩
    obtain ⟨_, _, _, hcc⟩ := C.tiled.mem hc
    have hl := hcc.large
    rcases C.tiled.apart hm hc with rfl | hap | hap
    · simp only at hw
      omega
    · simp only at hap
      omega
    · simp only at hap
      omega

/-- The bins have changed, and nothing else. -/
theorem Core.rebin {B : Bins} (C : Core σ m lo hi h F)
    (hG : ∀ a s, G a s → ⟨a, s, false⟩ ∈ h.chunks) (hf : Frame (BinZone m G) σ τ)
    (hB : Binned τ m hi B F') : Core τ m lo hi { h with bins := B } F' := by
  have S := C.spread hG
  refine ⟨C.arena.frame hf ?_, C.scalars.frame hf ?_ ?_, C.tiled.frame hf ?_, ?_, C.topAlign,
    C.topFits, ?_, hB⟩
  · intro b h1 h2 hb
    have hbb := BinZone.bounds S hb
    omega
  · intro b h1 h2 hb
    have hbb := BinZone.bounds S hb
    omega
  · intro b h1 h2 hb
    have hbb := BinZone.bounds S hb
    omega
  · intro b hb hz
    exact (C.binZone_tile hG hz).1 hb
  · simp only
    rw [hf.get ?_]
    · exact C.topHead
    · intro b h1 h2 hb
      have hbt := (C.binZone_tile hG hb).2.2
      omega
  · rw [hf.get ?_]
    · exact C.topFoot
    · intro b h1 h2 hb
      have hbt := (C.binZone_tile hG hb).2.2
      have hroom := C.foot_behind
      omega

theorem Quiet.own {b : Nat} (h : Quiet m hi P b) : Own m hi P b := h.1

theorem Core.binZone_quiet (C : Core σ m lo hi h F) (hG : ∀ a s, G a s → ⟨a, s, false⟩ ∈ h.chunks) :
    ∀ b, BinZone m G b → Quiet m hi (Payload h.chunks) b := by
  intro b hb
  have hbb := BinZone.bounds (C.spread hG) hb
  have hhigh := C.arena.high
  refine ⟨⟨by omega, by omega, (C.binZone_tile hG hb).2.1⟩, ?_⟩
  rcases hb with hb | hb | ⟨a, s, ha, h1, h2⟩
  · exact Or.inl (by omega)
  · exact Or.inr (by omega)
  · have hab := (C.spread hG).bounds a s ha
    exact Or.inr (by omega)

/-- The tiling has changed, and nothing else. -/
theorem Core.retile {cs : List Chunk} (C : Core σ m lo hi h F) (S : Spread σ m hi F)
    (hf : Frame W σ τ) (hlow : ∀ b, W b → m + 928 ≤ b ∧ b < h.top + 16)
    (hw : ∀ b, BinZone m F b → ¬ W b)
    (ht : Tiled τ true (m + 920) cs true h.top)
    (hh : τ.get 8 (h.top + 8) = some (headWord h.topsize true false)) :
    Core τ m lo hi { h with chunks := cs } F := by
  have hroom := C.foot_behind
  refine ⟨C.arena.frame hf ?_, C.scalars.frame hf ?_ ?_, ht, hh, C.topAlign, C.topFits, ?_,
    C.binned.frame S hf hw⟩
  · intro b h1 h2 hb
    have hl := hlow b hb
    omega
  · intro b h1 h2 hb
    have hl := hlow b hb
    omega
  · intro b h1 h2 hb
    have hl := hlow b hb
    omega
  · rw [hf.get ?_]
    · exact C.topFoot
    · intro b h1 h2 hb
      have hl := hlow b hb
      omega

end

end Mmdata.Proofs
