import Mmdata.Proofs.Living

namespace Mmdata.Proofs
open Lib Malloc

/-- The words that growth by `inc` bytes writes: the sizes, the head of top, and the mark
behind the new end of top. -/
def Grown (m hi t inc b : Nat) : Prop :=
  m + 16 ≤ b ∧ b < m + 24 ∨ m + 856 ≤ b ∧ b < m + 872 ∨ m + 888 ≤ b ∧ b < m + 896 ∨
    t + 8 ≤ b ∧ b < t + 16 ∨ hi + inc - 16 ≤ b ∧ b < hi + inc - 8

/-- All that is new belongs to top. -/
def Heap.grow (h : Heap) (inc : Nat) : Heap := { h with topsize := h.topsize + inc }

section

variable {K : State → Prop} {D : Trap → Prop} {σ τ : State} {W : Nat → Prop} {m lo hi inc base cap : Nat} {h : Heap}
  {F : Nat → Nat → Prop} {B : Bins} {live : List Nat}

/-- Bins are bins in a larger segment. -/
theorem Binned.wider {hi' : Nat} (hB : Binned σ m hi B F) (hle : hi ≤ hi') :
    Binned σ m hi' B F := by
  refine ⟨hB.smallMap, hB.treeMap, hB.smallRing, fun i hi => ?_, hB.smallMem, hB.treeMem,
    hB.smallNodup, hB.treeNodup, hB.ordered⟩
  obtain ⟨hroot, par, ⟨h8, h1, h2⟩, ht⟩ := hB.treeBin i hi
  exact ⟨hroot, par, ⟨h8, h1, by omega⟩, ht⟩

theorem Core.grow (C : Core σ m lo hi h F) (hsub : ∀ a s, F a s → ⟨a, s, false⟩ ∈ h.chunks)
    (hf : Frame (Grown m hi h.top inc) σ τ) (h8 : inc % 8 = 0) (hword : hi + inc ≤ 2 ^ 64)
    (hmap : ∃ r ∈ τ.maps, r.1 ≤ m ∧ hi + inc ≤ r.2)
    (h1 : τ.get 8 (m + 16) = some (h.topsize + inc))
    (h2 : τ.get 8 (m + 888) = some (hi + 48 - lo + inc))
    (h3 : τ.get 8 (m + 856) = some (hi + 48 - lo + inc))
    (h4 : τ.get 8 (m + 864) = some (hi + 48 - lo + inc))
    (h5 : τ.get 8 (h.top + 8) = some (headWord (h.topsize + inc) true false))
    (h6 : τ.get 8 (hi + inc - 16) = some topFootSize) :
    Core τ m lo (hi + inc) (h.grow inc) F := by
  have A := C.arena
  have S := C.scalars
  have htop := C.tiled.le
  have hlow := A.low
  obtain ⟨hpos, hfit⟩ := C.topFits
  have hsize : hi + inc + 48 - lo = hi + 48 - lo + inc := by omega
  have hts := C.topAlign
  refine ⟨⟨A.align, A.pos, A.low, ?_, hword, hmap, ?_⟩,
    ⟨?_, ?_, ?_, h1, ?_, ?_, ?_, ?_, ?_, ?_, ?_, ?_, ?_, ?_⟩, ?_, h5, ?_, ?_, h6,
    (C.binned.frame (C.spread hsub) hf ?_).wider (Nat.le_add_right hi inc)⟩
  · have hhigh := A.high
    omega
  · rw [hf.getPtr (fun b h1 h2 hb => by simp only [Grown] at hb; omega)]
    exact A.least
  · rw [hf.getPtr (fun b h1 h2 hb => by simp only [Grown] at hb; omega)]
    exact S.dvPtr
  · rw [hf.get (fun b h1 h2 hb => by simp only [Grown] at hb; omega)]
    exact S.dvWord
  · rw [hf.getPtr (fun b h1 h2 hb => by simp only [Grown] at hb; omega)]
    exact S.topPtr
  · rw [hf.get (fun b h1 h2 hb => by simp only [Grown] at hb; omega)]
    exact S.extsWord
  · rw [hf.get (fun b h1 h2 hb => by simp only [Grown] at hb; omega)]
    exact S.trimWord
  · rw [hf.get (fun b h1 h2 hb => by simp only [Grown] at hb; omega)]
    exact S.checkWord
  · rw [hf.getPtr (fun b h1 h2 hb => by simp only [Grown] at hb; omega)]
    exact S.segBase
  · rw [hsize]
    exact h2
  · rw [hf.getPtr (fun b h1 h2 hb => by simp only [Grown] at hb; omega)]
    exact S.segNext
  · rw [hf.get (fun b h1 h2 hb => by simp only [Grown] at hb; omega)]
    exact S.segFlags
  · rw [hsize]
    exact h3
  · rw [hsize]
    exact h4
  · rw [hf.get (fun b h1 h2 hb => by simp only [Grown] at hb; omega)]
    exact S.flags
  · exact C.tiled.frame_outside hf fun b h1 h2 hb => by simp only [Grown] at hb; omega
  · simp only [Heap.grow]
    omega
  · simp only [Heap.grow]
    omega
  · intro b hb hc
    have hbb := BinZone.bounds (C.spread hsub) hb
    have hno : b < h.top := Nat.lt_of_not_le fun hle => C.not_binZone hsub hle hb
    simp only [Grown] at hc
    omega

/-- `mspace_inc_size`, where the memory behind the segment is mapped. -/
theorem Ok.wp_incSize {Q : Unit → State → Prop} (O : Ok σ m lo hi h) (h8 : inc % 8 = 0)
    (hword : hi + inc ≤ 2 ^ 64) (hlo : 48 < lo) (hmap : ∃ r ∈ σ.maps, r.1 ≤ m ∧ hi + inc ≤ r.2)
    (hK : Stored K) (hσ : K σ)
    (hQ : ∀ τ, Ok τ m lo (hi + inc) (h.grow inc) → Frame (Grown m hi h.top inc) σ τ → K τ →
      Q () τ) : wp D (mspaceIncSize m inc) Q σ := by
  have C := O.core
  have S := C.scalars
  have htop := C.tiled.le
  have hlow := C.arena.low
  obtain ⟨hpos, hfit⟩ := C.topFits
  have hts := C.topAlign
  have hcov : ∀ {υ : State} {a : Nat}, υ.maps = σ.maps → m ≤ a → a + 8 ≤ hi + inc →
      υ.mapped a 8 = true := by
    intro υ a hυ h1 h2
    obtain ⟨r, hr, hl, hh⟩ := hmap
    exact Machine.mapped_of_mem (hυ ▸ hr) (by omega) (by omega)
  have hadd1 : addSize h.topsize inc = h.topsize + inc := by
    unfold addSize
    omega
  have hadd2 : addSize (hi + 48 - lo) inc = hi + 48 - lo + inc := by
    unfold addSize
    omega
  have hlt1 : h.topsize + inc < 256 ^ 8 := by omega
  have hlt2 : hi + 48 - lo + inc < 256 ^ 8 := by omega
  have hor : h.topsize + inc ||| pinuseBit = headWord (h.topsize + inc) true false :=
    or_pinuse (by omega)
  have hpin : headWord h.topsize true false &&& pinuseBit = pinuseBit := by
    rw [← or_pinuse hts, pinuseBit, Nat.and_one_is_mod, or_one]
    omega
  have hwlt : headWord (h.topsize + inc) true false < 256 ^ 8 := headWord_lt (by omega)
  -- the four sizes
  have hside : Frame (fun b => m + 16 ≤ b ∧ b < m + 24 ∨ m + 856 ≤ b ∧ b < m + 872 ∨
      m + 888 ≤ b ∧ b < m + 896) σ ((((σ.put 8 (m + 16) (h.topsize + inc)).put 8 (m + 880 + 8)
        (hi + 48 - lo + inc)).put 8 (m + 856) (hi + 48 - lo + inc)).put 8 (m + 864)
          (hi + 48 - lo + inc)) := by
    refine ((((Frame.refl _ σ).put ?_).put ?_).put ?_).put ?_
    all_goals
      intro b h1 h2
      omega
  unfold mspaceIncSize
  simp only [topsize, seg, segSize, footprint, maxFootprint, top, head]
  rw [wp_bind, wp_update S.topWord, hadd1, wp_bind,
    wp_update (by rw [Machine.get_put_ne (by omega)]; exact S.segSize), hadd2, wp_bind,
    wp_update (by
      simp (disch := omega) only [Machine.get_put_ne]
      exact S.footprint), hadd2, wp_bind,
    wp_update (by
      simp (disch := omega) only [Machine.get_put_ne]
      exact S.maxFootprint), hadd2]
  have g1 : ((((σ.put 8 (m + 16) (h.topsize + inc)).put 8 (m + 880 + 8) (hi + 48 - lo + inc)).put 8
      (m + 856) (hi + 48 - lo + inc)).put 8 (m + 864) (hi + 48 - lo + inc)).get 8 (m + 16) =
        some (h.topsize + inc) := by
    simp (disch := omega) only [Machine.get_put_ne]
    exact Machine.get_put_same (hcov rfl (by omega) (by omega)) hlt1
  have g2 : ((((σ.put 8 (m + 16) (h.topsize + inc)).put 8 (m + 880 + 8) (hi + 48 - lo + inc)).put 8
      (m + 856) (hi + 48 - lo + inc)).put 8 (m + 864) (hi + 48 - lo + inc)).get 8 (m + 888) =
        some (hi + 48 - lo + inc) := by
    simp (disch := omega) only [Machine.get_put_ne]
    exact Machine.get_put_same (hcov rfl (by omega) (by omega)) hlt2
  have g3 : ((((σ.put 8 (m + 16) (h.topsize + inc)).put 8 (m + 880 + 8) (hi + 48 - lo + inc)).put 8
      (m + 856) (hi + 48 - lo + inc)).put 8 (m + 864) (hi + 48 - lo + inc)).get 8 (m + 856) =
        some (hi + 48 - lo + inc) := by
    simp (disch := omega) only [Machine.get_put_ne]
    exact Machine.get_put_same (hcov rfl (by omega) (by omega)) hlt2
  have g4 : ((((σ.put 8 (m + 16) (h.topsize + inc)).put 8 (m + 880 + 8) (hi + 48 - lo + inc)).put 8
      (m + 856) (hi + 48 - lo + inc)).put 8 (m + 864) (hi + 48 - lo + inc)).get 8 (m + 864) =
        some (hi + 48 - lo + inc) :=
    Machine.get_put_same (hcov rfl (by omega) (by omega)) hlt2
  have hKυ := hK.put 8 (m + 864) (hi + 48 - lo + inc) (hK.put 8 (m + 856) (hi + 48 - lo + inc)
    (hK.put 8 (m + 880 + 8) (hi + 48 - lo + inc) (hK.put 8 (m + 16) (h.topsize + inc) hσ)))
  generalize (((σ.put 8 (m + 16) (h.topsize + inc)).put 8 (m + 880 + 8) (hi + 48 - lo + inc)).put 8
    (m + 856) (hi + 48 - lo + inc)).put 8 (m + 864) (hi + 48 - lo + inc) = υ at *
  have hf₄ : Frame (Grown m hi h.top inc) σ υ :=
    hside.mono fun b hb => by simp only [Grown]; omega
  -- top
  have htp : υ.getPtr (m + 40) = some h.top := by
    rw [hf₄.getPtr (fun b h1 h2 hb => by simp only [Grown] at hb; omega)]
    exact S.topPtr
  have hth : υ.get 8 (h.top + 8) = some (headWord h.topsize true false) := by
    rw [hside.get (fun b h1 h2 hb => by omega)]
    exact C.topHead
  rw [wp_bind, wp_loadPtr htp, wp_bind, wp_chunksize hth hts, hadd1, wp_bind, wp_load hth, hpin,
    hor, wp_bind, wp_store (hcov hf₄.maps (by omega) (by omega)),
    wp_store (hcov (by exact hf₄.maps) (by omega) (by omega))]
  have hend : h.top + (h.topsize + inc) + 8 = hi + inc - 16 := by omega
  have hf : Frame (Grown m hi h.top inc) σ ((υ.put 8 (h.top + 8)
      (headWord (h.topsize + inc) true false)).put 8 (h.top + (h.topsize + inc) + 8)
        topFootSize) := by
    refine (hf₄.put fun b h1 h2 => ?_).put fun b h1 h2 => ?_
    · exact Or.inr (Or.inr (Or.inr (Or.inl ⟨h1, by omega⟩)))
    · exact Or.inr (Or.inr (Or.inr (Or.inr ⟨by omega, by omega⟩)))
  refine hQ _ ?_ hf (hK.put _ _ _ (hK.put _ _ _ hKυ))
  refine ⟨(C.grow inBins_free hf h8 hword ?_ ?_ ?_ ?_ ?_ ?_ ?_).congr fun _ _ => Iff.rfl, O.dvOk⟩
  · rw [hf.maps]
    exact hmap
  · rw [Machine.get_put_ne (by omega), Machine.get_put_ne (by omega)]
    exact g1
  · rw [Machine.get_put_ne (by omega), Machine.get_put_ne (by omega)]
    exact g2
  · rw [Machine.get_put_ne (by omega), Machine.get_put_ne (by omega)]
    exact g3
  · rw [Machine.get_put_ne (by omega), Machine.get_put_ne (by omega)]
    exact g4
  · rw [Machine.get_put_ne (by omega)]
    exact Machine.get_put_same (hcov hf₄.maps (by omega) (by omega)) hwlt
  · rw [← hend]
    exact Machine.get_put_same (hcov hf₄.maps (by omega) (by omega)) (by decide)

/-- An image grows into the file behind it. -/
theorem Living.wp_incSize (L : Living σ base cap live h) (F : Filed σ base (cap + inc))
    (h8 : inc % 8 = 0) :
    wp D (mspaceIncSize (base + 64) inc) (fun _ τ => Living τ base (cap + inc) live (h.grow inc) ∧
      Frame (Grown (base + 64) (base + cap) h.top inc) σ τ) σ := by
  have O := L.held.ok
  have hword := F.word
  have htop := O.core.tiled.le
  obtain ⟨hpos, hfit⟩ := O.core.topFits
  have hmap : ∃ r ∈ σ.maps, r.1 ≤ base + 64 ∧ base + cap + inc ≤ r.2 := by
    obtain ⟨r, hr, hl, hh⟩ := F.mapped
    exact ⟨r, hr, by omega, by omega⟩
  have hstored : Stored fun σ => Filed σ base (cap + inc) := Filed.stored
  apply O.wp_incSize h8 (by omega) (by have hb := F.behind; omega) hmap hstored F
  intro τ O' hf F'
  rw [Nat.add_assoc] at O'
  refine ⟨⟨⟨F', ?_⟩, L.settled.frame hf ?_, O', L.held.blocks, ?_⟩, hf⟩
  · rw [hf.glob]
    exact L.homed.params
  · intro b hb
    simp only [Grown] at hb
    omega
  · rw [hf.get (fun b h1 h2 hb => by simp only [Grown] at hb; omega)]
    exact L.held.ownHead

end

end Mmdata.Proofs
