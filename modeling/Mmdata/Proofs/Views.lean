import Mmdata.Proofs.HeapSound

namespace Mmdata.Proofs
open Lib Malloc

section

variable {σ τ : State} {m lo hi base cap p q a i par k : Nat} {h : Heap} {live : List Nat}
  {F : Nat → Nat → Prop} {pu pu' : Bool} {cs : List Chunk} {l : List Nat} {t : Trie} {c : Call}
  {P : Nat → Prop} {B : Bins}

/-! What holds of the words of a state holds of the same words in another. -/

theorem MapAt.shows (h : MapAt σ a P) (S : Shows σ τ) : MapAt τ a P := by
  obtain ⟨w, hw, hbits⟩ := h
  exact ⟨w, S.get hw, hbits⟩

theorem dll_shows {b : Nat} (h : Dll (fwd σ) (bwd σ) a l b) (S : Shows σ τ) :
    Dll (fwd τ) (bwd τ) a l b := by
  induction l generalizing a with
  | nil => exact ⟨S.getPtr h.1, S.getPtr h.2⟩
  | cons x l ih =>
    obtain ⟨h1, h2, h3⟩ := h
    exact ⟨S.getPtr h1, S.getPtr h2, ih h3⟩

theorem FieldsAt.shows {x r s : Nat} (h : FieldsAt σ i par x r s) (S : Shows σ τ) :
    FieldsAt τ i par x r s :=
  ⟨S.get h.idx, S.getPtr h.parent, S.getPtr h.left, S.getPtr h.right⟩

theorem TreeAt.shows (h : TreeAt σ i par t) (S : Shows σ τ) : TreeAt τ i par t := by
  induction t generalizing par with
  | nil => trivial
  | node a s ring l r ihl ihr =>
    obtain ⟨hn, hl, hr⟩ := h
    refine ⟨⟨hn.fields.shows S, dll_shows hn.linked S, ?_⟩, ihl hl, ihr hr⟩
    intro x hx
    exact (hn.member x hx).shows S

theorem ChunkAt.shows {d : Chunk} (h : ChunkAt σ pu d) (S : Shows σ τ) : ChunkAt τ pu d :=
  ⟨h.align, h.large, S.get h.head, fun hu => ⟨(h.free hu).1, S.get (h.free hu).2⟩⟩

theorem Tiled.shows (h : Tiled σ pu p cs pu' q) (S : Shows σ τ) : Tiled τ pu p cs pu' q := by
  induction cs generalizing pu p with
  | nil => exact h
  | cons d cs ih =>
    obtain ⟨ha, hd, ht⟩ := h
    exact ⟨ha, hd.shows S, ih ht⟩

theorem Binned.shows (h : Binned σ m hi B F) (S : Shows σ τ) : Binned τ m hi B F := by
  refine ⟨h.smallMap.shows S, h.treeMap.shows S, ?_, ?_, h.smallMem, h.treeMem, h.smallNodup,
    h.treeNodup, h.ordered⟩
  · intro i hi hne
    exact dll_shows (h.smallRing i hi hne) S
  · intro i hi
    obtain ⟨hroot, par, hpar, ht⟩ := h.treeBin i hi
    exact ⟨S.getPtr hroot, par, hpar, ht.shows S⟩

theorem Arena.shows (A : Arena σ m lo hi) (S : Shows σ τ) : Arena τ m lo hi := by
  refine ⟨A.align, A.pos, A.low, A.high, A.word, ?_, S.getPtr A.least⟩
  obtain ⟨r, hr, h1, h2⟩ := A.mapped
  obtain ⟨r', hr', h3, h4⟩ := S.maps r hr
  exact ⟨r', hr', by omega, by omega⟩

theorem Scalars.shows {d ds t ts e : Nat} (h : Scalars σ m lo hi d ds t ts e) (S : Shows σ τ) :
    Scalars τ m lo hi d ds t ts e := by
  obtain ⟨tc, htc⟩ := h.trimWord
  obtain ⟨rc, hrc⟩ := h.checkWord
  obtain ⟨fl, hfl⟩ := h.flags
  exact ⟨S.getPtr h.dvPtr, S.get h.dvWord, S.getPtr h.topPtr, S.get h.topWord, S.get h.extsWord,
    ⟨tc, S.get htc⟩, ⟨rc, S.get hrc⟩, S.getPtr h.segBase, S.get h.segSize, S.getPtr h.segNext,
    S.get h.segFlags, S.get h.footprint, S.get h.maxFootprint, ⟨fl, S.get hfl⟩⟩

theorem Ok.shows (O : Ok σ m lo hi h) (S : Shows σ τ) : Ok τ m lo hi h := by
  have C := O.core
  exact ⟨⟨C.arena.shows S, C.scalars.shows S, C.tiled.shows S, S.get C.topHead, C.topAlign,
    C.topFits, S.get C.topFoot, C.binned.shows S⟩, O.dvOk⟩

theorem Held.shows (H : Held σ base cap live h) (S : Shows σ τ) : Held τ base cap live h :=
  ⟨H.ok.shows S, H.blocks, S.get H.ownHead⟩

theorem Exceeds.shows {n : Nat} (hE : Exceeds σ m n) (S : Shows σ τ) : Exceeds τ m n := by
  obtain ⟨hfoot, tc, htc, hlt⟩ := hE
  exact ⟨hfoot, tc, S.get htc, hlt⟩

theorem FreeTrims.shows {s : Nat} (T : FreeTrims σ m h p s) (S : Shows σ τ) :
    FreeTrims τ m h p s := by
  obtain ⟨htop, j, hj, hE⟩ := T
  exact ⟨htop, j, hj, hE.shows S⟩

end

end Mmdata.Proofs
