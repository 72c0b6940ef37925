import Mmdata.Lib.Renaming
import Mmdata.Proofs.Narrow
import Mmdata.Proofs.Twins

namespace Mmdata.Proofs
open Lib Malloc Relocation

/-! A heap does not depend on where its bytes are. -/

def Chunk.moved (f : Nat → Nat) (c : Chunk) : Chunk := { c with addr := f c.addr }

def Bins.moved (f : Nat → Nat) (B : Bins) : Bins :=
  ⟨fun i => (B.small i).map f, fun i => (B.tree i).rename f⟩

/-- The heap with other addresses. -/
def Heap.moved (f : Nat → Nat) (h : Heap) : Heap :=
  { h with chunks := h.chunks.map (Chunk.moved f), bins := h.bins.moved f, dv := f h.dv, top := f h.top }

section

variable {L : Relocation Globals} {σ τ : State} {a b k v t m lo hi p q i par : Nat} {h : Heap}
  {F : Nat → Nat → Prop} {P : Nat → Prop} {pu pu' : Bool} {cs : List Chunk} {l : List Nat}
  {u : Trie} {B : Bins}

/-- Where an address moves. -/
def Move (L : Relocation Globals) : Nat → Nat := rebase L.src L.dst

theorem move_zero : Move L 0 = 0 := rfl

theorem move_eq (ha : L.src ≤ a) : Move L a + L.src = a + L.dst := by
  have hlow := L.low
  unfold Move rebase
  rw [if_neg (by omega)]
  omega

theorem move_moves (ha : L.src ≤ a) : L.Moves a (Move L a) := ⟨ha, (move_eq ha).symm⟩

theorem move_add (ha : L.src ≤ a) (k : Nat) : Move L (a + k) = Move L a + k := by
  have h1 := move_eq ha
  have h2 := move_eq (L := L) (a := a + k) (by omega)
  omega

theorem move_pos (ha : L.src ≤ a) : Move L a ≠ 0 := (move_moves ha).ne_zero.2

/-- Null, or an address of the stretch. -/
def Ref (L : Relocation Globals) (a : Nat) : Prop := a = 0 ∨ L.src ≤ a

theorem move_inj (ha : Ref L a) (hb : Ref L b) (h : Move L a = Move L b) : a = b := by
  cases ha with
  | inl ha =>
    subst ha
    cases hb with
    | inl hb => exact hb.symm
    | inr hb => exact absurd h.symm (move_pos hb)
  | inr ha =>
    cases hb with
    | inl hb =>
      subst hb
      exact absurd h (move_pos ha)
    | inr hb =>
      have h1 := move_eq ha
      have h2 := move_eq hb
      omega

theorem move_eight (ha : L.src ≤ a) : Move L a % 8 = a % 8 := (move_moves ha).align.symm

theorem get_src (M : L.Match σ τ) (hg : σ.get k a = some v) :
    L.src ≤ a ∧ a + k ≤ L.src + L.size := (mapped_only M.only).mp (Machine.mapped_of_get hg)

theorem get_moved (M : L.Match σ τ) (hg : σ.get k a = some v) : τ.get k (Move L a) = some v := by
  obtain ⟨h1, h2⟩ := get_src M hg
  have hm := Machine.mapped_of_get hg
  have hmove : L.Moves a (Move L a) := move_moves h1
  obtain ⟨_, _, hm'⟩ := M.access hmove.aims hm
  rw [Machine.get, if_pos hm] at hg
  rw [Machine.get, if_pos hm']
  exact M.word hmove h2 hg

theorem getPtr_src (M : L.Match σ τ) (hg : σ.getPtr a = some t) :
    t = 0 ∨ L.src ≤ t ∧ t < L.src + L.size := by
  by_cases ht : t = 0
  · exact Or.inl ht
  · have hin := (mapped_only M.only).mp (Machine.mapped_of_getPtr_ne_zero hg ht)
    exact Or.inr ⟨hin.1, by omega⟩

theorem getPtr_moved (M : L.Match σ τ) (hg : σ.getPtr a = some t) :
    τ.getPtr (Move L a) = some (Move L t) := by
  have hsrc := getPtr_src M hg
  simp only [Machine.getPtr] at hg ⊢
  cases hw : σ.get 8 a with
  | none =>
    rw [hw] at hg
    contradiction
  | some w =>
    rw [hw] at hg
    rw [get_moved M hw]
    obtain ⟨h1, h2⟩ := get_src M hw
    have hmove : L.Moves a (Move L a) := move_moves h1
    simp only at hg ⊢
    by_cases hone : w = 1
    · rw [if_pos hone] at hg ⊢
      cases hg
      rfl
    · rw [if_neg hone] at hg ⊢
      by_cases hp : σ.mapped (pointsTo a w) 1 = true
      · rw [if_pos hp] at hg
        have he := Option.some.inj hg
        have hin := (mapped_only M.only).mp hp
        have hto : L.Moves (pointsTo a w) (pointsTo (Move L a) w) :=
          hmove.pointsTo (by omega) hin.1
        obtain ⟨_, _, hp'⟩ := M.access hto.aims hp
        have h3 := hto.2
        have h4 := move_eq (L := L) hin.1
        rw [if_pos hp', ← he]
        congr 1
        omega
      · rw [if_neg hp] at hg
        contradiction

theorem MapAt.moved {P' : Nat → Prop} (hM : MapAt σ a P) (M : L.Match σ τ) (hP : ∀ i, P' i ↔ P i) :
    MapAt τ (Move L a) P' := by
  obtain ⟨w, hw, hbits⟩ := hM
  exact ⟨w, get_moved M hw, fun i hi => (hbits i hi).trans (hP i).symm⟩

theorem fwd_moved (M : L.Match σ τ) (ha : L.src ≤ a) (hg : fwd σ a = some t) :
    fwd τ (Move L a) = some (Move L t) := by
  have hp := getPtr_moved M hg
  rw [move_add ha] at hp
  exact hp

theorem bwd_moved (M : L.Match σ τ) (ha : L.src ≤ a) (hg : bwd σ a = some t) :
    bwd τ (Move L a) = some (Move L t) := by
  have hp := getPtr_moved M hg
  rw [move_add ha] at hp
  exact hp

theorem ring_moved (M : L.Match σ τ) (hr : LinkRing (fwd σ) (bwd σ) a l)
    (hin : ∀ x ∈ a :: l, L.src ≤ x) : LinkRing (fwd τ) (bwd τ) (Move L a) (l.map (Move L)) :=
  hr.rename (fun _ hu _ hv => fwd_moved M (hin _ hu) hv) fun _ hu _ hv => bwd_moved M (hin _ hu) hv

theorem FieldsAt.moved {x r s : Nat} (hF : FieldsAt σ i par x r s) (M : L.Match σ τ)
    (hx : L.src ≤ x) : FieldsAt τ i (Move L par) (Move L x) (Move L r) (Move L s) := by
  refine ⟨?_, ?_, ?_, ?_⟩
  · rw [← move_add hx]
    exact get_moved M hF.idx
  · rw [← move_add hx]
    exact getPtr_moved M hF.parent
  · rw [← move_add hx]
    exact getPtr_moved M hF.left
  · rw [← move_add hx]
    exact getPtr_moved M hF.right

theorem TreeAt.moved (hT : TreeAt σ i par u) (M : L.Match σ τ) (hin : ∀ x ∈ u.addrs, L.src ≤ x) :
    TreeAt τ i (Move L par) (u.rename (Move L)) := by
  induction u generalizing par with
  | nil => trivial
  | node a s ring l r ihl ihr =>
    obtain ⟨hn, hl, hr⟩ := hT
    have hnode : ∀ x ∈ a :: ring, L.src ≤ x := by
      intro x hx
      apply hin x
      simp only [Trie.addrs, Trie.entries, List.map_append, List.map_map, List.mem_append]
      exact Or.inl (List.mem_map.mpr ⟨x, hx, rfl⟩)
    have hleft : ∀ x ∈ l.addrs, L.src ≤ x := by
      intro x hx
      apply hin x
      simp only [Trie.addrs, Trie.entries, List.map_append, List.mem_append]
      exact Or.inr (Or.inl hx)
    have hright : ∀ x ∈ r.addrs, L.src ≤ x := by
      intro x hx
      apply hin x
      simp only [Trie.addrs, Trie.entries, List.map_append, List.mem_append]
      exact Or.inr (Or.inr hx)
    have hfields := hn.fields.moved M (hnode a List.mem_cons_self)
    rw [← Trie.rename_root l move_zero, ← Trie.rename_root r move_zero] at hfields
    refine ⟨⟨hfields, ring_moved M hn.linked hnode, ?_⟩, ihl hl hleft, ihr hr hright⟩
    intro x hx
    obtain ⟨y, hy, rfl⟩ := List.mem_map.mp hx
    exact (hn.member y hy).moved M (hnode y (List.mem_cons_of_mem _ hy))

theorem Tiled.moved (hT : Tiled σ pu p cs pu' q) (M : L.Match σ τ) (hp : L.src ≤ p) :
    Tiled τ pu (Move L p) (cs.map (Chunk.moved (Move L))) pu' (Move L q) := by
  induction cs generalizing pu p with
  | nil => exact ⟨hT.1, congrArg (Move L) hT.2⟩
  | cons c cs ih =>
    obtain ⟨ha, hc, ht⟩ := hT
    have hrest := ih ht (by omega)
    rw [move_add hp] at hrest
    refine ⟨congrArg (Move L) ha, ⟨hc.align, hc.large, ?_, fun hu => ⟨(hc.free hu).1, ?_⟩⟩, hrest⟩
    · have hg := get_moved M hc.head
      rwa [move_add (by omega)] at hg
    · have hg := get_moved M (hc.free hu).2
      rwa [move_add (by omega)] at hg

/-- The chunks of `F` where they move. -/
def MovedTo (L : Relocation Globals) (F : Nat → Nat → Prop) (a s : Nat) : Prop :=
  ∃ b, a = Move L b ∧ F b s

theorem nodup_moved (hl : l.Nodup) (hin : ∀ x ∈ l, L.src ≤ x) : (l.map (Move L)).Nodup :=
  hl.map_on fun _ hx _ hy he => move_inj (Or.inr (hin _ hx)) (Or.inr (hin _ hy)) he

theorem Binned.moved (hB : Binned σ m hi B F) (M : L.Match σ τ) (hm : L.src ≤ m)
    (hF : ∀ b s, F b s → m ≤ b) (hhi : m ≤ hi) :
    Binned τ (Move L m) (Move L hi) (B.moved (Move L)) (MovedTo L F) := by
  have hsrc : ∀ b s, F b s → L.src ≤ b := fun b s hs => Nat.le_trans hm (hF b s hs)
  have hsmall : ∀ i < 32, ∀ x ∈ B.small i, L.src ≤ x := fun i hi x hx =>
    hsrc x _ ((hB.smallMem i hi x).mp hx)
  have htree : ∀ i < 32, ∀ x ∈ (B.tree i).addrs, L.src ≤ x := by
    intro i hi x hx
    obtain ⟨s, hs, _⟩ := hB.treeAddr hi hx
    exact hsrc x s hs
  refine ⟨?_, ?_, ?_, ?_, ?_, ?_, ?_, ?_, ?_⟩
  · exact hB.smallMap.moved M fun i => not_congr List.map_eq_nil_iff
  · rw [← move_add hm]
    exact hB.treeMap.moved M fun i => not_congr (Trie.rename_eq_nil _)
  · intro i hi hne
    have hbin : smallbinAt (Move L m) i = Move L (smallbinAt m i) := by
      simp only [smallbinAt, move_add hm, Nat.add_assoc]
    rw [hbin]
    apply ring_moved M (hB.smallRing i hi fun he => hne (List.map_eq_nil_iff.mpr he))
    intro x hx
    rcases List.mem_cons.mp hx with rfl | hx
    · simp only [smallbinAt]
      omega
    · exact hsmall i hi x hx
  · intro i hj
    obtain ⟨hroot, par, ⟨h8, h1, h2⟩, ht⟩ := hB.treeBin i hj
    have hbin : treebinAt (Move L m) i = Move L (treebinAt m i) := by
      simp only [treebinAt, move_add hm, Nat.add_assoc]
    have hpar : L.src ≤ par := by omega
    have e1 := move_eq hpar
    have e2 := move_eq hm
    have e3 := move_eq (L := L) (a := hi) (by omega)
    refine ⟨?_, Move L par, ⟨?_, ?_, ?_⟩, ht.moved M (htree i hj)⟩
    · rw [hbin]
      exact (getPtr_moved M hroot).trans (congrArg some (Trie.rename_root _ move_zero).symm)
    · rw [move_eight hpar]
      exact h8
    · omega
    · omega
  · intro i hi a
    constructor
    · intro ha
      obtain ⟨b, hb, rfl⟩ := List.mem_map.mp ha
      exact ⟨b, rfl, (hB.smallMem i hi b).mp hb⟩
    · rintro ⟨b, rfl, hb⟩
      exact List.mem_map.mpr ⟨b, (hB.smallMem i hi b).mpr hb, rfl⟩
  · intro i hi a s
    simp only [Bins.moved, Trie.rename_entries]
    constructor
    · intro ha
      obtain ⟨⟨b, t⟩, hb, he⟩ := List.mem_map.mp ha
      obtain ⟨rfl, rfl⟩ := Prod.mk.inj he
      obtain ⟨hs, h256, hidx⟩ := (hB.treeMem i hi b t).mp hb
      exact ⟨⟨b, rfl, hs⟩, h256, hidx⟩
    · rintro ⟨⟨b, rfl, hs⟩, h256, hidx⟩
      exact List.mem_map.mpr ⟨(b, s), (hB.treeMem i hi b s).mpr ⟨hs, h256, hidx⟩, rfl⟩
  · exact fun i hi => nodup_moved (hB.smallNodup i hi) (hsmall i hi)
  · intro i hi
    simp only [Bins.moved, Trie.rename_addrs]
    exact nodup_moved (hB.treeNodup i hi) (htree i hi)
  · exact fun i hi => (Trie.rename_ordered _).mpr (hB.ordered i hi)

/-- A heap is one wherever its bytes are mapped, with all its addresses moved. -/
theorem Ok.moved (O : Ok σ m lo hi h) (M : L.Match σ τ) :
    Ok τ (Move L m) (Move L lo) (Move L hi) (h.moved (Move L)) := by
  have C := O.core
  have A := C.arena
  have S := C.scalars
  have hlow := A.low
  have hhigh := A.high
  have hpos := A.pos
  have htop := C.tiled.le
  obtain ⟨hts, hfit⟩ := C.topFits
  obtain ⟨r, hr, hr1, hr2⟩ := A.mapped
  have hlo : L.src ≤ lo := by
    cases getPtr_src M A.least with
    | inl h0 => omega
    | inr h0 => exact h0.1
  have hm : L.src ≤ m := by omega
  have hend : hi ≤ L.src + L.size := by
    rw [M.only, List.mem_singleton] at hr
    subst hr
    exact hr2
  have hdv : Ref L h.dv := by
    cases getPtr_src M S.dvPtr with
    | inl h0 => exact Or.inl h0
    | inr h0 => exact Or.inr h0.1
  have e1 := move_eq hlo
  have e2 := move_eq hm
  have e3 := move_eq (L := L) (a := hi) (by omega)
  have e4 := move_eq (L := L) (a := h.top) (by omega)
  have hword := L.dstWord
  have hdst := L.pos
  have hsize : Move L hi + 48 - Move L lo = hi + 48 - lo := by omega
  have hget : ∀ {k n v : Nat}, σ.get n (m + k) = some v → τ.get n (Move L m + k) = some v := by
    intro k n v hv
    rw [← move_add hm]
    exact get_moved M hv
  have hptr : ∀ {k t : Nat}, σ.getPtr (m + k) = some t →
      τ.getPtr (Move L m + k) = some (Move L t) := by
    intro k t ht
    rw [← move_add hm]
    exact getPtr_moved M ht
  obtain ⟨tc, htc⟩ := S.trimWord
  obtain ⟨rc, hrc⟩ := S.checkWord
  obtain ⟨fl, hfl⟩ := S.flags
  have hsub : ∀ b s, h.inBins b s → m ≤ b := by
    intro b s hb
    have hc := C.chunk_bounds hb.1
    simp only at hc
    omega
  have hbins : ∀ a s, MovedTo L h.inBins a s ↔ (h.moved (Move L)).inBins a s := by
    intro a s
    constructor
    · rintro ⟨b, rfl, hb, hne⟩
      have hc := C.chunk_bounds hb
      simp only at hc
      refine ⟨List.mem_map.mpr ⟨_, hb, rfl⟩, fun he => hne ?_⟩
      exact move_inj (Or.inr (by omega)) hdv he
    · rintro ⟨ha, hne⟩
      obtain ⟨⟨b, t, u⟩, hb, he⟩ := List.mem_map.mp ha
      simp only [Chunk.moved, Chunk.mk.injEq] at he
      obtain ⟨rfl, rfl, rfl⟩ := he
      exact ⟨b, rfl, hb, fun hd => hne (congrArg (Move L) hd)⟩
  refine ⟨Core.congr ⟨⟨?_, by omega, by omega, by omega, by omega, ?_, ?_⟩, ?_, ?_, ?_, C.topAlign,
    ?_, ?_, C.binned.moved M hm hsub (by omega)⟩ hbins, ?_⟩
  · rw [move_eight hm]
    exact A.align
  · obtain ⟨q, hq, hq1, hq2⟩ := M.mapped
    exact ⟨q, hq, by omega, by omega⟩
  · exact hptr A.least
  · exact ⟨hptr S.dvPtr, hget S.dvWord, hptr S.topPtr, hget S.topWord, hget S.extsWord,
      ⟨tc, hget htc⟩, ⟨rc, hget hrc⟩, hptr S.segBase, hsize ▸ hget S.segSize, hptr S.segNext,
      hget S.segFlags, hsize ▸ hget S.footprint, hsize ▸ hget S.maxFootprint, ⟨fl, hget hfl⟩⟩
  · have ht := C.tiled.moved M (by omega)
    rw [move_add hm] at ht
    exact ht
  · have hg := get_moved M C.topHead
    rwa [move_add (by omega)] at hg
  · simp only [Heap.moved]
    omega
  · have hg := get_moved M C.topFoot
    have e5 := move_eq (L := L) (a := hi - 16) (by omega)
    rwa [show Move L (hi - 16) = Move L hi - 16 by omega] at hg
  · cases O.dvOk with
    | inl hd =>
      refine Or.inl ⟨?_, hd.2⟩
      show Move L h.dv = 0
      rw [hd.1]
      rfl
    | inr hd => exact Or.inr (List.mem_map.mpr ⟨_, hd, rfl⟩)

end

end Mmdata.Proofs
