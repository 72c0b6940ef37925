import Mmdata.Lib.Trie
import Mmdata.Proofs.SmallBins

namespace Mmdata.Proofs
open Lib Malloc

/-- The tree fields of a chunk: bin index, parent and children. -/
structure FieldsAt (σ : State) (i par x l r : Nat) : Prop where
  idx : σ.get 4 (x + 56) = some i
  parent : σ.getPtr (x + 48) = some par
  left : σ.getPtr (x + 32) = some l
  right : σ.getPtr (x + 40) = some r

/-- A tree node with the chunks of the same size on its ring. -/
structure NodeAt (σ : State) (i par a : Nat) (ring : List Nat) (l r : Nat) : Prop where
  fields : FieldsAt σ i par a l r
  linked : LinkRing (fwd σ) (bwd σ) a ring
  member : ∀ x ∈ ring, FieldsAt σ i 0 x 0 0

/-- The tree of bin `i` below the node `par`. -/
def TreeAt (σ : State) (i : Nat) : Nat → Trie → Prop
  | _, .nil => True
  | par, .node a _ ring l r =>
    NodeAt σ i par a ring l.root r.root ∧ TreeAt σ i a l ∧ TreeAt σ i a r

/-- The address that holds the root of what is in the hole. -/
def slot (rp : Nat) : TrieCtx → Nat
  | .hole => rp
  | .left a _ _ _ _ => a + 32
  | .right a _ _ _ _ => a + 40

/-- A tree hung at `rp`, with a hole whose slot holds `h`. -/
def CtxAt (σ : State) (i rp par : Nat) : TrieCtx → Nat → Prop
  | .hole, h => σ.getPtr rp = some h
  | .left a _ ring r up, h => NodeAt σ i (up.holeParent par) a ring h r.root ∧ TreeAt σ i a r ∧
    CtxAt σ i rp par up a
  | .right a _ ring l up, h => NodeAt σ i (up.holeParent par) a ring l.root h ∧ TreeAt σ i a l ∧
    CtxAt σ i rp par up a

/-- Chunks large enough for trees that do not overlap. -/
structure TreeNodes (m hi : Nat) (xs : List Nat) : Prop where
  nodup : xs.Nodup
  inside : ∀ x ∈ xs, x % 8 = 0 ∧ m + 920 ≤ x ∧ x + 64 ≤ hi
  apart : ∀ x ∈ xs, ∀ y ∈ xs, x = y ∨ x + 64 ≤ y ∨ y + 64 ≤ x

/-- The tree of bin `i`. The parent of the root is stale, the address of some
chunk that was once there. -/
def TreeBin (σ : State) (m hi i : Nat) (t : Trie) : Prop :=
  σ.getPtr (treebinAt m i) = some t.root ∧
    ∃ par, (par % 8 = 0 ∧ m + 920 ≤ par ∧ par < hi) ∧ TreeAt σ i par t

/-- What an operation on tree bin `i` with the chunks `xs` may write. -/
def TreeZone (m i : Nat) (xs : List Nat) (b : Nat) : Prop :=
  m + 4 ≤ b ∧ b < m + 8 ∨ treebinAt m i ≤ b ∧ b < treebinAt m i + 8 ∨ Links 64 xs b

section

variable {D : Trap → Prop} {σ τ : State} {W : Nat → Prop} {m lo hi i rp par a s h : Nat}
  {ring xs ys : List Nat} {t u l r : Trie} {c : TrieCtx}

theorem TreeNodes.sublist (N : TreeNodes m hi xs) (hn : ys.Nodup) (hs : ∀ y ∈ ys, y ∈ xs) :
    TreeNodes m hi ys :=
  ⟨hn, fun y hy => N.inside y (hs y hy), fun y hy z hz => N.apart y (hs y hy) z (hs z hz)⟩

theorem TreeNodes.nodes (N : TreeNodes m hi xs) : Nodes m hi xs := by
  refine ⟨N.nodup, fun x hx => ?_, fun x hx y hy => ?_⟩
  · have hin := N.inside x hx
    omega
  · have hap := N.apart x hx y hy
    omega

theorem links_mono {n : Nat} (hs : ∀ y ∈ ys, y ∈ xs) {b : Nat} (hb : Links n ys b) :
    Links n xs b := by
  obtain ⟨x, hx, h1, h2⟩ := hb
  exact ⟨x, hs x hx, h1, h2⟩

theorem FieldsAt.frame {x l r : Nat} (hx : FieldsAt σ i par x l r) (hf : Frame W σ τ)
    (hw : ∀ b, x + 32 ≤ b → b < x + 64 → ¬ W b) : FieldsAt τ i par x l r := by
  refine ⟨?_, ?_, ?_, ?_⟩
  · rw [hf.get (fun b h1 h2 => hw b (by omega) (by omega))]
    exact hx.idx
  · rw [hf.getPtr (fun b h1 h2 => hw b (by omega) (by omega))]
    exact hx.parent
  · rw [hf.getPtr (fun b h1 h2 => hw b (by omega) (by omega))]
    exact hx.left
  · rw [hf.getPtr (fun b h1 h2 => hw b (by omega) (by omega))]
    exact hx.right

theorem ring_frame {h : Nat} (hr : LinkRing (fwd σ) (bwd σ) h ring) (hf : Frame W σ τ)
    (hw : ∀ b, Links 32 (h :: ring) b → ¬ W b) : LinkRing (fwd τ) (bwd τ) h ring := by
  refine hr.congr ?_ ?_
  · intro u hu
    exact hf.getPtr (fun b h1 h2 => hw b ⟨u, hu, by omega, by omega⟩)
  · intro u hu
    exact hf.getPtr (fun b h1 h2 => hw b ⟨u, hu, by omega, by omega⟩)

theorem NodeAt.frame {l r : Nat} (hn : NodeAt σ i par a ring l r) (hf : Frame W σ τ)
    (hw : ∀ b, Links 64 (a :: ring) b → ¬ W b) : NodeAt τ i par a ring l r := by
  refine ⟨?_, ?_, fun x hx => ?_⟩
  · exact hn.fields.frame hf (fun b h1 h2 => hw b ⟨a, by simp, by omega, h2⟩)
  · refine ring_frame hn.linked hf ?_
    rintro b ⟨x, hx, h1, h2⟩
    exact hw b ⟨x, hx, h1, by omega⟩
  · exact (hn.member x hx).frame hf (fun b h1 h2 => hw b ⟨x, by simp [hx], by omega, h2⟩)

theorem mem_addrs_node {x : Nat} : x ∈ (Trie.node a s ring l r).addrs ↔
    x ∈ a :: ring ∨ x ∈ l.addrs ∨ x ∈ r.addrs := by
  simp only [Trie.addrs, Trie.entries, List.map_append, List.mem_append, List.map_map,
    Function.comp_def, List.map_id']

theorem TreeAt.frame (ht : TreeAt σ i par t) (hf : Frame W σ τ)
    (hw : ∀ b, Links 64 t.addrs b → ¬ W b) : TreeAt τ i par t := by
  induction t generalizing par with
  | nil => trivial
  | node a s ring l r ihl ihr =>
    obtain ⟨hn, hl, hr⟩ := ht
    refine ⟨hn.frame hf ?_, ihl hl ?_, ihr hr ?_⟩
    · exact fun b hb => hw b (links_mono (fun y hy => mem_addrs_node.mpr (Or.inl hy)) hb)
    · exact fun b hb => hw b
        (links_mono (fun y hy => mem_addrs_node.mpr (Or.inr (Or.inl hy))) hb)
    · exact fun b hb => hw b
        (links_mono (fun y hy => mem_addrs_node.mpr (Or.inr (Or.inr hy))) hb)

/-- A hung tree is a context around a subtree. -/
theorem ctxAt_plug : (σ.getPtr rp = some (c.plug t).root ∧ TreeAt σ i par (c.plug t)) ↔
    CtxAt σ i rp par c t.root ∧ TreeAt σ i (c.holeParent par) t := by
  induction c generalizing t with
  | hole => exact Iff.rfl
  | left a s ring r up ih =>
    rw [TrieCtx.plug, ih]
    simp only [CtxAt, TreeAt, TrieCtx.holeParent, Trie.root]
    constructor
    · rintro ⟨hc, hn, hl, hr⟩
      exact ⟨⟨hn, hr, hc⟩, hl⟩
    · rintro ⟨⟨hn, hr, hc⟩, hl⟩
      exact ⟨hc, hn, hl, hr⟩
  | right a s ring l up ih =>
    rw [TrieCtx.plug, ih]
    simp only [CtxAt, TreeAt, TrieCtx.holeParent, Trie.root]
    constructor
    · rintro ⟨hc, hn, hl, hr⟩
      exact ⟨⟨hn, hl, hc⟩, hr⟩
    · rintro ⟨⟨hn, hl, hc⟩, hr⟩
      exact ⟨hc, hn, hl, hr⟩

theorem mem_addrs_left {x : Nat} {up : TrieCtx} : x ∈ (TrieCtx.left a s ring r up).addrs ↔
    x ∈ a :: ring ∨ x ∈ r.addrs ∨ x ∈ up.addrs := by
  simp only [TrieCtx.addrs, TrieCtx.entries, Trie.addrs, List.map_append, List.mem_append, List.map_map,
    Function.comp_def, List.map_id']

theorem mem_addrs_right {x : Nat} {up : TrieCtx} : x ∈ (TrieCtx.right a s ring l up).addrs ↔
    x ∈ a :: ring ∨ x ∈ l.addrs ∨ x ∈ up.addrs := by
  simp only [TrieCtx.addrs, TrieCtx.entries, Trie.addrs, List.map_append, List.mem_append, List.map_map,
    Function.comp_def, List.map_id']

theorem CtxAt.frame (hc : CtxAt σ i rp par c h) (hf : Frame W σ τ)
    (hw : ∀ b, Links 64 c.addrs b → ¬ W b) (hrp : ∀ b, rp ≤ b → b < rp + 8 → ¬ W b) :
    CtxAt τ i rp par c h := by
  induction c generalizing h with
  | hole => exact (hf.getPtr hrp).trans hc
  | left a s ring r up ih =>
    obtain ⟨hn, hr, hu⟩ := hc
    refine ⟨hn.frame hf ?_, hr.frame hf ?_, ih hu ?_⟩
    · exact fun b hb => hw b (links_mono (fun y hy => mem_addrs_left.mpr (Or.inl hy)) hb)
    · exact fun b hb => hw b
        (links_mono (fun y hy => mem_addrs_left.mpr (Or.inr (Or.inl hy))) hb)
    · exact fun b hb => hw b
        (links_mono (fun y hy => mem_addrs_left.mpr (Or.inr (Or.inr hy))) hb)
  | right a s ring l up ih =>
    obtain ⟨hn, hl, hu⟩ := hc
    refine ⟨hn.frame hf ?_, hl.frame hf ?_, ih hu ?_⟩
    · exact fun b hb => hw b (links_mono (fun y hy => mem_addrs_right.mpr (Or.inl hy)) hb)
    · exact fun b hb => hw b
        (links_mono (fun y hy => mem_addrs_right.mpr (Or.inr (Or.inl hy))) hb)
    · exact fun b hb => hw b
        (links_mono (fun y hy => mem_addrs_right.mpr (Or.inr (Or.inr hy))) hb)

/-- A write into a child slot of `a` keeps the links and the ring members of the node. -/
theorem NodeAt.relink {k l r l' r' : Nat} (hn : NodeAt σ i par a ring l r)
    (N : TreeNodes m hi (a :: ring)) (hf : Frame W σ τ) (hk : k = 32 ∨ k = 40)
    (hw : ∀ b, W b → Links 64 (a :: ring) b → a + k ≤ b ∧ b < a + k + 8)
    (hl : τ.getPtr (a + 32) = some l') (hr : τ.getPtr (a + 40) = some r') :
    NodeAt τ i par a ring l' r' := by
  have ha : ∀ b, a + 16 ≤ b → b < a + 64 → (b < a + k ∨ a + k + 8 ≤ b) → ¬ W b := by
    intro b h1 h2 h3 hW
    have hb := hw b hW ⟨a, by simp, h1, h2⟩
    omega
  have hx : ∀ x ∈ ring, ∀ b, x + 16 ≤ b → b < x + 64 → ¬ W b := by
    intro x hx b h1 h2 hW
    have hb := hw b hW ⟨x, by simp [hx], h1, h2⟩
    rcases N.apart a (by simp) x (by simp [hx]) with he | hap | hap
    · exact (List.nodup_cons.mp N.nodup).1 (he ▸ hx)
    · omega
    · omega
  refine ⟨⟨?_, ?_, hl, hr⟩, ?_, fun x hm => ?_⟩
  · rw [hf.get (fun b h1 h2 => ha b (by omega) (by omega) (by omega))]
    exact hn.fields.idx
  · rw [hf.getPtr (fun b h1 h2 => ha b (by omega) (by omega) (by omega))]
    exact hn.fields.parent
  · refine ring_frame hn.linked hf ?_
    rintro b ⟨x, hm, h1, h2⟩
    rcases List.mem_cons.mp hm with rfl | hm
    · exact ha b h1 (by omega) (by omega)
    · exact hx x hm b h1 (by omega)
  · exact (hn.member x hm).frame hf (fun b h1 h2 => hx x hm b (by omega) h2)

theorem addrs_node (a s : Nat) (ring : List Nat) (l r : Trie) :
    (Trie.node a s ring l r).addrs = a :: ring ++ (l.addrs ++ r.addrs) := by
  simp [Trie.addrs, Trie.entries, Function.comp_def]

theorem addrs_left (a s : Nat) (ring : List Nat) (r : Trie) (up : TrieCtx) :
    (TrieCtx.left a s ring r up).addrs = a :: ring ++ (r.addrs ++ up.addrs) := by
  simp [TrieCtx.addrs, Trie.addrs, TrieCtx.entries, Function.comp_def]

theorem addrs_right (a s : Nat) (ring : List Nat) (l : Trie) (up : TrieCtx) :
    (TrieCtx.right a s ring l up).addrs = a :: ring ++ (l.addrs ++ up.addrs) := by
  simp [TrieCtx.addrs, Trie.addrs, TrieCtx.entries, Function.comp_def]

/-- Only bytes of the slot in `a` change; nodes other than `a` keep their fields. -/
theorem TreeNodes.apart_slot {k : Nat} (N : TreeNodes m hi (a :: ring ++ ys))
    (hk : k = 32 ∨ k = 40)
    (hw : ∀ b, W b → Links 64 (a :: ring ++ ys) b → a + k ≤ b ∧ b < a + k + 8) :
    ∀ b, Links 64 ys b → ¬ W b := by
  rintro b ⟨y, hy, h1, h2⟩ hW
  have hb := hw b hW ⟨y, by simp [hy], h1, h2⟩
  have hne : a ≠ y := by
    rintro rfl
    have hnd := N.nodup
    rw [List.cons_append] at hnd
    exact (List.nodup_cons.mp hnd).1 (List.mem_append_right _ hy)
  rcases N.apart a (by simp) y (by simp [hy]) with he | hap | hap
  · exact hne he
  · omega
  · omega

/-- The hole of a context gets another root. -/
theorem CtxAt.retarget {h' : Nat} (hc : CtxAt σ i rp par c h) (N : TreeNodes m hi c.addrs)
    (hf : Frame W σ τ) (hw : ∀ b, W b → Links 64 c.addrs b → slot rp c ≤ b ∧ b < slot rp c + 8)
    (hrp : c ≠ .hole → ∀ b, rp ≤ b → b < rp + 8 → ¬ W b)
    (hh : τ.getPtr (slot rp c) = some h') : CtxAt τ i rp par c h' := by
  cases c with
  | hole => exact hh
  | left a s ring r up =>
    obtain ⟨hn, hr, hu⟩ := hc
    rw [addrs_left] at N hw
    have hrest := N.apart_slot (Or.inl rfl) hw
    refine ⟨?_, ?_, ?_⟩
    · have hright : τ.getPtr (a + 40) = some r.root := by
        rw [hf.getPtr (fun b h1 h2 hW => ?_)]
        · exact hn.fields.right
        · have hb := hw b hW ⟨a, by simp, by omega, by omega⟩
          simp only [slot] at hb
          omega
      refine hn.relink (N.sublist ?_ ?_) hf (Or.inl rfl) ?_ hh hright
      · exact (List.nodup_append.mp N.nodup).1
      · exact fun y hy => List.mem_append_left _ hy
      · exact fun b hW hb => hw b hW (links_mono (fun y hy => List.mem_append_left _ hy) hb)
    · exact hr.frame hf (fun b hb => hrest b (links_mono (by simp_all) hb))
    · exact hu.frame hf (fun b hb => hrest b (links_mono (by simp_all) hb))
        (hrp (by simp))
  | right a s ring l up =>
    obtain ⟨hn, hl, hu⟩ := hc
    rw [addrs_right] at N hw
    have hrest := N.apart_slot (Or.inr rfl) hw
    refine ⟨?_, ?_, ?_⟩
    · have hleft : τ.getPtr (a + 32) = some l.root := by
        rw [hf.getPtr (fun b h1 h2 hW => ?_)]
        · exact hn.fields.left
        · have hb := hw b hW ⟨a, by simp, by omega, by omega⟩
          simp only [slot] at hb
          omega
      refine hn.relink (N.sublist ?_ ?_) hf (Or.inr rfl) ?_ hleft hh
      · exact (List.nodup_append.mp N.nodup).1
      · exact fun y hy => List.mem_append_left _ hy
      · exact fun b hW hb => hw b hW (links_mono (fun y hy => List.mem_append_left _ hy) hb)
    · exact hl.frame hf (fun b hb => hrest b (links_mono (by simp_all) hb))
    · exact hu.frame hf (fun b hb => hrest b (links_mono (by simp_all) hb))
        (hrp (by simp))

theorem TreeNodes.links_disjoint {zs : List Nat} (N : TreeNodes m hi zs)
    (hx : ∀ x ∈ xs, x ∈ zs) (hy : ∀ y ∈ ys, y ∈ zs) (hd : ∀ x ∈ xs, x ∉ ys) {b : Nat}
    (h : Links 64 xs b) : ¬ Links 64 ys b := by
  rintro ⟨y, hym, h1, h2⟩
  obtain ⟨x, hxm, h3, h4⟩ := h
  rcases N.apart x (hx x hxm) y (hy y hym) with rfl | hap | hap
  · exact hd x hxm hym
  · omega
  · omega

theorem node_disjoint (hnd : (Trie.node a s ring l r).addrs.Nodup) :
    (a :: ring).Nodup ∧ l.addrs.Nodup ∧ r.addrs.Nodup ∧ (∀ y ∈ a :: ring, y ∉ l.addrs) ∧
      (∀ y ∈ a :: ring, y ∉ r.addrs) ∧ ∀ y ∈ l.addrs, y ∉ r.addrs := by
  rw [addrs_node] at hnd
  obtain ⟨h1, h2, h3⟩ := List.nodup_append.mp hnd
  obtain ⟨h4, h5, h6⟩ := List.nodup_append.mp h2
  refine ⟨h1, h4, h5, ?_, ?_, ?_⟩
  · exact fun y hy hc => h3 y hy y (List.mem_append_left _ hc) rfl
  · exact fun y hy hc => h3 y hy y (List.mem_append_right _ hc) rfl
  · exact fun y hy hc => h6 y hy y hc rfl

theorem TreeNodes.links_high {b : Nat} (N : TreeNodes m hi xs) (h : Links 64 xs b) :
    m + 936 ≤ b := by
  obtain ⟨x, hx, h1, _⟩ := h
  have hin := N.inside x hx
  omega

theorem treebin_bounds (hi32 : i < 32) : m + 600 ≤ treebinAt m i ∧ treebinAt m i + 8 ≤ m + 856 := by
  simp only [treebinAt]
  omega

theorem TreeBin.frame (ht : TreeBin σ m hi i t) (hf : Frame W σ τ)
    (hr : ∀ b, treebinAt m i ≤ b → b < treebinAt m i + 8 → ¬ W b)
    (hw : ∀ b, Links 64 t.addrs b → ¬ W b) : TreeBin τ m hi i t := by
  obtain ⟨hroot, par, hp, ht⟩ := ht
  exact ⟨(hf.getPtr hr).trans hroot, par, hp, ht.frame hf hw⟩

end

end Mmdata.Proofs
