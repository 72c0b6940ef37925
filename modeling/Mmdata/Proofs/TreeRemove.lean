import Mmdata.Proofs.TreeInsert

namespace Mmdata.Proofs
open Lib Malloc

section

variable {D : Trap → Prop} {σ τ : State} {m lo hi i par rp a b s x xp k h : Nat}
  {ring xs ys : List Nat} {t l r : Trie} {c o : TrieCtx}

theorem slot_under (c o : TrieCtx) : slot rp (c.under o) = slot (slot rp o) c := by
  cases c <;> rfl

/-- The walk down to a leaf, right children first. -/
theorem wp_findLeaf {Q : Nat × Nat → State → Prop} {fuel : Nat} (hne : t ≠ .nil)
    (hfuel : t.height ≤ fuel) (N : TreeNodes m hi t.addrs) (hT : TreeAt σ i par t)
    (hQ : ∀ o b k ring, t = TrieCtx.plug o (.node b k ring .nil .nil) → Q (b, slot rp o) σ) :
    wp D (findLeaf fuel t.root rp) Q σ := by
  induction fuel generalizing t par rp Q with
  | zero =>
    have hpos := height_pos hne
    omega
  | succ fuel ih =>
    cases t with
    | nil => contradiction
    | node a s ring l r =>
      obtain ⟨hn, hl, hr⟩ := hT
      obtain ⟨_, hd2, hd3, _, _, _⟩ := node_disjoint N.nodup
      have Nl := N.sublist hd2 (fun y hy => mem_addrs_node.mpr (Or.inr (Or.inl hy)))
      have Nr := N.sublist hd3 (fun y hy => mem_addrs_node.mpr (Or.inr (Or.inr hy)))
      simp only [Trie.height] at hfuel
      simp only [findLeaf, Trie.root, wp_bind, child]
      rw [wp_loadPtr (show σ.getPtr (a + 32 + 8 * 1) = _ from hn.fields.right)]
      by_cases hr0 : r = .nil
      · subst hr0
        rw [wp_if_neg (by simp [Trie.root])]
        simp only [wp_bind]
        rw [wp_loadPtr (show σ.getPtr (a + 32 + 8 * 0) = _ from hn.fields.left)]
        by_cases hl0 : l = .nil
        · subst hl0
          rw [wp_if_neg (by simp [Trie.root]), wp_pure]
          exact hQ .hole a s ring rfl
        · rw [wp_if_pos (root_ne_zero Nl hl0)]
          refine ih hl0 (by omega) Nl hl ?_
          intro o b k ring' he
          have hq := hQ (o.under (.left a s ring .nil .hole)) b k ring' (by
            rw [plug_under, ← he]
            rfl)
          rw [slot_under] at hq
          exact hq
      · rw [wp_if_pos (root_ne_zero Nr hr0)]
        refine ih hr0 (by omega) Nr hr ?_
        intro o b k ring' he
        have hq := hQ (o.under (.right a s ring l .hole)) b k ring' (by
          rw [plug_under, ← he]
          rfl)
        rw [slot_under] at hq
        exact hq

theorem slot_cases (rp : Nat) (c : TrieCtx) :
    (c = .hole ∧ slot rp c = rp) ∨
      ∃ a ∈ c.addrs, slot rp c = a + 32 ∨ slot rp c = a + 40 := by
  cases c with
  | hole => exact Or.inl ⟨rfl, rfl⟩
  | left a s ring r up => exact Or.inr ⟨a, mem_addrs_left.mpr (Or.inl (by simp)), Or.inl rfl⟩
  | right a s ring l up => exact Or.inr ⟨a, mem_addrs_right.mpr (Or.inl (by simp)), Or.inr rfl⟩

theorem mem_addrs_plug {y : Nat} : y ∈ (c.plug t).addrs ↔ y ∈ c.addrs ∨ y ∈ t.addrs := by
  have h := (plug_entries c t).map Prod.fst
  rw [List.map_append] at h
  exact h.mem_iff.trans List.mem_append

theorem plug_nodup (h : (c.plug t).addrs.Nodup) :
    c.addrs.Nodup ∧ t.addrs.Nodup ∧ ∀ y ∈ c.addrs, y ∉ t.addrs := by
  have hp := (plug_entries c t).map Prod.fst
  rw [List.map_append] at hp
  obtain ⟨h1, h2, h3⟩ := List.nodup_append.mp (hp.nodup_iff.mp h)
  exact ⟨h1, h2, fun y hy hc => h3 y hy y hc rfl⟩

theorem holeParent_cases (par : Nat) (c : TrieCtx) :
    (c = .hole ∧ c.holeParent par = par) ∨ c.holeParent par ∈ c.addrs := by
  cases c with
  | hole => exact Or.inl ⟨rfl, rfl⟩
  | left a s ring r up => exact Or.inr (mem_addrs_left.mpr (Or.inl (by simp [TrieCtx.holeParent])))
  | right a s ring l up =>
    exact Or.inr (mem_addrs_right.mpr (Or.inl (by simp [TrieCtx.holeParent])))

/-- What takes the place of `x`: the chunk `b` with its ring, below which the
subtrees of `x` go, though they still hang from `x`. -/
structure Detached (i xp x b : Nat) (ring : List Nat) (l r : Trie) (σ : State) : Prop where
  node : FieldsAt σ i xp x l.root r.root
  fields : ∃ pb, FieldsAt σ i pb b 0 0
  linked : LinkRing (fwd σ) (bwd σ) b ring
  member : ∀ y ∈ ring, FieldsAt σ i 0 y 0 0
  left : TreeAt σ i x l
  right : TreeAt σ i x r

/-- A leaf below the child slot `rp` of `x` is cut off. -/
theorem wp_cutLeaf {Q : Unit → State → Prop} {z : Nat} (A : Arena σ m lo hi)
    (N : TreeNodes m hi (x :: (o.plug (.node b k ring .nil .nil)).addrs))
    (hz : z = x + 32 ∨ z = x + 40)
    (hroot : σ.getPtr z = some (o.plug (.node b k ring .nil .nil)).root)
    (hT : TreeAt σ i x (o.plug (.node b k ring .nil .nil)))
    (hQ : ∀ τ, Frame (fun c => slot z o ≤ c ∧ c < slot z o + 8) σ τ →
      (slot z o = z ∨ ∃ a ∈ (o.plug (.node b k ring .nil .nil)).addrs,
        slot z o = a + 32 ∨ slot z o = a + 40) →
      τ.getPtr z = some (o.plug .nil).root → TreeAt τ i x (o.plug .nil) →
      (∃ pb, NodeAt τ i pb b ring 0 0) → Q () τ) :
    wp D (storePtr (slot z o) 0) Q σ := by
  obtain ⟨hc, hn, _, _⟩ := ctxAt_plug.mp ⟨hroot, hT⟩
  obtain ⟨hxn, hnd⟩ := List.nodup_cons.mp N.nodup
  obtain ⟨hd1, hd2, hd3⟩ := plug_nodup hnd
  have hx := N.inside x (by simp)
  have hmemo : ∀ y ∈ o.addrs, y ∈ x :: (o.plug (.node b k ring .nil .nil)).addrs :=
    fun y hy => List.mem_cons_of_mem _ (mem_addrs_plug.mpr (Or.inl hy))
  have hmemb : ∀ y ∈ b :: ring, y ∈ x :: (o.plug (.node b k ring .nil .nil)).addrs :=
    fun y hy => List.mem_cons_of_mem _ (mem_addrs_plug.mpr (Or.inr
      (mem_addrs_node.mpr (Or.inl hy))))
  have hslot := slot_cases z o
  have hbound : m ≤ slot z o ∧ slot z o + 8 ≤ hi ∧ slot z o % 8 = 0 := by
    rcases hslot with ⟨_, he⟩ | ⟨a, ha, he⟩
    · omega
    · have hin := N.inside a (hmemo a ha)
      omega
  refine A.wp_storePtr rfl (by omega) (by omega) ?_
  have hf : Frame (fun c => slot z o ≤ c ∧ c < slot z o + 8) σ (σ.putPtr (slot z o) 0) :=
    (Frame.refl _ σ).putPtr (fun b h1 h2 => ⟨h1, h2⟩)
  have hself : (σ.putPtr (slot z o) 0).getPtr (slot z o) = some 0 :=
    A.getPtr_self (by rfl) (by omega) (by omega) (by omega) (by omega) (by omega)
  have hc' : CtxAt (σ.putPtr (slot z o) 0) i z x o Trie.nil.root := by
    refine hc.retarget (N.sublist hd1 hmemo) hf (fun b hb _ => hb) ?_ hself
    intro hne c h1 h2 hcs
    rcases hslot with ⟨he, _⟩ | ⟨a, ha, he⟩
    · exact hne he
    · have hap := N.apart x (by simp) a (hmemo a ha)
      have hxa : x ≠ a := fun hc => hxn (hc ▸ mem_addrs_plug.mpr (Or.inl ha))
      omega
  obtain ⟨hr', hT'⟩ := ctxAt_plug.mpr ⟨hc', trivial⟩
  refine hQ _ hf ?_ hr' hT' ⟨_, hn.frame hf ?_⟩
  · rcases hslot with ⟨_, he⟩ | ⟨a, ha, he⟩
    · exact Or.inl he
    · exact Or.inr ⟨a, mem_addrs_plug.mpr (Or.inl ha), he⟩
  · rintro c ⟨y, hy, h1, h2⟩ ⟨h3, h4⟩
    have hym := hmemb y hy
    rcases hslot with ⟨_, he⟩ | ⟨a, ha, he⟩
    · have hap := N.apart x (by simp) y hym
      have hxy : x ≠ y := fun hc => hxn (hc ▸ mem_addrs_plug.mpr (Or.inr
        (mem_addrs_node.mpr (Or.inl hy))))
      omega
    · have hap := N.apart a (hmemo a ha) y hym
      have hay : a ≠ y := fun hc => hd3 a ha (hc ▸ mem_addrs_node.mpr (Or.inl hy))
      omega

theorem firstNode_snoc (h b : Nat) (l : List Nat) : firstNode h (l ++ [b]) = firstNode b l := by
  cases l <;> rfl

/-- A leaf of a subtree of `x` becomes the replacement. -/
theorem wp_detachLeaf {Q : Nat → State → Prop} {z : Nat} (A : Arena σ m lo hi) (hne : t ≠ .nil)
    (N : TreeNodes m hi (x :: t.addrs)) (hz : z = x + 32 ∨ z = x + 40)
    (hroot : σ.getPtr z = some t.root) (hT : TreeAt σ i x t)
    (hQ : ∀ o b k ring, t = TrieCtx.plug o (.node b k ring .nil .nil) → ∀ τ,
      Frame (fun c => slot z o ≤ c ∧ c < slot z o + 8) σ τ →
      (slot z o = z ∨ ∃ a ∈ t.addrs, slot z o = a + 32 ∨ slot z o = a + 40) →
      τ.getPtr z = some (o.plug .nil).root → TreeAt τ i x (o.plug .nil) →
      (∃ pb, NodeAt τ i pb b ring 0 0) → Q b τ) :
    wp D (findLeaf loopFuel t.root z) (fun rs τ => wp D (okAddress m rs.2) (fun ok τ =>
      wp D (check ok) (fun _ τ => wp D (storePtr rs.2 0) (fun _ τ =>
        wp D (pure rs.1 : Code Nat) Q τ) τ) τ) τ) σ := by
  have NT := N.sublist (List.nodup_cons.mp N.nodup).2 (fun y hy => List.mem_cons_of_mem _ hy)
  refine wp_findLeaf hne (height_le_fuel A.word NT) NT hT ?_
  rintro o b k ring rfl
  have hx := N.inside x (by simp)
  have hlow := A.low
  have hlo : lo ≤ slot z o := by
    rcases slot_cases z o with ⟨_, he⟩ | ⟨a, ha, he⟩
    · omega
    · have hin := N.inside a (List.mem_cons_of_mem _ (mem_addrs_plug.mpr (Or.inl ha)))
      omega
  rw [wp_okAddress A.least hlo, wp_check rfl]
  refine wp_cutLeaf A N hz hroot hT ?_
  intro τ hf hs hr' hT' hb
  rw [wp_pure]
  exact hQ o b k ring rfl τ hf hs hr' hT' hb

/-- The replacement of a chunk that heads its node. -/
theorem wp_detachHead {Q : Nat → State → Prop} (A : Arena σ m lo hi)
    (N : TreeNodes m hi (Trie.node x s ring l r).addrs)
    (hn : NodeAt σ i xp x ring l.root r.root) (hl : TreeAt σ i x l) (hr : TreeAt σ i x r)
    (hleaf : ring = [] → l = .nil → r = .nil → Q 0 σ)
    (hQ : ∀ τ b k ring' l' r',
      Without (sizeBit i) x s (.node x s ring l r) (.node b k ring' l' r') →
      Frame (Links 64 (Trie.node x s ring l r).addrs) σ τ →
      Detached i xp x b ring' l' r' τ → Q b τ) :
    wp D (detachReplacement m x) Q σ := by
  obtain ⟨hd1, hd2, hd3, hd4, hd5, hd6⟩ := node_disjoint N.nodup
  have hsub : ∀ y ∈ x :: ring, y ∈ (Trie.node x s ring l r).addrs :=
    fun y hy => mem_addrs_node.mpr (Or.inl hy)
  have hsubl : ∀ y ∈ l.addrs, y ∈ (Trie.node x s ring l r).addrs :=
    fun y hy => mem_addrs_node.mpr (Or.inr (Or.inl hy))
  have hsubr : ∀ y ∈ r.addrs, y ∈ (Trie.node x s ring l r).addrs :=
    fun y hy => mem_addrs_node.mpr (Or.inr (Or.inr hy))
  have hx := N.inside x (hsub x (by simp))
  have hlow := A.low
  have Nx : TreeNodes m hi (x :: ring) := N.sublist hd1 hsub
  unfold detachReplacement
  simp only [wp_bind, bk, fd, child]
  rw [wp_loadPtr (show σ.getPtr (x + 24) = _ from hn.linked.last.2)]
  rcases List.eq_nil_or_concat ring with hnil | ⟨ring', b, hcat⟩
  · subst hnil
    rw [wp_if_neg (by simp [lastNode])]
    simp only [wp_bind]
    rw [wp_loadPtr (show σ.getPtr (x + 32 + 8 * 1) = _ from hn.fields.right)]
    have Nl : TreeNodes m hi (x :: l.addrs) := by
      refine N.sublist (List.nodup_cons.mpr ⟨hd4 x (by simp), hd2⟩) ?_
      intro y hy
      rcases List.mem_cons.mp hy with rfl | hy
      · exact hsub _ (by simp)
      · exact hsubl y hy
    have Nr : TreeNodes m hi (x :: r.addrs) := by
      refine N.sublist (List.nodup_cons.mpr ⟨hd5 x (by simp), hd3⟩) ?_
      intro y hy
      rcases List.mem_cons.mp hy with rfl | hy
      · exact hsub _ (by simp)
      · exact hsubr y hy
    -- where the slot of the leaf may be, and what it leaves alone
    have hin : ∀ {z : Nat} {o : TrieCtx} {u : Trie}, (z = x + 32 ∨ z = x + 40) →
        (∀ y ∈ u.addrs, y ∈ (Trie.node x s [] l r).addrs) →
        (slot z o = z ∨ ∃ a ∈ u.addrs, slot z o = a + 32 ∨ slot z o = a + 40) →
        ∀ c, (slot z o ≤ c ∧ c < slot z o + 8) → Links 64 (Trie.node x s [] l r).addrs c := by
      rintro z o u hz hu (he | ⟨a, ha, he⟩) c ⟨h1, h2⟩
      · exact ⟨x, hsub x (by simp), by omega, by omega⟩
      · exact ⟨a, hu a ha, by omega, by omega⟩
    have hkeep : ∀ {z : Nat} {o : TrieCtx} {u : Trie}, (z = x + 32 ∨ z = x + 40) →
        (∀ y ∈ u.addrs, y ∈ (Trie.node x s [] l r).addrs) → x ∉ u.addrs →
        (slot z o = z ∨ ∃ a ∈ u.addrs, slot z o = a + 32 ∨ slot z o = a + 40) →
        ∀ c, x + 16 ≤ c → c < x + 64 → (c < z ∨ z + 8 ≤ c) →
          ¬ (slot z o ≤ c ∧ c < slot z o + 8) := by
      rintro z o u hz hu hxu (he | ⟨a, ha, he⟩) c h1 h2 h3 ⟨h4, h5⟩
      · omega
      · have hap := N.apart x (hsub x (by simp)) a (hu a ha)
        have hxa : x ≠ a := fun hc => hxu (hc ▸ ha)
        omega
    have hrest : ∀ {z : Nat} {o : TrieCtx} {u v : Trie}, (z = x + 32 ∨ z = x + 40) →
        (∀ y ∈ u.addrs, y ∈ (Trie.node x s [] l r).addrs) →
        (∀ y ∈ v.addrs, y ∈ (Trie.node x s [] l r).addrs) → (x ∉ v.addrs) →
        (∀ y ∈ u.addrs, y ∉ v.addrs) →
        (slot z o = z ∨ ∃ a ∈ u.addrs, slot z o = a + 32 ∨ slot z o = a + 40) →
        ∀ c, Links 64 v.addrs c → ¬ (slot z o ≤ c ∧ c < slot z o + 8) := by
      rintro z o u v hz hu hv hxv hdis hs c ⟨y, hy, h1, h2⟩ ⟨h3, h4⟩
      rcases hs with he | ⟨a, ha, he⟩
      · have hap := N.apart x (hsub x (by simp)) y (hv y hy)
        have hxy : x ≠ y := fun hc => hxv (hc ▸ hy)
        omega
      · have hap := N.apart a (hu a ha) y (hv y hy)
        have hay : a ≠ y := fun hc => hdis a ha (hc ▸ hy)
        omega
    by_cases hr0 : r = .nil
    · subst hr0
      rw [wp_if_neg (by simp [Trie.root])]
      simp only [wp_bind]
      rw [wp_loadPtr (show σ.getPtr (x + 32 + 8 * 0) = _ from hn.fields.left)]
      by_cases hl0 : l = .nil
      · subst hl0
        rw [wp_if_neg (by simp [Trie.root]), wp_pure]
        exact hleaf rfl rfl rfl
      · have Nl' := Nl.sublist (List.nodup_cons.mp Nl.nodup).2
          (fun y hy => List.mem_cons_of_mem _ hy)
        rw [wp_if_pos (root_ne_zero Nl' hl0), if_neg (by simp [Trie.root])]
        simp only [wp_bind]
        refine wp_detachLeaf A hl0 Nl (Or.inl rfl) hn.fields.left hl ?_
        rintro o b k ring' he τ hf hs hleft hT ⟨pb, hb⟩
        have hz : x + 32 + 8 * 0 = x + 32 := rfl
        refine hQ τ b k ring' (o.plug .nil) .nil ?_ ?_ ⟨⟨?_, ?_, hleft, ?_⟩, ⟨pb, hb.fields⟩,
          hb.linked, hb.member, hT, trivial⟩
        · rw [he]
          exact without_left
        · exact hf.mono (hin (Or.inl hz) hsubl hs)
        · rw [hf.get (fun c h1 h2 => hkeep (Or.inl hz) hsubl (hd4 x (by simp)) hs c (by omega)
            (by omega) (by omega))]
          exact hn.fields.idx
        · rw [hf.getPtr (fun c h1 h2 => hkeep (Or.inl hz) hsubl (hd4 x (by simp)) hs c (by omega)
            (by omega) (by omega))]
          exact hn.fields.parent
        · rw [hf.getPtr (fun c h1 h2 => hkeep (Or.inl hz) hsubl (hd4 x (by simp)) hs c (by omega)
            (by omega) (by omega))]
          exact hn.fields.right
    · have Nr' := Nr.sublist (List.nodup_cons.mp Nr.nodup).2
        (fun y hy => List.mem_cons_of_mem _ hy)
      have hrne := root_ne_zero Nr' hr0
      rw [wp_if_pos hrne, wp_bind, wp_pure, wp_if_pos hrne, if_pos hrne]
      simp only [wp_bind]
      refine wp_detachLeaf A hr0 Nr (Or.inr rfl) hn.fields.right hr ?_
      rintro o b k ring' he τ hf hs hright hT ⟨pb, hb⟩
      have hz : x + 32 + 8 * 1 = x + 40 := rfl
      refine hQ τ b k ring' l (o.plug .nil) ?_ ?_ ⟨⟨?_, ?_, ?_, hright⟩, ⟨pb, hb.fields⟩,
        hb.linked, hb.member, ?_, hT⟩
      · rw [he]
        exact without_right
      · exact hf.mono (hin (Or.inr hz) hsubr hs)
      · rw [hf.get (fun c h1 h2 => hkeep (Or.inr hz) hsubr (hd5 x (by simp)) hs c (by omega)
          (by omega) (by omega))]
        exact hn.fields.idx
      · rw [hf.getPtr (fun c h1 h2 => hkeep (Or.inr hz) hsubr (hd5 x (by simp)) hs c (by omega)
          (by omega) (by omega))]
        exact hn.fields.parent
      · rw [hf.getPtr (fun c h1 h2 => hkeep (Or.inr hz) hsubr (hd5 x (by simp)) hs c (by omega)
          (by omega) (by omega))]
        exact hn.fields.left
      · exact hl.frame hf (hrest (Or.inr hz) hsubr hsubl (hd4 x (by simp))
          (fun y hy hc => hd6 y hc hy) hs)
  · rw [List.concat_eq_append] at hcat
    subst hcat
    have hlast : lastNode x (ring' ++ [b]) = b := lastNode_append x b ring'
    have hbx : b ≠ x := by
      rintro rfl
      exact (List.nodup_cons.mp hd1).1 (by simp)
    rw [hlast, wp_if_pos hbx]
    simp only [wp_bind]
    have hfirst := hn.linked.next_head.1
    rw [firstNode_snoc] at hfirst
    rw [wp_loadPtr (show σ.getPtr (x + 16) = _ from hfirst)]
    have hperm : (x :: (ring' ++ [b])).Perm (b :: ([] ++ x :: ring')) := by
      rw [List.nil_append]
      exact (List.perm_append_comm : (x :: ring' ++ [b]).Perm ([b] ++ x :: ring'))
    have Nb : Nodes m hi (b :: ([] ++ x :: ring')) :=
      (Nx.sublist (hperm.nodup_iff.mp hd1) (fun y hy => hperm.mem_iff.mpr hy)).nodes
    have hfm : firstNode b ring' ∈ b :: ring' := firstNode_mem b ring'
    have hlo : lo ≤ firstNode b ring' := by
      have hin := Nb.inside (firstNode b ring') (by
        rcases List.mem_cons.mp hfm with he | hm
        · simp [he]
        · simp [hm])
      omega
    rw [wp_okAddress A.least hlo, wp_check rfl]
    have hring : LinkRing (fwd σ) (bwd σ) b ([] ++ x :: ring') := ring_rotate.mp hn.linked
    refine (wp_bridge A Nb hring ?_).1
    intro τ hf hring'
    rw [wp_pure]
    have hlinks : ∀ c, Links 32 (b :: ([] ++ x :: ring')) c → Links 32 (x :: (ring' ++ [b])) c := by
      rintro c ⟨y, hy, hc⟩
      exact ⟨y, hperm.mem_iff.mpr hy, hc⟩
    have hbm := hn.member b (by simp)
    -- the links of ring members lie below their tree fields
    have hfields : ∀ y ∈ x :: (ring' ++ [b]), ∀ c, y + 32 ≤ c → c < y + 64 →
        ¬ Links 32 (b :: ([] ++ x :: ring')) c := by
      rintro y hy c h1 h2 hc
      obtain ⟨z, hz, h3, h4⟩ := hlinks c hc
      have hap := Nx.apart y hy z hz
      omega
    have hlinks64 : ∀ c, Links 32 (b :: ([] ++ x :: ring')) c →
        Links 64 (x :: (ring' ++ [b])) c := by
      intro c hc
      obtain ⟨z, hz, h3, h4⟩ := hlinks c hc
      exact ⟨z, hz, h3, by omega⟩
    have hsubtree : ∀ u : Trie, (∀ y ∈ u.addrs, y ∈ (Trie.node x s (ring' ++ [b]) l r).addrs) →
        (∀ y ∈ x :: (ring' ++ [b]), y ∉ u.addrs) →
        ∀ c, Links 64 u.addrs c → ¬ Links 32 (b :: ([] ++ x :: ring')) c := by
      intro u hu hd c hc hl
      exact N.links_disjoint hsub hu hd (hlinks64 c hl) hc
    refine hQ τ b s ring' l r without_head ?_ ⟨hn.fields.frame hf (hfields x (by simp)),
      ⟨0, hbm.frame hf (hfields b (by simp))⟩, hring', ?_, hl.frame hf (hsubtree l hsubl hd4),
      hr.frame hf (hsubtree r hsubr hd5)⟩
    · exact hf.mono (fun c hc => links_mono hsub (hlinks64 c hc))
    · intro y hy
      exact (hn.member y (by simp [hy])).frame hf (hfields y (by simp [hy]))

theorem ctx_root (hc : CtxAt σ i rp par c h) (hne : c ≠ .hole) :
    ∃ a ∈ c.addrs, σ.getPtr rp = some a := by
  induction c generalizing h with
  | hole => contradiction
  | left a s ring r up ih =>
    obtain ⟨_, _, hu⟩ := hc
    by_cases hup : up = .hole
    · subst hup
      exact ⟨a, mem_addrs_left.mpr (Or.inl (by simp)), hu⟩
    · obtain ⟨b, hb, hg⟩ := ih hu hup
      exact ⟨b, mem_addrs_left.mpr (Or.inr (Or.inr hb)), hg⟩
  | right a s ring l up ih =>
    obtain ⟨_, _, hu⟩ := hc
    by_cases hup : up = .hole
    · subst hup
      exact ⟨a, mem_addrs_right.mpr (Or.inl (by simp)), hu⟩
    · obtain ⟨b, hb, hg⟩ := ih hu hup
      exact ⟨b, mem_addrs_right.mpr (Or.inr (Or.inr hb)), hg⟩

theorem root_mem_addrs (h : t ≠ .nil) : t.root ∈ t.addrs := by
  cases t with
  | nil => contradiction
  | node a s ring l r => exact mem_addrs_node.mpr (Or.inl (by simp [Trie.root]))

/-- The slot that held `x` gets `h`. -/
theorem wp_storeSlot {Q : Unit → State → Prop} (A : Arena σ m lo hi) (hi32 : i < 32)
    (N : TreeNodes m hi c.addrs) (hc : CtxAt σ i (treebinAt m i) par c x)
    (hh : h = 0 ∨ m ≤ h ∧ h < hi) (hh8 : h % 8 = 0)
    (hQ : ∀ τ, Frame (fun b => slot (treebinAt m i) c ≤ b ∧ b < slot (treebinAt m i) c + 8) σ τ →
      CtxAt τ i (treebinAt m i) par c h → Q () τ) :
    wp D (storePtr (slot (treebinAt m i) c) h) Q σ := by
  have hb := treebin_bounds (m := m) hi32
  have hal := A.align
  have hhigh := A.high
  have hslot := slot_cases (treebinAt m i) c
  have hbound : m ≤ slot (treebinAt m i) c ∧ slot (treebinAt m i) c + 8 ≤ hi ∧
      slot (treebinAt m i) c % 8 = 0 := by
    rcases hslot with ⟨_, he⟩ | ⟨a, ha, he⟩
    · rw [he]
      simp only [treebinAt] at hb ⊢
      omega
    · have hin := N.inside a ha
      omega
  refine A.wp_storePtr rfl (by omega) (by omega) ?_
  have hf : Frame (fun b => slot (treebinAt m i) c ≤ b ∧ b < slot (treebinAt m i) c + 8) σ
      (σ.putPtr (slot (treebinAt m i) c) h) := (Frame.refl _ σ).putPtr (fun b h1 h2 => ⟨h1, h2⟩)
  refine hQ _ hf (hc.retarget N hf (fun b hb _ => hb) ?_ ?_)
  · intro hne b h1 h2 hW
    rcases hslot with ⟨he, _⟩ | ⟨a, ha, he⟩
    · exact hne he
    · have hin := N.inside a ha
      omega
  · exact A.getPtr_self (by rfl) (by omega) (by omega) (by omega) (by omega) (by omega)

/-- The bin or the parent that held `x` gets `h`. -/
theorem wp_relinkParent {P : Nat → Prop} {Q : Unit → State → Prop} (A : Arena σ m lo hi)
    (hi32 : i < 32) (N : TreeNodes m hi c.addrs) (hx : x ∉ c.addrs) (hx0 : x ≠ 0)
    (hidx : σ.get 4 (x + 56) = some i) (hmap : MapAt σ (m + 4) P)
    (hc : CtxAt σ i (treebinAt m i) par c x) (hxp : c ≠ .hole → xp = c.holeParent par)
    (hh : h = 0 ∨ m ≤ h ∧ h < hi) (hh8 : h % 8 = 0)
    (hQ : ∀ τ, Frame (fun b => m + 4 ≤ b ∧ b < m + 8 ∨
        slot (treebinAt m i) c ≤ b ∧ b < slot (treebinAt m i) c + 8) σ τ →
      MapAt τ (m + 4) (fun j => (j ≠ i ∨ c ≠ .hole ∨ h ≠ 0) ∧ P j) →
      CtxAt τ i (treebinAt m i) par c h → Q () τ) :
    wp D (relinkParent m x xp h) Q σ := by
  have hb := treebin_bounds (m := m) hi32
  have hhigh := A.high
  have hlow := A.low
  have hzone : ∀ {τ : State},
      Frame (fun b => slot (treebinAt m i) c ≤ b ∧ b < slot (treebinAt m i) c + 8) σ τ →
      Frame (fun b => m + 4 ≤ b ∧ b < m + 8 ∨
        slot (treebinAt m i) c ≤ b ∧ b < slot (treebinAt m i) c + 8) σ τ :=
    fun h => h.mono (fun b hb => Or.inr hb)
  have hmapτ : ∀ {τ : State},
      Frame (fun b => slot (treebinAt m i) c ≤ b ∧ b < slot (treebinAt m i) c + 8) σ τ →
      MapAt τ (m + 4) P := by
    intro τ hf
    refine hmap.frame hf ?_
    rintro b h1 h2 ⟨h3, h4⟩
    rcases slot_cases (treebinAt m i) c with ⟨_, he⟩ | ⟨a, ha, he⟩
    · omega
    · have hin := N.inside a ha
      omega
  unfold relinkParent
  simp only [wp_bind, index]
  rw [wp_load hidx]
  by_cases hhole : c = .hole
  · subst hhole
    rw [wp_loadPtr (show σ.getPtr (treebinAt m i) = some x from hc), wp_if_pos rfl]
    simp only [wp_bind]
    refine wp_storeSlot A hi32 N hc hh hh8 ?_
    intro τ hf hc'
    by_cases hzero : h = 0
    · obtain ⟨w, hw, hbits⟩ := hmapτ hf
      rw [wp_if_pos hzero]
      simp only [clearTreemap, treemap]
      rw [wp_update hw]
      refine hQ _ ?_ ((MapAt.clear hw hbits hi32).congr ?_) ?_
      · exact (hzone hf).put (fun b h1 h2 => Or.inl ⟨h1, by omega⟩)
      · intro j _
        simp [hzero]
      · refine CtxAt.frame hc' ((Frame.refl (fun b => m + 4 ≤ b ∧ b < m + 8) τ).put
          (fun b h1 h2 => ⟨h1, by omega⟩)) ?_ ?_
        · rintro b ⟨y, hy, _⟩
          simp [TrieCtx.addrs, TrieCtx.entries] at hy
        · intro b h1 h2
          omega
    · rw [wp_if_neg hzero, wp_pure]
      refine hQ τ (hzone hf) ((hmapτ hf).congr ?_) hc'
      intro j _
      simp [hzero]
  · obtain ⟨a, ha, hroot⟩ := ctx_root hc hhole
    have hxa : x ≠ a := fun he => hx (he ▸ ha)
    rw [wp_loadPtr hroot, wp_if_neg hxa]
    simp only [wp_bind]
    have hpm : c.holeParent par ∈ c.addrs := by
      rcases holeParent_cases par c with ⟨he, _⟩ | hm
      · exact absurd he hhole
      · exact hm
    have hin := N.inside _ hpm
    rw [hxp hhole, wp_okAddress A.least (by omega), wp_check rfl]
    have hfin : ∀ τ, Frame (fun b => slot (treebinAt m i) c ≤ b ∧
        b < slot (treebinAt m i) c + 8) σ τ → CtxAt τ i (treebinAt m i) par c h → Q () τ := by
      intro τ hf hc'
      refine hQ τ (hzone hf) ((hmapτ hf).congr ?_) hc'
      intro j _
      simp [hhole]
    have hrun := wp_storeSlot (D := D) A hi32 N hc hh hh8 hfin
    simp only [child]
    cases c with
    | hole => contradiction
    | left a s ring r up =>
      simp only [TrieCtx.holeParent]
      rw [wp_loadPtr (show σ.getPtr (a + 32 + 8 * 0) = _ from hc.1.fields.left), wp_if_pos rfl]
      exact hrun
    | right a s ring l up =>
      simp only [TrieCtx.holeParent]
      rw [wp_loadPtr (show σ.getPtr (a + 32 + 8 * 0) = _ from hc.1.fields.left)]
      have hlx : l.root ≠ x := by
        by_cases hl0 : l = .nil
        · subst hl0
          exact fun he => hx0 he.symm
        · intro he
          exact hx (mem_addrs_right.mpr (Or.inr (Or.inl (he ▸ root_mem_addrs hl0))))
      rw [wp_if_neg hlx]
      exact hrun

/-- A subtree changes hands. -/
theorem TreeAt.reparent {W : Nat → Prop} (ht : TreeAt σ i a t) (hne : t ≠ .nil)
    (N : TreeNodes m hi t.addrs) (hf : Frame W σ τ)
    (hw : ∀ c, W c → Links 64 t.addrs c → t.root + 48 ≤ c ∧ c < t.root + 56)
    (hp : τ.getPtr (t.root + 48) = some b) : TreeAt τ i b t := by
  cases t with
  | nil => contradiction
  | node y s ring l r =>
    obtain ⟨hn, hl, hr⟩ := ht
    obtain ⟨hd1, _, _, hd4, hd5, _⟩ := node_disjoint N.nodup
    simp only [Trie.root] at hw hp
    have hy : ∀ z ∈ (Trie.node y s ring l r).addrs, ∀ c, z + 16 ≤ c → c < z + 64 →
        (z = y → c < y + 48 ∨ y + 56 ≤ c) → ¬ W c := by
      intro z hz c h1 h2 h3 hW
      have hc := hw c hW ⟨z, hz, h1, h2⟩
      rcases N.apart z hz y (mem_addrs_node.mpr (Or.inl (by simp))) with he | hap | hap
      · have hcc := h3 he
        omega
      · omega
      · omega
    have hym : y ∈ (Trie.node y s ring l r).addrs := mem_addrs_node.mpr (Or.inl (by simp))
    have hyr : ∀ z ∈ ring, z ≠ y := fun z hz he => (List.nodup_cons.mp hd1).1 (he ▸ hz)
    have hrm : ∀ z ∈ ring, z ∈ (Trie.node y s ring l r).addrs :=
      fun z hz => mem_addrs_node.mpr (Or.inl (List.mem_cons_of_mem _ hz))
    refine ⟨⟨⟨?_, hp, ?_, ?_⟩, ?_, ?_⟩, hl.frame hf ?_, hr.frame hf ?_⟩
    · rw [hf.get (fun c h1 h2 => hy y hym c (by omega) (by omega) (fun _ => by omega))]
      exact hn.fields.idx
    · rw [hf.getPtr (fun c h1 h2 => hy y hym c (by omega) (by omega) (fun _ => by omega))]
      exact hn.fields.left
    · rw [hf.getPtr (fun c h1 h2 => hy y hym c (by omega) (by omega) (fun _ => by omega))]
      exact hn.fields.right
    · refine ring_frame hn.linked hf ?_
      rintro c ⟨z, hz, h1, h2⟩
      rcases List.mem_cons.mp hz with rfl | hz
      · exact hy z hym c h1 (by omega) (fun _ => by omega)
      · exact hy z (hrm z hz) c h1 (by omega) (fun he => absurd he (hyr z hz))
    · intro z hz
      exact (hn.member z hz).frame hf (fun c h1 h2 => hy z (hrm z hz) c (by omega) h2
        (fun he => absurd he (hyr z hz)))
    · rintro c ⟨z, hz, h1, h2⟩
      exact hy z (mem_addrs_node.mpr (Or.inr (Or.inl hz))) c h1 h2
        (fun he => absurd hz (he ▸ hd4 y (by simp)))
    · rintro c ⟨z, hz, h1, h2⟩
      exact hy z (mem_addrs_node.mpr (Or.inr (Or.inr hz))) c h1 h2
        (fun he => absurd hz (he ▸ hd5 y (by simp)))

/-- A child of `x`, or none, goes to `b`. -/
theorem wp_relinkChild {Q : Unit → State → Prop} {j z : Nat} (A : Arena σ m lo hi)
    (N : TreeNodes m hi (x :: b :: t.addrs)) (hz : z = 32 + 8 * j) (hj : j < 2)
    (hx : σ.getPtr (x + z) = some t.root) (hb : σ.getPtr (b + z) = some 0)
    (hT : TreeAt σ i x t)
    (hQ : ∀ τ, Frame (fun c => b + z ≤ c ∧ c < b + z + 8 ∨ Links 64 t.addrs c) σ τ →
      τ.getPtr (b + z) = some t.root → TreeAt τ i b t → Q () τ) :
    wp D (relinkChild m x b j) Q σ := by
  have hlow := A.low
  have hbin := N.inside b (by simp)
  have hchild : ∀ p, child p j = p + z := by
    intro p
    simp only [child]
    omega
  obtain ⟨_, hnb⟩ := List.nodup_cons.mp N.nodup
  obtain ⟨hbt, hnt⟩ := List.nodup_cons.mp hnb
  have Nt := N.sublist hnt (fun y hy => List.mem_cons_of_mem _ (List.mem_cons_of_mem _ hy))
  unfold relinkChild
  simp only [wp_bind, hchild, parent]
  rw [wp_loadPtr hx]
  by_cases hne : t = .nil
  · subst hne
    rw [wp_if_neg (by simp [Trie.root]), wp_pure]
    exact hQ σ (Frame.refl _ σ) hb trivial
  · have hrm := root_mem_addrs hne
    have hrin := Nt.inside _ hrm
    have hap := N.apart b (by simp) _ (List.mem_cons_of_mem _ (List.mem_cons_of_mem _ hrm))
    have hbr : b ≠ t.root := fun he => hbt (he ▸ hrm)
    rw [wp_if_pos (root_ne_zero Nt hne)]
    simp only [wp_bind]
    rw [wp_okAddress A.least (by omega), wp_check rfl]
    refine A.wp_storePtr rfl (by omega) (by omega) ?_
    refine A.wp_storePtr rfl (by omega) (by omega) ?_
    have hW := ((Frame.refl (Words []) σ).word (b + z) t.root).word (t.root + 48) b
    refine hQ _ (hW.mono ?_) ?_ (hT.reparent hne Nt hW ?_ ?_)
    · rintro c ⟨f, hf, h1, h2⟩
      simp only [List.mem_cons, List.not_mem_nil, or_false] at hf
      rcases hf with rfl | rfl
      · exact Or.inr ⟨_, hrm, by omega, by omega⟩
      · exact Or.inl ⟨h1, h2⟩
    · simp (disch := omega) only [Machine.getPtr_putPtr_ne]
      exact A.getPtr_self (by rfl) (by omega) (by omega) (by omega) (by omega) (by omega)
    · rintro c ⟨f, hf, h1, h2⟩ ⟨y, hy, h3, h4⟩
      simp only [List.mem_cons, List.not_mem_nil, or_false] at hf
      rcases hf with rfl | rfl
      · omega
      · have hby := N.apart b (by simp) y (List.mem_cons_of_mem _ (List.mem_cons_of_mem _ hy))
        have hne : b ≠ y := fun he => hbt (he ▸ hy)
        omega
    · exact A.getPtr_self (by rfl) (by omega) (by omega) (by omega) (by omega) (by omega)

theorem wp_relinkChildren {ring' : List Nat} {l' r' : Trie} {Q : Unit → State → Prop}
    (A : Arena σ m lo hi) (N : TreeNodes m hi (x :: (Trie.node b k ring' l' r').addrs))
    (hd : Detached i par x b ring' l' r' σ) (hxp : xp % 8 = 0 ∧ m ≤ xp ∧ xp < hi)
    (hQ : ∀ τ, Frame (Links 64 (Trie.node b k ring' l' r').addrs) σ τ →
      TreeAt τ i xp (.node b k ring' l' r') → Q () τ) :
    wp D (relinkChildren m x xp b) Q σ := by
  obtain ⟨hxn, hnd⟩ := List.nodup_cons.mp N.nodup
  obtain ⟨hd1, hd2, hd3, hd4, hd5, hd6⟩ := node_disjoint hnd
  have hsub : ∀ y ∈ b :: ring', y ∈ (Trie.node b k ring' l' r').addrs :=
    fun y hy => mem_addrs_node.mpr (Or.inl hy)
  have hsubl : ∀ y ∈ l'.addrs, y ∈ (Trie.node b k ring' l' r').addrs :=
    fun y hy => mem_addrs_node.mpr (Or.inr (Or.inl hy))
  have hsubr : ∀ y ∈ r'.addrs, y ∈ (Trie.node b k ring' l' r').addrs :=
    fun y hy => mem_addrs_node.mpr (Or.inr (Or.inr hy))
  have hcons : ∀ {y}, y ∈ (Trie.node b k ring' l' r').addrs →
      y ∈ x :: (Trie.node b k ring' l' r').addrs := fun hy => List.mem_cons_of_mem _ hy
  have hbm := hsub b (by simp)
  have hb := N.inside b (hcons hbm)
  have hlow := A.low
  have hxb : x ≠ b := fun he => hxn (he ▸ hbm)
  have hap := N.apart x (by simp) b (hcons hbm)
  obtain ⟨pb, hbf⟩ := hd.fields
  have Nl : TreeNodes m hi (x :: b :: l'.addrs) := by
    refine N.sublist (List.nodup_cons.mpr ⟨?_, List.nodup_cons.mpr ⟨hd4 b (by simp), hd2⟩⟩) ?_
    · intro hc
      rcases List.mem_cons.mp hc with he | hc
      · exact hxb he
      · exact hxn (hsubl x hc)
    · intro y hy
      rcases List.mem_cons.mp hy with rfl | hy
      · exact List.mem_cons_self
      · rcases List.mem_cons.mp hy with rfl | hy
        · exact hcons hbm
        · exact hcons (hsubl y hy)
  have Nr : TreeNodes m hi (x :: b :: r'.addrs) := by
    refine N.sublist (List.nodup_cons.mpr ⟨?_, List.nodup_cons.mpr ⟨hd5 b (by simp), hd3⟩⟩) ?_
    · intro hc
      rcases List.mem_cons.mp hc with he | hc
      · exact hxb he
      · exact hxn (hsubr x hc)
    · intro y hy
      rcases List.mem_cons.mp hy with rfl | hy
      · exact List.mem_cons_self
      · rcases List.mem_cons.mp hy with rfl | hy
        · exact hcons hbm
        · exact hcons (hsubr y hy)
  -- what each of the three steps writes, seen from the rest of the node
  have hword : ∀ y ∈ x :: (Trie.node b k ring' l' r').addrs, y ≠ b → ∀ z, 16 ≤ z → z ≤ 56 →
      ∀ c, y + 16 ≤ c → c < y + 64 → ¬ (b + z ≤ c ∧ c < b + z + 8) := by
    intro y hy hne z h1 h2 c h3 h4 ⟨h5, h6⟩
    have hyb := N.apart y hy b (hcons hbm)
    omega
  have hlinks : ∀ u : Trie, (∀ y ∈ u.addrs, y ∈ (Trie.node b k ring' l' r').addrs) →
      ∀ y ∈ x :: (Trie.node b k ring' l' r').addrs, y ∉ u.addrs → ∀ c, y + 16 ≤ c → c < y + 64 →
        ¬ Links 64 u.addrs c := by
    rintro u hu y hy hyu c h1 h2 ⟨z, hz, h3, h4⟩
    have hyz := N.apart y hy z (hcons (hu z hz))
    have hne : y ≠ z := fun he => hyu (he ▸ hz)
    omega
  unfold relinkChildren
  rw [wp_if_pos (by omega)]
  simp only [wp_bind, parent]
  rw [wp_okAddress A.least (by omega), wp_check rfl]
  refine A.wp_storePtr rfl (by omega) (by omega) ?_
  have hf₁ : Frame (fun c => b + 48 ≤ c ∧ c < b + 48 + 8) σ (σ.putPtr (b + 48) xp) :=
    (Frame.refl _ σ).putPtr (fun c h1 h2 => ⟨h1, h2⟩)
  have hp₁ : (σ.putPtr (b + 48) xp).getPtr (b + 48) = some xp :=
    A.getPtr_self (by rfl) (by omega) (by omega) (by omega) (by omega) (by omega)
  generalize σ.putPtr (b + 48) xp = σ₁ at *
  have A₁ : Arena σ₁ m lo hi := A.frame hf₁ (fun c h1 h2 h3 => by omega)
  have hx₁ : FieldsAt σ₁ i par x l'.root r'.root := hd.node.frame hf₁
    (fun c h1 h2 => hword x (by simp) hxb 48 (by omega) (by omega) c (by omega) h2)
  have hl₁ : TreeAt σ₁ i x l' := hd.left.frame hf₁ (by
    rintro c ⟨y, hy, h1, h2⟩
    exact hword y (hcons (hsubl y hy)) (fun he => hd4 b (by simp) (he ▸ hy)) 48 (by omega)
      (by omega) c h1 h2)
  have hr₁ : TreeAt σ₁ i x r' := hd.right.frame hf₁ (by
    rintro c ⟨y, hy, h1, h2⟩
    exact hword y (hcons (hsubr y hy)) (fun he => hd5 b (by simp) (he ▸ hy)) 48 (by omega)
      (by omega) c h1 h2)
  refine wp_relinkChild A₁ Nl (show 32 = 32 + 8 * 0 from rfl) (by omega) hx₁.left ?_ hl₁ ?_
  · rw [hf₁.getPtr (fun c h1 h2 h3 => by omega)]
    exact hbf.left
  intro σ₂ hf₂ hbl hl₂
  have A₂ : Arena σ₂ m lo hi := A₁.frame hf₂ (by
    rintro c h1 h2 (h3 | ⟨y, hy, h3, h4⟩)
    · omega
    · have hin := N.inside y (hcons (hsubl y hy))
      omega)
  have hx₂ : FieldsAt σ₂ i par x l'.root r'.root := hx₁.frame hf₂ (by
    rintro c h1 h2 (h3 | h3)
    · exact hword x (by simp) hxb 32 (by omega) (by omega) c (by omega) h2 h3
    · exact hlinks l' hsubl x (by simp) (fun hc => hxn (hsubl x hc)) c (by omega) h2 h3)
  have hr₂ : TreeAt σ₂ i x r' := hr₁.frame hf₂ (by
    rintro c ⟨y, hy, h1, h2⟩ (h3 | h3)
    · exact hword y (hcons (hsubr y hy)) (fun he => hd5 b (by simp) (he ▸ hy)) 32 (by omega)
        (by omega) c h1 h2 h3
    · exact hlinks l' hsubl y (hcons (hsubr y hy)) (fun hc => hd6 y hc hy) c h1 h2 h3)
  have hkeep₂ : ∀ z, (z = 40 ∨ z = 48) → σ₂.getPtr (b + z) = σ₁.getPtr (b + z) := by
    intro z hz
    refine hf₂.getPtr ?_
    rintro c h1 h2 (h3 | h3)
    · omega
    · exact hlinks l' hsubl b (hcons hbm) (hd4 b (by simp)) c (by omega) (by omega) h3
  have hright₁ : σ₁.getPtr (b + 40) = some 0 := by
    rw [hf₁.getPtr (fun c h1 h2 h3 => by omega)]
    exact hbf.right
  refine wp_relinkChild A₂ Nr (show 40 = 32 + 8 * 1 from rfl) (by omega) hx₂.right ?_ hr₂ ?_
  · rw [hkeep₂ 40 (Or.inl rfl)]
    exact hright₁
  intro τ hf₃ hbr hr₃
  have hout₃ : ∀ c, b + 16 ≤ c → c < b + 64 → (c < b + 40 ∨ b + 48 ≤ c) →
      ¬ (b + 40 ≤ c ∧ c < b + 40 + 8 ∨ Links 64 r'.addrs c) := by
    rintro c h1 h2 h3 (h4 | h4)
    · omega
    · exact hlinks r' hsubr b (hcons hbm) (hd5 b (by simp)) c h1 h2 h4
  have hl₃ : TreeAt τ i b l' := hl₂.frame hf₃ (by
    rintro c ⟨y, hy, h1, h2⟩ (h3 | h3)
    · exact hword y (hcons (hsubl y hy)) (fun he => hd4 b (by simp) (he ▸ hy)) 40 (by omega)
        (by omega) c h1 h2 h3
    · exact hlinks r' hsubr y (hcons (hsubl y hy)) (hd6 y hy) c h1 h2 h3)
  -- the three steps together leave the ring of `b` and its members alone
  have hall : Frame (fun c => b + 32 ≤ c ∧ c < b + 56 ∨ Links 64 l'.addrs c ∨
      Links 64 r'.addrs c) σ τ := by
    refine ((hf₁.mono ?_).trans (hf₂.mono ?_)).trans (hf₃.mono ?_)
    · intro c hc
      exact Or.inl (by omega)
    · rintro c (hc | hc)
      · exact Or.inl (by omega)
      · exact Or.inr (Or.inl hc)
    · rintro c (hc | hc)
      · exact Or.inl (by omega)
      · exact Or.inr (Or.inr hc)
  have hrest : ∀ y ∈ b :: ring', ∀ c, y + 16 ≤ c → c < y + 64 → (y = b → c < b + 32 ∨ b + 56 ≤ c) →
      ¬ (b + 32 ≤ c ∧ c < b + 56 ∨ Links 64 l'.addrs c ∨ Links 64 r'.addrs c) := by
    rintro y hy c h1 h2 h3 (h4 | h4 | h4)
    · have hyb := N.apart y (hcons (hsub y hy)) b (hcons hbm)
      by_cases he : y = b
      · have h5 := h3 he
        omega
      · omega
    · exact hlinks l' hsubl y (hcons (hsub y hy)) (hd4 y hy) c h1 h2 h4
    · exact hlinks r' hsubr y (hcons (hsub y hy)) (hd5 y hy) c h1 h2 h4
  have hring : ∀ y ∈ ring', y ≠ b := fun y hy he => (List.nodup_cons.mp hd1).1 (he ▸ hy)
  refine hQ τ (hall.mono ?_) ⟨⟨⟨?_, ?_, ?_, hbr⟩, ?_, ?_⟩, hl₃, hr₃⟩
  · rintro c (hc | hc | hc)
    · exact ⟨b, hbm, by omega, by omega⟩
    · exact links_mono hsubl hc
    · exact links_mono hsubr hc
  · rw [hall.get (fun c h1 h2 => hrest b (by simp) c (by omega) (by omega) (fun _ => by omega))]
    exact hbf.idx
  · rw [hf₃.getPtr (fun c h1 h2 => hout₃ c (by omega) (by omega) (by omega)),
      hkeep₂ 48 (Or.inr rfl)]
    exact hp₁
  · rw [hf₃.getPtr (fun c h1 h2 => hout₃ c (by omega) (by omega) (by omega))]
    exact hbl
  · refine ring_frame hd.linked hall ?_
    rintro c ⟨y, hy, h1, h2⟩
    exact hrest y hy c h1 (by omega) (fun he => by omega)
  · intro y hy
    exact (hd.member y hy).frame hall (fun c h1 h2 => hrest y (by simp [hy]) c (by omega) h2
      (fun he => absurd he (hring y hy)))

/-- A chunk on the ring of a node of its size leaves the ring. -/
theorem wp_detachMember {Q : Nat → State → Prop} {lr rr : Nat} {l₁ l₂ : List Nat}
    (A : Arena σ m lo hi) (N : TreeNodes m hi (a :: (l₁ ++ x :: l₂)))
    (hn : NodeAt σ i par a (l₁ ++ x :: l₂) lr rr)
    (hQ : ∀ τ, Frame (Links 32 (a :: (l₁ ++ x :: l₂))) σ τ → NodeAt τ i par a (l₁ ++ l₂) lr rr →
      Q (lastNode a l₁) τ) :
    wp D (detachReplacement m x) Q σ := by
  have hlow := A.low
  obtain ⟨hf, hb⟩ := hn.linked.around
  have hlast : lastNode a l₁ ∈ a :: (l₁ ++ x :: l₂) := by
    rcases List.mem_cons.mp (lastNode_mem a l₁) with he | hm
    · simp [he]
    · simp [hm]
  have hfirst : firstNode a l₂ ∈ a :: (l₁ ++ x :: l₂) := by
    rcases List.mem_cons.mp (firstNode_mem a l₂) with he | hm
    · simp [he]
    · simp [hm]
  have hbx : lastNode a l₁ ≠ x := by
    obtain ⟨han, hnd⟩ := List.nodup_cons.mp N.nodup
    obtain ⟨_, _, hdis⟩ := List.nodup_append.mp hnd
    intro he
    rcases List.mem_cons.mp (lastNode_mem a l₁) with hc | hc
    · rw [he] at hc
      exact han (by simp [← hc])
    · exact hdis _ hc x (by simp) he
  have hin := N.inside _ hfirst
  unfold detachReplacement
  simp only [wp_bind, bk, fd]
  rw [wp_loadPtr (show σ.getPtr (x + 24) = _ from hb), wp_if_pos hbx]
  simp only [wp_bind]
  rw [wp_loadPtr (show σ.getPtr (x + 16) = _ from hf), wp_okAddress A.least (by omega),
    wp_check rfl]
  refine (wp_bridge A N.nodes hn.linked ?_).1
  intro τ hfr hring
  rw [wp_pure]
  have hfields : ∀ y ∈ a :: (l₁ ++ x :: l₂), ∀ c, y + 32 ≤ c → c < y + 64 →
      ¬ Links 32 (a :: (l₁ ++ x :: l₂)) c := by
    rintro y hy c h1 h2 ⟨z, hz, h3, h4⟩
    have hap := N.apart y hy z hz
    omega
  refine hQ τ hfr ⟨hn.fields.frame hfr (hfields a (by simp)), hring, ?_⟩
  intro y hy
  have hym : y ∈ l₁ ++ x :: l₂ := by
    rcases List.mem_append.mp hy with hy | hy
    · simp [hy]
    · simp [hy]
  exact (hn.member y hym).frame hfr (hfields y (List.mem_cons_of_mem _ hym))

/-- A chunk leaves its tree. -/
theorem wp_unlinkLargeChunk {T : Nat → Trie} {Q : Unit → State → Prop} (A : Arena σ m lo hi)
    (hi32 : i < 32) (hmap : MapAt σ (m + 4) (fun j => T j ≠ .nil))
    (N : TreeNodes m hi (T i).addrs) (hT : TreeBin σ m hi i (T i)) (hx : (x, s) ∈ (T i).entries)
    (hQ : ∀ τ u, Frame (TreeZone m i (T i).addrs) σ τ →
      MapAt τ (m + 4) (fun j => Function.update T i u j ≠ .nil) → TreeBin τ m hi i u →
      (T i).entries.Perm ((x, s) :: u.entries) →
      ((T i).Ordered (sizeBit i) 0 → u.Ordered (sizeBit i) 0) → Q () τ) :
    wp D (unlinkLargeChunk m x) Q σ := by
  have hbb := treebin_bounds (m := m) hi32
  obtain ⟨c, a, ring, l, r, hplug, hxa⟩ := exists_ctx hx
  generalize hTi : T i = t at *
  have hmapc : ∀ {P : Nat → Prop} {τ : State} {u : Trie}, MapAt τ (m + 4) P →
      (∀ j, P j ↔ ((j = i ∧ u ≠ .nil) ∨ (j ≠ i ∧ T j ≠ .nil))) →
      MapAt τ (m + 4) (fun j => Function.update T i u j ≠ .nil) := by
    intro P τ u hm hP
    refine hm.congr (fun j _ => (hP j).trans ?_)
    by_cases hj : j = i
    · subst hj
      simp
    · simp [hj]
  subst hplug
  have hne : c.plug (.node a s ring l r) ≠ .nil := by
    intro hc
    have hm := mem_plug_entries (c := c).mpr (Or.inr
      (mem_node_entries.mpr (Or.inl ⟨hxa, rfl⟩) : (x, s) ∈ (Trie.node a s ring l r).entries))
    rw [hc] at hm
    simp [Trie.entries] at hm
  obtain ⟨hroot, par, hpar, htree⟩ := hT
  obtain ⟨hc, hn, hl, hr⟩ := ctxAt_plug.mp ⟨hroot, htree⟩
  obtain ⟨hdc, hdn, hdcn⟩ := plug_nodup N.nodup
  have hcm : ∀ y ∈ c.addrs, y ∈ (c.plug (.node a s ring l r)).addrs :=
    fun y hy => mem_addrs_plug.mpr (Or.inl hy)
  have hnm : ∀ y ∈ (Trie.node a s ring l r).addrs, y ∈ (c.plug (.node a s ring l r)).addrs :=
    fun y hy => mem_addrs_plug.mpr (Or.inr hy)
  have Nc := N.sublist hdc hcm
  have Nn := N.sublist hdn hnm
  have hhigh : ∀ {xs : List Nat}, (∀ y ∈ xs, y ∈ (c.plug (.node a s ring l r)).addrs) → ∀ b,
      Links 64 xs b → m + 936 ≤ b := fun hs b hb => N.links_high (links_mono hs hb)
  have hctx : ∀ {n : Nat} {xs : List Nat}, n ≤ 64 →
      (∀ y ∈ xs, y ∈ (Trie.node a s ring l r).addrs) →
      ∀ b, Links 64 c.addrs b → ¬ Links n xs b := by
    intro n xs h64 hs b hb hc'
    refine N.links_disjoint hcm (fun y hy => hnm y (hs y hy)) (fun y hy hc => hdcn y hy (hs y hc))
      hb ?_
    obtain ⟨y, hy, h1, h2⟩ := hc'
    exact ⟨y, hy, h1, by omega⟩
  unfold unlinkLargeChunk
  simp only [wp_bind, parent]
  rcases List.mem_cons.mp hxa with rfl | hxr
  · rw [wp_loadPtr (show σ.getPtr (x + 48) = _ from hn.fields.parent)]
    have hxin := Nn.inside x (mem_addrs_node.mpr (Or.inl (by simp)))
    have hxc : x ∉ c.addrs := fun hm => hdcn x hm (mem_addrs_node.mpr (Or.inl (by simp)))
    have hp8 : c.holeParent par % 8 = 0 ∧ m + 920 ≤ c.holeParent par ∧ c.holeParent par < hi := by
      rcases holeParent_cases par c with ⟨_, he⟩ | hm
      · rw [he]
        exact hpar
      · have hin := Nc.inside _ hm
        omega
    have hpne : c.holeParent par ≠ 0 := by omega
    -- the parent slot is neither among the chunks of the node nor in the bin maps
    have hslotn : ∀ b, slot (treebinAt m i) c ≤ b ∧ b < slot (treebinAt m i) c + 8 →
        ¬ Links 64 (Trie.node x s ring l r).addrs b := by
      intro b hb hlk
      rcases slot_cases (treebinAt m i) c with ⟨_, he⟩ | ⟨y, hy, he⟩
      · have hh := hhigh hnm b hlk
        omega
      · refine hctx (Nat.le_refl 64) (fun z hz => hz) b ⟨y, hy, by omega, by omega⟩ hlk
    have hslotz : ∀ b, (m + 4 ≤ b ∧ b < m + 8 ∨
        slot (treebinAt m i) c ≤ b ∧ b < slot (treebinAt m i) c + 8) →
        TreeZone m i (c.plug (.node x s ring l r)).addrs b := by
      rintro b (hb | hb)
      · exact Or.inl hb
      · rcases slot_cases (treebinAt m i) c with ⟨_, he⟩ | ⟨y, hy, he⟩
        · exact Or.inr (Or.inl (by omega))
        · exact Or.inr (Or.inr ⟨y, hcm y hy, by omega, by omega⟩)
    refine wp_detachHead A Nn hn hl hr ?_ ?_
    · rintro rfl rfl rfl
      rw [wp_if_pos hpne]
      simp only [wp_bind]
      refine wp_relinkParent A hi32 Nc hxc (by omega) hn.fields.idx hmap hc
        (fun _ => rfl) (Or.inl rfl) (by omega) ?_
      intro τ hf hm hc'
      unfold relinkChildren
      rw [wp_if_neg (by simp), wp_pure]
      have hw : Without (sizeBit i) x s (.node x s [] .nil .nil) .nil := without_leaf
      obtain ⟨hr', ht'⟩ : τ.getPtr (treebinAt m i) = some (c.plug .nil).root ∧
          TreeAt τ i par (c.plug .nil) := ctxAt_plug.mpr ⟨hc', trivial⟩
      refine hQ τ (c.plug .nil) (hf.mono hslotz) (hmapc hm ?_) ⟨hr', par, hpar, ht'⟩
        (hw.plug_entries c) hw.plug
      intro j
      have hcp : c.plug .nil ≠ .nil ↔ c ≠ .hole := by
        constructor
        · rintro h rfl
          exact h rfl
        · intro h hc0
          have hmem := holeParent_cases par c
          rcases hmem with ⟨he, _⟩ | hmem
          · exact h he
          · have hin := mem_addrs_plug (t := .nil).mpr (Or.inl hmem)
            rw [hc0] at hin
            simp [Trie.addrs, Trie.entries] at hin
      rw [hcp]
      by_cases hj : j = i
      · subst hj
        simp [hTi, hne]
      · simp [hj]
    · intro τ b k ring' l' r' hw hf hd
      have hperm : (Trie.node x s ring l r).addrs.Perm
          (x :: (Trie.node b k ring' l' r').addrs) := hw.1.map Prod.fst
      have hbm : b ∈ (Trie.node x s ring l r).addrs := hperm.mem_iff.mpr
        (List.mem_cons_of_mem _ (mem_addrs_node.mpr (Or.inl (by simp))))
      have hbin := Nn.inside b hbm
      have Nb : TreeNodes m hi (x :: (Trie.node b k ring' l' r').addrs) :=
        Nn.sublist (hperm.nodup_iff.mp hdn) (fun y hy => hperm.mem_iff.mpr hy)
      have Aτ : Arena τ m lo hi := A.frame hf (fun y h1 h2 h3 => by
        have hh := hhigh hnm y h3
        omega)
      have hcτ : CtxAt τ i (treebinAt m i) par c x := by
        refine hc.frame hf (hctx (Nat.le_refl 64) (fun y hy => hy)) ?_
        intro y h1 h2 h3
        have hh := hhigh hnm y h3
        omega
      have hmapτ : MapAt τ (m + 4) (fun j => T j ≠ .nil) := hmap.frame hf (fun y h1 h2 h3 => by
        have hh := hhigh hnm y h3
        omega)
      rw [wp_if_pos hpne]
      simp only [wp_bind]
      refine wp_relinkParent Aτ hi32 Nc hxc (by omega) hd.node.idx hmapτ hcτ
        (fun _ => rfl) (Or.inr (by omega)) (by omega) ?_
      intro υ hfυ hm hcυ
      have hout : ∀ y, (m + 4 ≤ y ∧ y < m + 8 ∨
          slot (treebinAt m i) c ≤ y ∧ y < slot (treebinAt m i) c + 8) →
          ¬ Links 64 (Trie.node x s ring l r).addrs y := by
        rintro y (hy | hy) hlk
        · have hh := hhigh hnm y hlk
          omega
        · exact hslotn y hy hlk
      have hsubn : ∀ y ∈ x :: (Trie.node b k ring' l' r').addrs,
          y ∈ (Trie.node x s ring l r).addrs := fun y hy => hperm.mem_iff.mpr hy
      have hkeep : ∀ y ∈ x :: (Trie.node b k ring' l' r').addrs, ∀ z, y + 16 ≤ z → z < y + 64 →
          ¬ (m + 4 ≤ z ∧ z < m + 8 ∨
            slot (treebinAt m i) c ≤ z ∧ z < slot (treebinAt m i) c + 8) :=
        fun y hy z h1 h2 h3 => hout z h3 ⟨y, hsubn y hy, h1, h2⟩
      have hin' : ∀ y ∈ b :: ring', y ∈ x :: (Trie.node b k ring' l' r').addrs := fun y hy =>
        List.mem_cons_of_mem _ (mem_addrs_node.mpr (Or.inl hy))
      have hinl : ∀ y ∈ l'.addrs, y ∈ x :: (Trie.node b k ring' l' r').addrs := fun y hy =>
        List.mem_cons_of_mem _ (mem_addrs_node.mpr (Or.inr (Or.inl hy)))
      have hinr : ∀ y ∈ r'.addrs, y ∈ x :: (Trie.node b k ring' l' r').addrs := fun y hy =>
        List.mem_cons_of_mem _ (mem_addrs_node.mpr (Or.inr (Or.inr hy)))
      obtain ⟨pb, hbf⟩ := hd.fields
      have hdυ : Detached i (c.holeParent par) x b ring' l' r' υ := by
        refine ⟨hd.node.frame hfυ (fun z h1 h2 => hkeep x (by simp) z (by omega) h2),
          ⟨pb, hbf.frame hfυ (fun z h1 h2 => hkeep b (hin' b (by simp)) z (by omega) h2)⟩,
          ring_frame hd.linked hfυ ?_, ?_, hd.left.frame hfυ ?_, hd.right.frame hfυ ?_⟩
        · rintro z ⟨y, hy, h1, h2⟩
          exact hkeep y (hin' y hy) z h1 (by omega)
        · intro y hy
          exact (hd.member y hy).frame hfυ
            (fun z h1 h2 => hkeep y (hin' y (by simp [hy])) z (by omega) h2)
        · rintro z ⟨y, hy, h1, h2⟩
          exact hkeep y (hinl y hy) z h1 h2
        · rintro z ⟨y, hy, h1, h2⟩
          exact hkeep y (hinr y hy) z h1 h2
      have Aυ : Arena υ m lo hi := Aτ.frame hfυ (by
        rintro z h1 h2 (h3 | h3)
        · omega
        · rcases slot_cases (treebinAt m i) c with ⟨_, he⟩ | ⟨y, hy, he⟩
          · omega
          · have hyin := Nc.inside y hy
            omega)
      refine wp_relinkChildren Aυ Nb hdυ (by omega) ?_
      intro ω hfω hnode
      have hsubb : ∀ y ∈ (Trie.node b k ring' l' r').addrs, y ∈ (Trie.node x s ring l r).addrs :=
        fun y hy => hsubn y (List.mem_cons_of_mem _ hy)
      have hcω : CtxAt ω i (treebinAt m i) par c b := by
        refine hcυ.frame hfω (hctx (Nat.le_refl 64) hsubb) ?_
        intro y h1 h2 h3
        have hh := hhigh (fun z hz => hnm z (hsubb z hz)) y h3
        omega
      obtain ⟨hr', ht'⟩ := ctxAt_plug.mpr ⟨hcω, hnode⟩
      have hzn : ∀ z, Links 64 (Trie.node x s ring l r).addrs z →
          TreeZone m i (c.plug (.node x s ring l r)).addrs z :=
        fun z hz => Or.inr (Or.inr (links_mono hnm hz))
      refine hQ ω (c.plug (.node b k ring' l' r')) ?_ (hmapc (hm.frame hfω ?_) ?_)
        ⟨hr', par, hpar, ht'⟩ (hw.plug_entries c) hw.plug
      · exact ((hf.mono hzn).trans (hfυ.mono hslotz)).trans
          (hfω.mono (fun z hz => hzn z (links_mono hsubb hz)))
      · intro z h1 h2 h3
        have hh := hhigh (fun y hy => hnm y (hsubb y hy)) z h3
        omega
      · intro j
        have hb0 : b ≠ 0 := by omega
        have hcp : c.plug (.node b k ring' l' r') ≠ .nil := by
          intro hc0
          have hin := mem_addrs_plug (c := c).mpr (Or.inr
            (mem_addrs_node.mpr (Or.inl (by simp)) : b ∈ (Trie.node b k ring' l' r').addrs))
          rw [hc0] at hin
          simp [Trie.addrs, Trie.entries] at hin
        by_cases hj : j = i
        · subst hj
          simp [hTi, hne, hb0, hcp]
        · simp [hj]
  · obtain ⟨l₁, l₂, rfl⟩ := List.append_of_mem hxr
    rw [wp_loadPtr (show σ.getPtr (x + 48) = _ from (hn.member x (by simp)).parent)]
    have hsub : ∀ y ∈ a :: (l₁ ++ x :: l₂), y ∈ (Trie.node a s (l₁ ++ x :: l₂) l r).addrs :=
      fun y hy => mem_addrs_node.mpr (Or.inl hy)
    obtain ⟨hd1, _, _, hd4, hd5, _⟩ := node_disjoint hdn
    refine wp_detachMember A (Nn.sublist hd1 hsub) hn ?_
    intro τ hf hnode
    rw [wp_if_neg (by simp), wp_pure]
    have h64 : ∀ z, Links 32 (a :: (l₁ ++ x :: l₂)) z →
        Links 64 (Trie.node a s (l₁ ++ x :: l₂) l r).addrs z := by
      rintro z ⟨y, hy, h1, h2⟩
      exact ⟨y, hsub y hy, h1, by omega⟩
    have hsubtree : ∀ u : Trie, (∀ y ∈ u.addrs, y ∈ (Trie.node a s (l₁ ++ x :: l₂) l r).addrs) →
        (∀ y ∈ a :: (l₁ ++ x :: l₂), y ∉ u.addrs) →
        ∀ z, Links 64 u.addrs z → ¬ Links 32 (a :: (l₁ ++ x :: l₂)) z := by
      rintro u hu hd z hz ⟨y, hy, h1, h2⟩
      exact Nn.links_disjoint hsub hu hd ⟨y, hy, h1, by omega⟩ hz
    have hcτ : CtxAt τ i (treebinAt m i) par c a := by
      refine hc.frame hf (hctx (by omega) hsub) ?_
      intro z h1 h2 h3
      have hh := hhigh hnm z (h64 z h3)
      omega
    have hw : Without (sizeBit i) x s (.node a s (l₁ ++ x :: l₂) l r)
        (.node a s (l₁ ++ l₂) l r) := without_member
    obtain ⟨hr', ht'⟩ : τ.getPtr (treebinAt m i) =
        some (c.plug (.node a s (l₁ ++ l₂) l r)).root ∧
        TreeAt τ i par (c.plug (.node a s (l₁ ++ l₂) l r)) := ctxAt_plug.mpr ⟨hcτ, hnode,
      hl.frame hf (hsubtree l (fun y hy => mem_addrs_node.mpr (Or.inr (Or.inl hy))) hd4),
      hr.frame hf (hsubtree r (fun y hy => mem_addrs_node.mpr (Or.inr (Or.inr hy))) hd5)⟩
    refine hQ τ (c.plug (.node a s (l₁ ++ l₂) l r)) ?_ (hmapc (hmap.frame hf ?_) ?_)
      ⟨hr', par, hpar, ht'⟩ (hw.plug_entries c) hw.plug
    · exact hf.mono (fun z hz => Or.inr (Or.inr (links_mono hnm (h64 z hz))))
    · intro z h1 h2 h3
      have hh := hhigh hnm z (h64 z h3)
      omega
    · intro j
      have hcp : c.plug (.node a s (l₁ ++ l₂) l r) ≠ .nil := by
        intro hc0
        have hin := mem_addrs_plug (c := c).mpr (Or.inr
          (mem_addrs_node.mpr (Or.inl (by simp)) : a ∈ (Trie.node a s (l₁ ++ l₂) l r).addrs))
        rw [hc0] at hin
        simp [Trie.addrs, Trie.entries] at hin
      by_cases hj : j = i
      · subst hj
        simp [hTi, hne, hcp]
      · simp [hj]

end

end Mmdata.Proofs
