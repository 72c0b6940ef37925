import Mmdata.Proofs.Carve
import Mmdata.Proofs.TreeIndex

namespace Mmdata.Proofs
open Lib Malloc

/-- `t` is a subtree of some bin. -/
structure Sub (σ : State) (m hi : Nat) (h : Heap) (t : Trie) : Prop where
  links : ∃ i par, TreeAt σ i par t
  nodes : TreeNodes m hi t.addrs
  binned : ∀ e ∈ t.entries, h.inBins e.1 e.2 ∧ 256 ≤ e.2

/-- The chunk and the remainder that the code keeps for the best item so far. -/
def pairOf (nb : Nat) : Option (Nat × Nat) → Nat × Nat
  | none => (0, 2 ^ 64 - nb)
  | some (a, s) => (a, s - nb)

/-- What was found is a tree chunk that fits. -/
def Picked (h : Heap) (nb : Nat) (best : Option (Nat × Nat)) : Prop :=
  ∀ e ∈ best, h.inBins e.1 e.2 ∧ nb ≤ e.2 ∧ 256 ≤ e.2

/-- No tree chunk is so large that its index is cut. -/
def Heap.AllUncut (h : Heap) : Prop := ∀ a s, h.inBins a s → s < 2 ^ 40

/-- The tree search for `nb` bytes ends with `best`: something if a chunk fits and
neither size is cut, and the least that fits if no size can be. -/
structure Searched (h : Heap) (nb : Nat) (best : Option (Nat × Nat)) : Prop where
  picked : Picked h nb best
  found : Uncut nb → ∀ a s, h.inBins a s → 256 ≤ s → Uncut s → nb ≤ s → best ≠ none
  least : h.AllUncut → ∀ a s, h.inBins a s → 256 ≤ s → nb ≤ s → AtMost best s

/-- `t` is the tree of the first bin in use above `i`, or nil if there is none. -/
def NextTree (h : Heap) (i : Nat) (t : Trie) : Prop :=
  t = .nil ∧ (∀ j, i < j → j < 32 → h.bins.tree j = .nil) ∨
  t ≠ .nil ∧ ∃ j, i < j ∧ j < 32 ∧ t = h.bins.tree j ∧
    ∀ k, i < k → k < j → h.bins.tree k = .nil

/-- The tree that the search for `nb` bytes starts in. -/
def Heap.ownTree (h : Heap) (nb : Nat) : Trie := h.bins.tree (computeTreeIndex nb)

/-- Where the descent in that tree stops, and the best chunk on the way. -/
def Heap.descent (h : Heap) (nb : Nat) : Trie × Option (Nat × Nat) :=
  (h.ownTree nb).descend (sizeBit (computeTreeIndex nb)) nb 0 none .nil

/-- The deepest right subtree beside the way of the bits of `nb` in that tree. -/
def Heap.besideTree (h : Heap) (nb : Nat) : Trie :=
  (h.ownTree nb).beside (sizeBit (computeTreeIndex nb)) nb 0 .nil

/-- The chunk `a` of `s` bytes lies on the path that the search for `nb` bytes takes: on the
way of the bits of `nb`, then on the leftmost path of the tree beside it, or of the next tree
if there is none beside it. -/
inductive Heap.OnPath (h : Heap) (nb a s : Nat) : Prop
  | own : (a, s) ∈ (h.ownTree nb).route (sizeBit (computeTreeIndex nb)) nb 0 → h.OnPath nb a s
  | beside : (a, s) ∈ (h.besideTree nb).leftPath → h.OnPath nb a s
  | next {t : Trie} : h.besideTree nb = .nil → NextTree h (computeTreeIndex nb) t →
    (a, s) ∈ t.leftPath → h.OnPath nb a s

section

variable {D : Trap → Prop} {σ : State} {m lo hi i j a nb s r : Nat} {h : Heap} {t u rst : Trie}
  {ring : List Nat} {l : Trie} {best : Option (Nat × Nat)}

theorem subSize_le {a b : Nat} (h : b ≤ a) (ha : a < 2 ^ 64) : subSize a b = a - b := by
  simp only [subSize]
  omega

theorem subSize_gt {a b : Nat} (h : a < b) (hb : b ≤ 2 ^ 64) :
    subSize a b = 2 ^ 64 + a - b := by
  simp only [subSize]
  omega

theorem Sub.nil : Sub σ m hi h .nil :=
  ⟨⟨0, 0, trivial⟩, ⟨by simp [Trie.addrs, Trie.entries], by simp [Trie.addrs, Trie.entries],
    by simp [Trie.addrs, Trie.entries]⟩, by simp [Trie.entries]⟩

theorem Sub.root (S : Sub σ m hi h (.node a s ring l u)) : h.inBins a s ∧ 256 ≤ s :=
  S.binned (a, s) (mem_node_entries.mpr (Or.inl ⟨by simp, rfl⟩))

theorem Sub.children (S : Sub σ m hi h (.node a s ring l u)) : Sub σ m hi h l ∧ Sub σ m hi h u := by
  obtain ⟨⟨i, par, hT⟩, N, he⟩ := S
  obtain ⟨_, hl, hu⟩ := hT
  obtain ⟨_, hd2, hd3, _, _, _⟩ := node_disjoint N.nodup
  have Nl := N.sublist hd2 (fun y hy => mem_addrs_node.mpr (Or.inr (Or.inl hy)))
  have Nu := N.sublist hd3 (fun y hy => mem_addrs_node.mpr (Or.inr (Or.inr hy)))
  constructor
  · exact ⟨⟨i, a, hl⟩, Nl, fun e h => he e (mem_node_entries.mpr (Or.inr (Or.inl h)))⟩
  · exact ⟨⟨i, a, hu⟩, Nu, fun e h => he e (mem_node_entries.mpr (Or.inr (Or.inr h)))⟩

theorem Sub.fields (S : Sub σ m hi h (.node a s ring l u)) :
    σ.getPtr (a + 32) = some l.root ∧ σ.getPtr (a + 40) = some u.root := by
  obtain ⟨i, par, hn, _⟩ := S.links
  exact ⟨hn.fields.left, hn.fields.right⟩

theorem Sub.root_ne_zero (S : Sub σ m hi h t) (ht : t ≠ .nil) : t.root ≠ 0 :=
  Proofs.root_ne_zero S.nodes ht

theorem Ok.node_head (O : Ok σ m lo hi h) (hr : h.inBins r s) :
    σ.get 8 (r + 8) = some (headWord s true false) ∧ s % 8 = 0 := by
  have S := O.core.spread inBins_free
  exact ⟨S.head r s hr, (S.align r s hr).2⟩

theorem Ok.binned_lt (O : Ok σ m lo hi h) (hr : h.inBins r s) : s < 2 ^ 64 := by
  have hb := O.core.chunk_bounds hr.1
  have hword := O.core.arena.word
  simp only at hb
  omega

/-- One comparison of the code is one step of the search. -/
theorem pairOf_take (O : Ok σ m lo hi h) (hnb : 0 < nb) (hnb' : nb < 2 ^ 64)
    (hP : Picked h nb best) (ha : h.inBins a s) :
    pairOf nb (take nb best (a, s)) =
      if subSize s nb < (pairOf nb best).2 then (a, subSize s nb) else pairOf nb best := by
  have hs := O.binned_lt ha
  have hcond : subSize s nb < (pairOf nb best).2 ↔ nb ≤ s ∧ ∀ b ∈ best, s < b.2 := by
    cases best with
    | none =>
      simp only [pairOf, Option.not_mem_none, false_implies, implies_true, and_true]
      simp only [subSize]
      omega
    | some e =>
      obtain ⟨b, k⟩ := e
      have hk := O.binned_lt (hP (b, k) rfl).1
      have hle := (hP (b, k) rfl).2.1
      simp only [pairOf, Option.mem_def, Option.some.injEq, forall_eq']
      simp only at hk hle
      simp only [subSize]
      omega
  unfold take
  by_cases hc : nb ≤ s ∧ ∀ b ∈ best, s < b.2
  · rw [if_pos hc, if_pos (hcond.mpr hc), subSize_le hc.1 hs]
    rfl
  · rw [if_neg hc, if_neg (fun hn => hc (hcond.mp hn))]

theorem Picked.take (hP : Picked h nb best) (ha : h.inBins a s) (hs : 256 ≤ s) :
    Picked h nb (take nb best (a, s)) := by
  intro e he
  cases take_mem he with
  | inl hc =>
    obtain ⟨rfl, hle⟩ := hc
    exact ⟨ha, hle, hs⟩
  | inr hc => exact hP e hc

theorem Picked.none : Picked h nb none := by simp [Picked]

/-- Two children are two chunks. -/
theorem Sub.roots_ne (S : Sub σ m hi h (.node a s ring l u)) (hu : u ≠ .nil) : u.root ≠ l.root := by
  obtain ⟨Sl, Su⟩ := S.children
  by_cases hl : l = .nil
  · rw [hl]
    exact Su.root_ne_zero hu
  · intro heq
    obtain ⟨k, hk⟩ := root_mem hl
    obtain ⟨k', hk'⟩ := root_mem hu
    obtain ⟨_, _, _, _, _, hd⟩ := node_disjoint S.nodes.nodup
    have h1 : l.root ∈ l.addrs := List.mem_map.mpr ⟨_, hk, rfl⟩
    have h2 : u.root ∈ u.addrs := List.mem_map.mpr ⟨_, hk', rfl⟩
    exact hd _ h1 (heq ▸ h2)

/-- The child that a leftmost path goes to. -/
theorem wp_leftmostChild {Q : Nat → State → Prop} (S : Sub σ m hi h (.node a s ring l u))
    (hl : l ≠ .nil → Q l.root σ) (hu : l = .nil → Q u.root σ) :
    wp D (leftmostChild a) Q σ := by
  obtain ⟨hleft, hright⟩ := S.fields
  unfold leftmostChild
  simp only [wp_bind, child]
  rw [wp_loadPtr (show σ.getPtr (a + 32 + 8 * 0) = _ from hleft)]
  by_cases h0 : l = .nil
  · rw [wp_if_neg (by simp [h0, Trie.root])]
    rw [wp_loadPtr (show σ.getPtr (a + 32 + 8 * 1) = _ from hright)]
    exact hu h0
  · rw [wp_if_pos (S.children.1.root_ne_zero h0), wp_pure]
    exact hl h0

/-- The loop along a leftmost path, as the search in the tree says. -/
theorem wp_leftmostWalk {fuel : Nat} {Q : Nat × Nat → State → Prop} (O : Ok σ m lo hi h)
    (hnb : 0 < nb) (hnb' : nb < 2 ^ 64) (S : Sub σ m hi h t) (hfuel : t.height < fuel)
    (hP : Picked h nb best) (hQ : Q (pairOf nb (t.leftmost nb best)) σ) :
    wp D (leftmostWalk nb fuel t.root (pairOf nb best).1 (pairOf nb best).2) Q σ := by
  induction fuel generalizing t best with
  | zero => omega
  | succ fuel ih =>
    cases t with
    | nil =>
      show wp D (leftmostWalk nb (fuel + 1) 0 _ _) Q σ
      rw [leftmostWalk, if_pos rfl]
      exact hQ
    | node a k ring l u =>
      obtain ⟨ha, hk⟩ := S.root
      obtain ⟨Sl, Su⟩ := S.children
      have hne : (Trie.node a k ring l u).root ≠ 0 := S.root_ne_zero (by simp)
      simp only [Trie.root] at hne
      obtain ⟨hhead, hk8⟩ := O.node_head ha
      simp only [Trie.height] at hfuel
      show wp D (leftmostWalk nb (fuel + 1) a _ _) Q σ
      rw [leftmostWalk, wp_if_neg hne]
      simp only [wp_bind]
      rw [wp_chunksize hhead hk8]
      have htake := pairOf_take O hnb hnb' hP ha
      have hstep : ∀ c : Trie, Sub σ m hi h c → c.height < fuel →
          Q (pairOf nb (c.leftmost nb (take nb best (a, k)))) σ →
          wp D (if subSize k nb < (pairOf nb best).2 then leftmostWalk nb fuel c.root a (subSize k nb)
            else leftmostWalk nb fuel c.root (pairOf nb best).1 (pairOf nb best).2) Q σ := by
        intro c Sc hc hQc
        have hrec := ih Sc hc (hP.take ha hk) hQc
        rw [htake] at hrec
        by_cases hlt : subSize k nb < (pairOf nb best).2
        · rw [if_pos hlt] at hrec
          rw [wp_if_pos hlt]
          exact hrec
        · rw [if_neg hlt] at hrec
          rw [wp_if_neg hlt]
          exact hrec
      apply wp_leftmostChild S
      · intro hl
        apply hstep l Sl (by omega)
        cases l with
        | nil => contradiction
        | node => exact hQ
      · intro hl
        apply hstep u Su (by omega)
        subst hl
        exact hQ

/-- Nothing that was passed on the way down has the key `nb`, for the descent
stops there. -/
def Unequal (nb : Nat) (best : Option (Nat × Nat)) : Prop := ∀ e ∈ best, e.2 ≠ nb

theorem Unequal.take (hU : Unequal nb best) (hs : s ≠ nb) : Unequal nb (take nb best (a, s)) := by
  intro e he
  cases take_mem he with
  | inl hc =>
    obtain ⟨rfl, _⟩ := hc
    exact hs
  | inr hc => exact hU e hc

theorem pairOf_pos (hP : Picked h nb best) (hU : Unequal nb best) (hnb' : nb < 2 ^ 64) :
    0 < (pairOf nb best).2 := by
  cases best with
  | none =>
    simp only [pairOf]
    omega
  | some e =>
    have hle := (hP e rfl).2.1
    have hne := hU e rfl
    simp only [pairOf]
    omega

/-- The first loop of `tmalloc_large`, as the descent in the tree says. -/
theorem wp_tmallocDescend {fuel d : Nat} {Q : Nat × Nat × Nat → State → Prop}
    (O : Ok σ m lo hi h) (hnb : 0 < nb) (hnb' : nb < 2 ^ 64) (hne : t ≠ .nil)
    (S : Sub σ m hi h t) (hfuel : t.height ≤ fuel) (hP : Picked h nb best)
    (hU : Unequal nb best) (Sr : Sub σ m hi h rst)
    (hQ : Q ((t.descend (sizeBit i) nb d best rst).1.root,
      pairOf nb (t.descend (sizeBit i) nb d best rst).2) σ) :
    wp D (tmallocDescend nb fuel t.root (pairOf nb best).1 (pairOf nb best).2
      (shlSize nb (leftshiftForTreeIndex i + d)) rst.root) Q σ := by
  induction fuel generalizing t best d rst with
  | zero =>
    have hpos := height_pos hne
    omega
  | succ fuel ih =>
    cases t with
    | nil => contradiction
    | node a s ring l u =>
      obtain ⟨ha, hs⟩ := S.root
      obtain ⟨Sl, Su⟩ := S.children
      obtain ⟨hleft, hright⟩ := S.fields
      obtain ⟨hhead, hs8⟩ := O.node_head ha
      have hs64 := O.binned_lt ha
      have hpos := pairOf_pos hP hU hnb'
      have htake := pairOf_take O hnb hnb' hP ha
      simp only [Trie.height] at hfuel
      simp only [tmallocDescend, Trie.root, wp_bind]
      rw [wp_chunksize hhead hs8]
      unfold Trie.descend at hQ
      by_cases hsn : s = nb
      · rw [if_pos hsn] at hQ
        have h0 : subSize s nb = 0 := by rw [subSize_le (by omega) hs64, hsn, Nat.sub_self]
        rw [wp_if_pos ⟨by omega, h0⟩, wp_pure]
        simpa [pairOf, Trie.root, hsn] using hQ
      · rw [if_neg hsn] at hQ
        have h0 : subSize s nb ≠ 0 := by
          simp only [subSize]
          omega
        rw [wp_if_neg (fun hc => h0 hc.2)]
        simp only [wp_bind, child]
        rw [wp_loadPtr (show σ.getPtr (a + 32 + 8 * 1) = _ from hright)]
        have hfst : (if subSize s nb < (pairOf nb best).2 then a else (pairOf nb best).1) =
            (pairOf nb (take nb best (a, s))).1 := by
          rw [htake]
          split <;> rfl
        have hsnd : (if subSize s nb < (pairOf nb best).2 then subSize s nb
            else (pairOf nb best).2) = (pairOf nb (take nb best (a, s))).2 := by
          rw [htake]
          split <;> rfl
        rw [hfst, hsnd, shlSize_succ, top_bit]
        have hstep : ∀ c rst' : Trie, Sub σ m hi h c → c.height ≤ fuel → Sub σ m hi h rst' →
            Q ((c.descend (sizeBit i) nb (d + 1) (take nb best (a, s)) rst').1.root,
              pairOf nb (c.descend (sizeBit i) nb (d + 1) (take nb best (a, s)) rst').2) σ →
            wp D (if c.root = 0 then pure (rst'.root, (pairOf nb (take nb best (a, s))).1,
                (pairOf nb (take nb best (a, s))).2)
              else tmallocDescend nb fuel c.root (pairOf nb (take nb best (a, s))).1
                (pairOf nb (take nb best (a, s))).2 (shlSize nb (leftshiftForTreeIndex i + d + 1))
                rst'.root) Q σ := by
          intro c rst' Sc hc Srst hQc
          by_cases hc0 : c = .nil
          · subst hc0
            rw [wp_if_pos (by simp [Trie.root]), wp_pure]
            exact hQc
          · rw [wp_if_neg (Sc.root_ne_zero hc0)]
            exact ih hc0 Sc hc (hP.take ha hs) (hU.take hsn) Srst hQc
        cases hbit : sizeBit i nb d with
        | true =>
          rw [hbit, if_pos rfl] at hQ
          have hb : (shlSize nb (leftshiftForTreeIndex i + d)).testBit 63 = true := hbit
          rw [hb, wp_loadPtr (show σ.getPtr (a + 32 + 8 * true.toNat) = _ from hright)]
          rw [if_neg (fun hc : u.root ≠ 0 ∧ u.root ≠ u.root => hc.2 rfl)]
          exact hstep u rst Su (by omega) Sr hQ
        | false =>
          rw [hbit, if_neg (by simp)] at hQ
          have hb : (shlSize nb (leftshiftForTreeIndex i + d)).testBit 63 = false := hbit
          rw [hb, wp_loadPtr (show σ.getPtr (a + 32 + 8 * false.toNat) = _ from hleft)]
          cases u with
          | nil =>
            rw [if_neg (fun hc : Trie.nil.root ≠ 0 ∧ _ => hc.1 rfl)]
            exact hstep l rst Sl (by omega) Sr hQ
          | node b k ring' l' r' =>
            have hroots : (Trie.node b k ring' l' r').root ≠ 0 ∧
                (Trie.node b k ring' l' r').root ≠ l.root :=
              ⟨Su.root_ne_zero (by simp), S.roots_ne (by simp)⟩
            rw [if_pos hroots]
            exact hstep l (.node b k ring' l' r') Sl (by omega) Su hQ

/-- The tree of a bin, as a tree to search. -/
theorem Ok.bin_sub (O : Ok σ m lo hi h) (hi32 : i < 32) :
    σ.getPtr (treebinAt m i) = some (h.bins.tree i).root ∧ Sub σ m hi h (h.bins.tree i) := by
  obtain ⟨hroot, par, _, hT⟩ := O.core.binned.treeBin i hi32
  have N := O.core.binned.treeNodes (O.core.spread inBins_free) hi32
  refine ⟨hroot, ⟨i, par, hT⟩, N, ?_⟩
  intro e he
  obtain ⟨h1, h2, _⟩ := (O.core.binned.treeMem i hi32 e.1 e.2).mp he
  exact ⟨h1, h2⟩

/-- The height of any subtree leaves fuel for one more step. -/
theorem Ok.height_lt_fuel (O : Ok σ m lo hi h) (S : Sub σ m hi h t) : t.height < loopFuel := by
  have hh := height_le_entries t
  have hl := addrs_length_lt O.core.arena.word S.nodes
  simp only [Trie.addrs, List.length_map] at hl
  simp only [loopFuel]
  omega

theorem Ok.tree_size (O : Ok σ m lo hi h) (hi32 : i < 32) {e : Nat × Nat}
    (he : e ∈ (h.bins.tree i).entries) : 256 ≤ e.2 ∧ computeTreeIndex e.2 = i :=
  ((O.core.binned.treeMem i hi32 e.1 e.2).mp he).2

theorem Ok.tree_lt (O : Ok σ m lo hi h) (hi32 : i < 32) {e : Nat × Nat}
    (he : e ∈ (h.bins.tree i).entries) : e.2 < 2 ^ 64 :=
  O.binned_lt ((O.core.binned.treeMem i hi32 e.1 e.2).mp he).1

/-- The chunks in a tree above that of the request all fit. -/
theorem Ok.later_fits (O : Ok σ m lo hi h) (hnb : OfTree i nb) (hij : i < j) (hj : j < 32) :
    ∀ e ∈ (h.bins.tree j).entries, nb ≤ e.2 := by
  intro e he
  obtain ⟨h256, hidx⟩ := O.tree_size hj he
  by_cases hu : Uncut e.2
  · exact Nat.le_of_lt (hnb.lt ⟨h256, O.tree_lt hj he, hu, hidx⟩ hij)
  · have hcut := uncut_iff.mp hnb.2.2.1
    have hidx' := hnb.2.2.2
    rw [uncut_iff] at hu
    omega

/-- To the right of the request's own bits everything fits. -/
theorem Ok.right_fits (O : Ok σ m lo hi h) (hnb : OfTree i nb) {f : Nat × Nat}
    (hf : f ∈ (h.bins.tree i).entries) {d : Nat}
    (hd : ∀ j < d, sizeBit i f.2 j = sizeBit i nb j) (h0 : sizeBit i nb d = false)
    (h1 : sizeBit i f.2 d = true) : nb ≤ f.2 := by
  have hi32 : i < 32 := hnb.2.2.2 ▸ computeTreeIndex_lt nb
  obtain ⟨h256, hidx⟩ := O.tree_size hi32 hf
  have hf64 := O.tree_lt hi32 hf
  by_cases hu : Uncut f.2
  · have hlt := ofTree_bitOrder i nb f.2 d hnb ⟨h256, hf64, hu, hidx⟩
      (fun j hj => (hd j hj).symm) h0 h1
    exact Nat.le_of_lt hlt
  · have hcut := uncut_iff.mp hnb.2.2.1
    have hidx' := hnb.2.2.2
    rw [uncut_iff] at hu
    omega

end

section

variable {D : Trap → Prop} {σ : State} {m lo hi i nb : Nat} {h : Heap} {t u : Trie}
  {best : Option (Nat × Nat)}

theorem descent_entries : ∀ e ∈ (h.descent nb).1.entries, e ∈ (h.ownTree nb).entries := by
  apply descend_sub (P := fun v => ∀ e ∈ v.entries, e ∈ (h.ownTree nb).entries)
  · intro a s ring l r hv
    exact ⟨fun e he => hv e (mem_node_entries.mpr (Or.inr (Or.inl he))),
      fun e he => hv e (mem_node_entries.mpr (Or.inr (Or.inr he)))⟩
  · exact fun e he => he
  · simp [Trie.entries]

theorem descent_mem {e : Nat × Nat} (he : e ∈ (h.descent nb).2) :
    e ∈ (h.ownTree nb).entries ∧ nb ≤ e.2 := by
  cases descend_mem he with
  | inl hc => exact hc
  | inr hc => contradiction

theorem below_zero {bit : Nat → Nat → Bool} : t.Below bit nb 0 :=
  fun _ _ j hj => absurd hj (Nat.not_lt_zero j)

theorem agree_zero {bit : Nat → Nat → Bool} : t.Agree bit 0 :=
  fun _ _ _ _ j hj => absurd hj (Nat.not_lt_zero j)

/-- The descent in the tree of the request, and the leftmost path from where it
stops or in the next tree, search all the trees. -/
theorem Ok.searched (O : Ok σ m lo hi h) (hnb : 256 ≤ nb) (hd : h.descent nb = (u, best))
    (hsame : ¬ (u = .nil ∧ best = none) → t = u)
    (hnext : u = .nil ∧ best = none → NextTree h (computeTreeIndex nb) t) :
    Searched h nb (t.leftmost nb best) := by
  have hu : ∀ e ∈ u.entries, e ∈ (h.ownTree nb).entries := by
    intro e he
    exact descent_entries e (by rw [hd]; exact he)
  have hbest : ∀ e ∈ best, e ∈ (h.ownTree nb).entries ∧ nb ≤ e.2 :=
    fun e he => descent_mem (by rw [hd]; exact he)
  unfold Heap.descent at hd
  unfold Heap.ownTree at hd hu hbest
  generalize hi' : computeTreeIndex nb = i at *
  have hi32 : i < 32 := hi' ▸ computeTreeIndex_lt nb
  have hord := O.core.binned.ordered i hi32
  have hin : ∀ j, j < 32 → ∀ e ∈ (h.bins.tree j).entries, h.inBins e.1 e.2 ∧ 256 ≤ e.2 := by
    intro j hj e he
    obtain ⟨h1, h2, _⟩ := (O.core.binned.treeMem j hj e.1 e.2).mp he
    exact ⟨h1, h2⟩
  -- a request whose size is not cut finds something in a later tree
  have hlater : OfTree i nb → ∀ j, i < j → j < 32 → h.bins.tree j ≠ .nil →
      t.leftmost nb best ≠ none := by
    intro hK j hij hj hne
    by_cases hboth : u = .nil ∧ best = none
    · rcases hnext hboth with ⟨_, hall⟩ | ⟨htn, k, hik, hk, rfl, _⟩
      · exact absurd (hall j hij hj) hne
      · exact leftmost_of_fit htn (O.later_fits hK hik hk)
    · rw [hsame hboth]
      by_cases hb : best = none
      · have hun : u ≠ .nil := fun hc => hboth ⟨hc, hb⟩
        apply leftmost_of_fit hun
        intro e he
        exact descend_fits hord below_zero (fun f hf _ => O.right_fits hK hf)
          (by simp [Trie.entries]) ((congrArg Prod.snd hd).trans hb) e (by rw [hd]; exact he)
      · exact leftmost_ne_none hb
  refine ⟨?_, ?_, ?_⟩
  · intro e he
    cases leftmost_mem he with
    | inr hc =>
      obtain ⟨h1, h2⟩ := hbest e hc
      obtain ⟨h3, h4⟩ := hin i hi32 e h1
      exact ⟨h3, h2, h4⟩
    | inl hc =>
      obtain ⟨h1, h2⟩ := hc
      by_cases hboth : u = .nil ∧ best = none
      · rcases hnext hboth with ⟨rfl, _⟩ | ⟨_, k, _, hk, rfl, _⟩
        · simp [Trie.entries] at h1
        · obtain ⟨h3, h4⟩ := hin k hk e h1
          exact ⟨h3, h2, h4⟩
      · rw [hsame hboth] at h1
        obtain ⟨h3, h4⟩ := hin i hi32 e (hu e h1)
        exact ⟨h3, h2, h4⟩
  · intro hnbcut a s ha h256 hcut hfit
    have hs64 := O.binned_lt ha
    have hnbK : OfTree i nb := ⟨hnb, by omega, hnbcut, hi'⟩
    have hsK : OfTree (computeTreeIndex s) s := ⟨h256, hs64, hcut, rfl⟩
    have hj := computeTreeIndex_lt s
    have hmem := (O.core.binned.treeMem _ hj a s).mpr ⟨ha, h256, rfl⟩
    generalize computeTreeIndex s = j at *
    rcases Nat.lt_trichotomy j i with hlt | heq | hgt
    · have hc := hsK.lt hnbK hlt
      omega
    · subst heq
      have hsome : ((h.bins.tree j).descend (sizeBit j) nb 0 none .nil).1.leftmost nb
          ((h.bins.tree j).descend (sizeBit j) nb 0 none .nil).2 ≠ none :=
        descend_some (e := (a, s)) hord below_zero (fun f hf _ => O.right_fits hnbK hf)
          (fun d hd => ofTree_bitOrder j s nb d hsK hnbK hd) hfit (by simp [Trie.entries])
          (Or.inl hmem)
      rw [hd] at hsome
      rwa [hsame (fun hc => hsome (by rw [hc.1, hc.2]; rfl))]
    · apply hlater hnbK j hgt hj
      intro hc
      rw [hc] at hmem
      simp [Trie.entries] at hmem
  · intro hall a s ha h256 hfit
    have hs40 := hall a s ha
    have hnbK : OfTree i nb := ⟨hnb, by omega, uncut_of_lt (by omega), hi'⟩
    have hsK : OfTree (computeTreeIndex s) s := ⟨h256, by omega, uncut_of_lt hs40, rfl⟩
    have hj := computeTreeIndex_lt s
    have hmem := (O.core.binned.treeMem _ hj a s).mpr ⟨ha, h256, rfl⟩
    have hof : ∀ k, k < 32 → ∀ e ∈ (h.bins.tree k).entries, OfTree k e.2 := by
      intro k hk e he
      obtain ⟨h1, h2⟩ := O.tree_size hk he
      have he40 := hall e.1 e.2 (hin k hk e he).1
      exact ⟨h1, by omega, uncut_of_lt he40, h2⟩
    generalize computeTreeIndex s = j at *
    rcases Nat.lt_trichotomy j i with hlt | heq | hgt
    · have hc := hsK.lt hnbK hlt
      omega
    · subst heq
      have hleast : AtMost (((h.bins.tree j).descend (sizeBit j) nb 0 none .nil).1.leftmost nb
          ((h.bins.tree j).descend (sizeBit j) nb 0 none .nil).2) s :=
        descend_least (e := (a, s)) (ofTree_bitOrder j) hnbK (hof j hi32) hord below_zero
          Trie.Fits.nil (by simp [Trie.entries]) (Or.inl ⟨hmem, hfit⟩)
      rw [hd] at hleast
      rwa [hsame (fun hc => hleast.ne_none (by rw [hc.1, hc.2]; rfl))]
    · have hjne : h.bins.tree j ≠ .nil := by
        intro hc
        rw [hc] at hmem
        simp [Trie.entries] at hmem
      by_cases hboth : u = .nil ∧ best = none
      · rcases hnext hboth with ⟨_, hnil⟩ | ⟨htn, k, hik, hk, rfl, hfirst⟩
        · exact absurd (hnil j hgt hj) hjne
        · have hleast : ∀ e ∈ (h.bins.tree k).entries,
              AtMost ((h.bins.tree k).leftmost nb best) e.2 := fun e he =>
            leftmost_least (ofTree_bitOrder k) (hof k hk) (O.core.binned.ordered k hk)
              agree_zero (O.later_fits hnbK hik hk) he
          rcases Nat.lt_trichotomy k j with hkj | hkj | hkj
          · obtain ⟨k', hk'⟩ := root_mem htn
            exact (hleast _ hk').le (Nat.le_of_lt ((hof k hk _ hk').lt hsK hkj))
          · subst hkj
            exact hleast (a, s) hmem
          · exact absurd (hfirst j hgt hkj) hjne
      · -- what was found in the tree of the request is below the chunk
        obtain ⟨b, hb⟩ := Option.ne_none_iff_exists'.mp (hlater hnbK j hgt hj hjne)
        have hbi : b ∈ (h.bins.tree i).entries := by
          rw [hsame hboth] at hb
          cases leftmost_mem hb with
          | inl hc => exact hu b hc.1
          | inr hc => exact (hbest b hc).1
        exact ⟨b, hb, Nat.le_of_lt ((hof i hi32 b hbi).lt hsK hgt)⟩

theorem Ok.onPath_binned {a s : Nat} (O : Ok σ m lo hi h) (hp : h.OnPath nb a s) :
    h.inBins a s := by
  have htree : ∀ i < 32, (a, s) ∈ (h.bins.tree i).entries → h.inBins a s := by
    intro i hi32 he
    exact ((O.core.binned.treeMem i hi32 a s).mp he).1
  have hi32 := computeTreeIndex_lt nb
  cases hp with
  | own he => exact htree _ hi32 (route_entries he)
  | beside he =>
    rcases beside_entries (leftPath_entries he) with he | he
    · exact htree _ hi32 he
    · simp [Trie.entries] at he
  | next _ hnext he =>
    rcases hnext with ⟨rfl, _⟩ | ⟨_, j, _, hj, rfl, _⟩
    · contradiction
    · exact htree j hj (leftPath_entries he)

theorem NextTree.unique (ht : NextTree h i t) (hu : NextTree h i u) : t = u := by
  rcases ht with ⟨rfl, hnone⟩ | ⟨htn, j, hij, hj, rfl, hfirst⟩
  · rcases hu with ⟨rfl, _⟩ | ⟨hun, k, hik, hk, rfl, _⟩
    · rfl
    · exact absurd (hnone k hik hk) hun
  · rcases hu with ⟨_, hnone⟩ | ⟨hun, k, hik, hk, rfl, hfirst'⟩
    · exact absurd (hnone j hij hj) htn
    · rcases Nat.lt_trichotomy j k with hlt | rfl | hgt
      · exact absurd (hfirst' j hij hlt) htn
      · rfl
      · exact absurd (hfirst k hik hgt) hun

/-- The search finds something exactly if a chunk on its path fits. -/
theorem searched_path (hd : h.descent nb = (u, best))
    (hsame : ¬ (u = .nil ∧ best = none) → t = u)
    (hnext : u = .nil ∧ best = none → NextTree h (computeTreeIndex nb) t) :
    t.leftmost nb best ≠ none ↔ ∃ a s, h.OnPath nb a s ∧ nb ≤ s := by
  have hown : best ≠ none ↔
      ∃ e ∈ (h.ownTree nb).route (sizeBit (computeTreeIndex nb)) nb 0, nb ≤ e.2 := by
    have hiff : (h.descent nb).2 ≠ none ↔ (none : Option (Nat × Nat)) ≠ none ∨
        ∃ e ∈ (h.ownTree nb).route (sizeBit (computeTreeIndex nb)) nb 0, nb ≤ e.2 :=
      descend_ne_none_iff
    rw [hd] at hiff
    exact hiff.trans (or_iff_right fun hn => hn rfl)
  have hbeside : best = none → u = h.besideTree nb := by
    intro hb
    have hfst := descend_beside ((congrArg Prod.snd hd).trans hb)
    exact (congrArg Prod.fst hd).symm.trans hfst
  rw [leftmost_ne_none_iff]
  constructor
  · intro hfound
    by_cases hb : best = none
    · obtain ⟨⟨a, s⟩, he, hle⟩ := hfound.resolve_left (fun hn => hn hb)
      by_cases hu : u = .nil
      · exact ⟨a, s, .next (hbeside hb ▸ hu) (hnext ⟨hu, hb⟩) he, hle⟩
      · rw [hsame fun hc => hu hc.1, hbeside hb] at he
        exact ⟨a, s, .beside he, hle⟩
    · obtain ⟨⟨a, s⟩, he, hle⟩ := hown.mp hb
      exact ⟨a, s, .own he, hle⟩
  · rintro ⟨a, s, hpath, hle⟩
    by_cases hb : best = none
    · refine Or.inr ?_
      cases hpath with
      | own he => exact absurd hb (hown.mpr ⟨(a, s), he, hle⟩)
      | beside he =>
        have hu : u ≠ .nil := by
          intro hc
          rw [← hbeside hb, hc] at he
          contradiction
        rw [hsame fun hc => hu hc.1, hbeside hb]
        exact ⟨(a, s), he, hle⟩
      | next hnil hnt he =>
        have hu : u = .nil := (hbeside hb).trans hnil
        rw [(hnext ⟨hu, hb⟩).unique hnt]
        exact ⟨(a, s), he, hle⟩
    · exact Or.inl hb

/-- The bits of the map above that of `i` lead to the next tree. -/
theorem nextTree_of_map {w : Nat} (hi32 : i < 32)
    (hw : ∀ j < 32, w.testBit j = true ↔ h.bins.tree j ≠ .nil) :
    (leftBits (idx2bit i) &&& w = 0 → NextTree h i .nil) ∧
    (leftBits (idx2bit i) &&& w ≠ 0 → computeBit2idx (leastBit (leftBits (idx2bit i) &&& w)) < 32 ∧
      NextTree h i (h.bins.tree (computeBit2idx (leastBit (leftBits (idx2bit i) &&& w))))) := by
  have hbit : ∀ j < 32, (leftBits (idx2bit i) &&& w).testBit j = true ↔
      i < j ∧ h.bins.tree j ≠ .nil := by
    intro j hj
    rw [Nat.testBit_and, Bool.and_eq_true, leftBits_testBit hi32 hj, decide_eq_true_iff, hw j hj]
  constructor
  · intro h0
    refine Or.inl ⟨rfl, fun j hij hj => ?_⟩
    by_contra hne
    have hset := (hbit j hj).mpr ⟨hij, hne⟩
    rw [h0, Nat.zero_testBit] at hset
    contradiction
  · intro h0
    have hlt : leftBits (idx2bit i) &&& w < 2 ^ 32 :=
      Nat.lt_of_le_of_lt Nat.and_le_left (leftBits_lt hi32)
    obtain ⟨hj, hset, hfirst⟩ := bit2idx_lowest hlt h0
    obtain ⟨hij, hne⟩ := (hbit _ hj).mp hset
    refine ⟨hj, Or.inr ⟨hne, _, hij, hj, rfl, fun k hik hkj => ?_⟩⟩
    by_contra hk
    have hsetk := (hbit k (by omega)).mpr ⟨hik, hk⟩
    rw [hfirst k hkj] at hsetk
    contradiction

/-- The search of a large request looks through all the trees. -/
theorem wp_tmallocLargeSearch {Q : Nat × Nat → State → Prop} (O : Ok σ m lo hi h)
    (hnb : 256 ≤ nb) (hnb' : nb < 2 ^ 64)
    (hQ : ∀ best, Searched h nb best → (best ≠ none ↔ ∃ a s, h.OnPath nb a s ∧ nb ≤ s) →
      Q (pairOf nb best) σ) :
    wp D (tmallocLargeSearch m nb) Q σ := by
  have hi32 := computeTreeIndex_lt nb
  obtain ⟨hroot, S⟩ := O.bin_sub hi32
  have hzero : subSize 0 nb = 2 ^ 64 - nb := by
    rw [subSize_gt (by omega) (by omega)]
    omega
  generalize hd : h.descent nb = dn
  obtain ⟨u, best⟩ := dn
  have hPb : Picked h nb best := by
    intro e he
    obtain ⟨hmem, hle⟩ := descent_mem (show e ∈ (h.descent nb).2 by rw [hd]; exact he)
    obtain ⟨h1, h2⟩ := S.binned e hmem
    exact ⟨h1, hle, h2⟩
  have Su : Sub σ m hi h u := by
    have hsub : Sub σ m hi h (h.descent nb).1 :=
      descend_sub (P := Sub σ m hi h) (fun _ _ _ _ _ hv => hv.children) S Sub.nil
    rwa [hd] at hsub
  have hv0 : (pairOf nb best).1 = 0 ↔ best = none := by
    cases best with
    | none => simp [pairOf]
    | some e =>
      have hb := O.core.chunk_bounds (hPb e rfl).1.1
      simp only at hb
      simp only [pairOf, reduceCtorEq, iff_false]
      omega
  have hu0 : u.root = 0 ↔ u = .nil := by
    constructor
    · intro h0
      by_contra hne
      exact Su.root_ne_zero hne h0
    · intro h0
      rw [h0]
      rfl
  have hboth : u.root = 0 ∧ (pairOf nb best).1 = 0 ↔ u = .nil ∧ best = none := and_congr hu0 hv0
  -- what follows the descent
  obtain ⟨w, hw, hbits⟩ := O.core.binned.treeMap
  obtain ⟨hnone, hsome⟩ := nextTree_of_map hi32 hbits
  have hwalk : ∀ t, Sub σ m hi h t → (¬ (u = .nil ∧ best = none) → t = u) →
      (u = .nil ∧ best = none → NextTree h (computeTreeIndex nb) t) →
      wp D (leftmostWalk nb loopFuel t.root (pairOf nb best).1 (pairOf nb best).2) Q σ := by
    intro t St hsame hnext
    apply wp_leftmostWalk O (by omega) hnb' St (O.height_lt_fuel St) hPb
    exact hQ _ (O.searched hnb hd hsame hnext) (searched_path hd hsame hnext)
  have hrest : wp D (if u.root = 0 ∧ (pairOf nb best).1 = 0 then do
        let leftbits := leftBits (idx2bit (computeTreeIndex nb)) &&& (← load 4 (treemap m))
        if leftbits ≠ 0 then do
          let t ← loadPtr (treebinAt m (computeBit2idx (leastBit leftbits)))
          leftmostWalk nb loopFuel t (pairOf nb best).1 (pairOf nb best).2
        else do
          let t ← pure 0
          leftmostWalk nb loopFuel t (pairOf nb best).1 (pairOf nb best).2
      else do
        let t ← pure u.root
        leftmostWalk nb loopFuel t (pairOf nb best).1 (pairOf nb best).2) Q σ := by
    by_cases h0 : u = .nil ∧ best = none
    · rw [wp_if_pos (hboth.mpr h0)]
      simp only [wp_bind, treemap]
      rw [wp_load hw]
      by_cases hl : leftBits (idx2bit (computeTreeIndex nb)) &&& w = 0
      · rw [wp_if_neg (by simp [hl]), wp_bind, wp_pure]
        exact hwalk .nil Sub.nil (fun hc => absurd h0 hc) (fun _ => hnone hl)
      · rw [wp_if_pos hl]
        obtain ⟨hj, hnext⟩ := hsome hl
        obtain ⟨hrootj, Sj⟩ := O.bin_sub hj
        simp only [wp_bind]
        rw [wp_loadPtr hrootj]
        exact hwalk _ Sj (fun hc => absurd h0 hc) (fun _ => hnext)
    · rw [wp_if_neg (fun hc => h0 (hboth.mp hc)), wp_bind, wp_pure]
      exact hwalk u Su (fun _ => rfl) (fun hc => absurd hc h0)
  unfold tmallocLargeSearch
  simp only [wp_bind]
  rw [wp_loadPtr hroot, hzero]
  by_cases hnil : h.bins.tree (computeTreeIndex nb) = .nil
  · rw [wp_if_neg (by simp [hnil, Trie.root]), wp_bind, wp_pure]
    unfold Heap.descent Heap.ownTree at hd
    rw [hnil] at hd
    cases hd
    exact hrest
  · rw [wp_if_pos (S.root_ne_zero hnil)]
    simp only [wp_bind]
    show wp D (tmallocDescend nb loopFuel (h.ownTree nb).root (pairOf nb none).1 (pairOf nb none).2
      (shlSize nb (leftshiftForTreeIndex (computeTreeIndex nb) + 0)) Trie.nil.root) _ σ
    apply wp_tmallocDescend O (by omega) hnb' hnil S (Nat.le_of_lt (O.height_lt_fuel S)) Picked.none
      (by simp [Unequal]) Sub.nil
    have hd' : (h.bins.tree (computeTreeIndex nb)).descend (sizeBit (computeTreeIndex nb)) nb 0 none
        .nil = (u, best) := hd
    rw [hd']
    exact hrest

/-- The leftmost path of the first tree searches all the trees for a request below
every size in them. -/
theorem Ok.searched_first (O : Ok σ m lo hi h) (hnb : nb < 256) (hi32 : i < 32)
    (hne : h.bins.tree i ≠ .nil) (hfirst : ∀ j < i, h.bins.tree j = .nil) :
    Searched h nb ((h.bins.tree i).leftmost nb none) := by
  have hfit : ∀ j, j < 32 → ∀ e ∈ (h.bins.tree j).entries, nb ≤ e.2 := by
    intro j hj e he
    have hs := (O.tree_size hj he).1
    omega
  refine ⟨?_, fun _ _ _ _ _ _ _ => leftmost_of_fit hne (hfit i hi32), ?_⟩
  · intro e he
    cases leftmost_mem he with
    | inl hc =>
      obtain ⟨h1, h2, _⟩ := (O.core.binned.treeMem i hi32 e.1 e.2).mp hc.1
      exact ⟨h1, hc.2, h2⟩
    | inr hc => contradiction
  · intro hall a s ha h256 _
    have hj := computeTreeIndex_lt s
    have hmem := (O.core.binned.treeMem _ hj a s).mpr ⟨ha, h256, rfl⟩
    have hs40 := hall a s ha
    have hsK : OfTree (computeTreeIndex s) s := ⟨h256, by omega, uncut_of_lt hs40, rfl⟩
    have hof : ∀ e ∈ (h.bins.tree i).entries, OfTree i e.2 := by
      intro e he
      obtain ⟨h1, h2, h3⟩ := (O.core.binned.treeMem i hi32 e.1 e.2).mp he
      have he40 := hall e.1 e.2 h1
      exact ⟨h2, by omega, uncut_of_lt he40, h3⟩
    have hleast : ∀ e ∈ (h.bins.tree i).entries, AtMost ((h.bins.tree i).leftmost nb none) e.2 :=
      fun e he => leftmost_least (ofTree_bitOrder i) hof (O.core.binned.ordered i hi32)
        agree_zero (hfit i hi32) he
    generalize computeTreeIndex s = j at *
    rcases Nat.lt_trichotomy j i with hlt | heq | hgt
    · rw [hfirst j hlt] at hmem
      simp [Trie.entries] at hmem
    · subst heq
      exact hleast (a, s) hmem
    · obtain ⟨k, hk⟩ := root_mem hne
      exact (hleast _ hk).le (Nat.le_of_lt ((hof _ hk).lt hsK hgt))

end

end Mmdata.Proofs
