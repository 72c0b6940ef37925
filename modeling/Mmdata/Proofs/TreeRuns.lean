import Mmdata.Proofs.Runs

namespace Mmdata.Proofs
open Lib Malloc

/-- The bytes that the trees of the chunks `F` are made of: the tree map, the least address,
the bins, and the heads and links of the chunks. -/
def Watched (m : Nat) (F : Nat → Nat → Prop) (b : Nat) : Prop :=
  m + 4 ≤ b ∧ b < m + 8 ∨ m + 24 ≤ b ∧ b < m + 32 ∨ m + 600 ≤ b ∧ b < m + 856 ∨
    ∃ a s, F a s ∧ a + 8 ≤ b ∧ b < a + 64

/-- A large free chunk of the arena that is in no tree. -/
structure NewChunk (σ : State) (m hi : Nat) (F : Nat → Nat → Prop) (p s : Nat) : Prop where
  align : p % 8 = 0 ∧ s % 8 = 0
  large : 256 ≤ s
  inside : m + 920 ≤ p ∧ p + s ≤ hi
  head : σ.get 8 (head p) = some (headWord s true false)
  apart : ∀ a t, F a t → p + s ≤ a ∨ a + t ≤ p

/-- The states while chunks enter and leave the trees, and other memory changes, with the
chunks that are in the trees. -/
inductive TreeRun (m lo hi : Nat) : State → (Nat → Nat → Prop) → Prop
  | start {σ : State} : Arena σ m lo hi → m + 920 < hi → σ.get 4 (treemap m) = some 0 →
      (∀ i < 32, σ.getPtr (treebinAt m i) = some 0) → TreeRun m lo hi σ fun _ _ => False
  | insert {σ τ : State} {F : Nat → Nat → Prop} {p s : Nat} : TreeRun m lo hi σ F →
      NewChunk σ m hi F p s → insertLargeChunk m p s σ = .ok ((), τ) →
      TreeRun m lo hi τ fun a t => F a t ∨ a = p ∧ t = s
  | unlink {σ τ : State} {F : Nat → Nat → Prop} {p s : Nat} : TreeRun m lo hi σ F →
      F p s → unlinkLargeChunk m p σ = .ok ((), τ) →
      TreeRun m lo hi τ fun a t => F a t ∧ ¬ (a = p ∧ t = s)
  | elsewhere {σ τ : State} {F : Nat → Nat → Prop} : TreeRun m lo hi σ F →
      Frame (fun b => ¬ Watched m F b) σ τ → TreeRun m lo hi τ F

/-- What can be reached from a bin over the links to children and to the next on a ring. -/
inductive InTree (σ : State) (m i : Nat) : Nat → Prop
  | root {a : Nat} : σ.getPtr (treebinAt m i) = some a → a ≠ 0 → InTree σ m i a
  | child {a c j : Nat} : InTree σ m i a → j < 2 → σ.getPtr (child a j) = some c → c ≠ 0 →
      InTree σ m i c
  | next {a b : Nat} : InTree σ m i a → σ.getPtr (fd a) = some b → InTree σ m i b

/-- A walk over a tree from the node at an address: its ring, then the subtrees. -/
inductive Walk (σ : State) : Nat → List Nat → Prop
  | null : Walk σ 0 []
  | node {a l r : Nat} {ring xs ys : List Nat} : LinkRing (fwd σ) (bwd σ) a ring →
      σ.getPtr (child a 0) = some l → σ.getPtr (child a 1) = some r → Walk σ l xs → Walk σ r ys →
      Walk σ a (a :: ring ++ (xs ++ ys))

/-- The nodes of a tree by their depths. -/
inductive AtDepth (σ : State) (m i : Nat) : Nat → Nat → Prop
  | root {a : Nat} : σ.getPtr (treebinAt m i) = some a → a ≠ 0 → AtDepth σ m i 0 a
  | child {a c d j : Nat} : AtDepth σ m i d a → j < 2 → σ.getPtr (child a j) = some c → c ≠ 0 →
      AtDepth σ m i (d + 1) c

/-- The trees as memory has them, when the chunks of `F` are in them. -/
structure TreesKept (σ : State) (m : Nat) (F : Nat → Nat → Prop) : Prop where
  reached : ∀ i < 32, ∀ a, InTree σ m i a ↔ ∃ s, F a s ∧ computeTreeIndex s = i
  once : ∀ i < 32, ∃ root xs, σ.getPtr (treebinAt m i) = some root ∧ Walk σ root xs ∧ xs.Nodup ∧
    ∀ a, a ∈ xs ↔ ∃ s, F a s ∧ computeTreeIndex s = i
  ring : ∀ a s, F a s → ∃ h ring par, LinkRing (fwd σ) (bwd σ) h ring ∧ (h :: ring).Nodup ∧
    (∀ b, b ∈ h :: ring ↔ F b s) ∧ σ.getPtr (parent h) = some par ∧ par ≠ 0 ∧
    ∀ b ∈ ring, σ.getPtr (parent b) = some 0
  side : ∀ a s par, F a s → σ.getPtr (parent a) = some par → par ≠ 0 →
    σ.getPtr (treebinAt m (computeTreeIndex s)) = some a ∨ ∃ d t, F par t ∧
      AtDepth σ m (computeTreeIndex s) d par ∧
      σ.getPtr (child par (sizeBit (computeTreeIndex s) s d).toNat) = some a
  marked : ∃ w, σ.get 4 (treemap m) = some w ∧
    ∀ i < 32, w.testBit i = true ↔ ∃ a, σ.getPtr (treebinAt m i) = some a ∧ a ≠ 0

section

variable {D : Trap → Prop} {σ τ : State} {m lo hi i p q a s par h : Nat} {T : Nat → Trie}
  {t : Trie} {c : TrieCtx} {ring xs : List Nat} {F F' : Nat → Nat → Prop}

/-! Trees read off memory. -/

theorem TreeAt.walk (ht : TreeAt σ i par t) : Walk σ t.root t.addrs := by
  induction t generalizing par with
  | nil => exact .null
  | node a s ring l r ihl ihr =>
    obtain ⟨hn, hl, hr⟩ := ht
    rw [addrs_node]
    exact .node hn.linked hn.fields.left hn.fields.right (ihl hl) (ihr hr)

theorem reach_ring {j b : Nat} (hr : Dll (fwd σ) (bwd σ) a xs b) (ha : InTree σ m j a) :
    ∀ x ∈ xs, InTree σ m j x := by
  induction xs generalizing a with
  | nil => exact fun x hx => absurd hx List.not_mem_nil
  | cons y ys ih =>
    obtain ⟨hnext, _, hrest⟩ := hr
    have hy : InTree σ m j y := .next ha hnext
    intro x hx
    cases List.mem_cons.mp hx with
    | inl h => rw [h]; exact hy
    | inr h => exact ih hrest hy x h

/-- All of a tree is reached from its root. -/
theorem TreeAt.reached {j : Nat} (ht : TreeAt σ i par t) (N : TreeNodes m hi t.addrs)
    (hroot : t ≠ .nil → InTree σ m j t.root) : ∀ a ∈ t.addrs, InTree σ m j a := by
  induction t generalizing par with
  | nil => exact fun a ha => absurd ha List.not_mem_nil
  | node b k ring l r ihl ihr =>
    obtain ⟨hn, hl, hr⟩ := ht
    have hb : InTree σ m j b := hroot (by simp)
    rw [addrs_node] at N ⊢
    have hnd := N.nodup
    rw [List.nodup_append, List.nodup_append] at hnd
    obtain ⟨_, ⟨hndl, hndr, _⟩, _⟩ := hnd
    have Nl : TreeNodes m hi l.addrs := N.sublist hndl fun y hy => by simp [hy]
    have Nr : TreeNodes m hi r.addrs := N.sublist hndr fun y hy => by simp [hy]
    have hsl := ihl hl Nl fun hne =>
      .child hb (show 0 < 2 by decide) hn.fields.left (root_ne_zero Nl hne)
    have hsr := ihr hr Nr fun hne =>
      .child hb (show 1 < 2 by decide) hn.fields.right (root_ne_zero Nr hne)
    intro a ha
    rcases List.mem_append.mp ha with ha | ha
    · cases List.mem_cons.mp ha with
      | inl h => rw [h]; exact hb
      | inr h => exact reach_ring hn.linked hb a h
    · rcases List.mem_append.mp ha with ha | ha
      · exact hsl a ha
      · exact hsr a ha

theorem ring_next {b y : Nat} (hr : Dll (fwd σ) (bwd σ) a xs b) (hx : p ∈ a :: xs)
    (hy : fwd σ p = some y) : y ∈ xs ∨ y = b := by
  induction xs generalizing a with
  | nil =>
    rw [List.mem_singleton.mp hx, hr.1] at hy
    exact Or.inr (Option.some.inj hy).symm
  | cons z zs ih =>
    obtain ⟨hnext, _, hrest⟩ := hr
    cases List.mem_cons.mp hx with
    | inl h =>
      rw [h, hnext] at hy
      exact Or.inl (by rw [← Option.some.inj hy]; exact List.mem_cons_self)
    | inr h =>
      cases ih hrest h with
      | inl h => exact Or.inl (List.mem_cons_of_mem _ h)
      | inr h => exact Or.inr h

/-- Links lead from chunks of a tree to chunks of it. -/
theorem TreeAt.closed (ht : TreeAt σ i par t) (hp : p ∈ t.addrs) :
    (∀ y, σ.getPtr (fd p) = some y → y ∈ t.addrs) ∧
      ∀ j c, j < 2 → σ.getPtr (child p j) = some c → c ≠ 0 → c ∈ t.addrs := by
  induction t generalizing par with
  | nil => exact absurd hp List.not_mem_nil
  | node b k ring l r ihl ihr =>
    obtain ⟨hn, hl, hr⟩ := ht
    have hlc : ∀ y ∈ l.addrs, y ∈ (Trie.node b k ring l r).addrs :=
      fun y hy => mem_addrs_node.mpr (Or.inr (Or.inl hy))
    have hrc : ∀ y ∈ r.addrs, y ∈ (Trie.node b k ring l r).addrs :=
      fun y hy => mem_addrs_node.mpr (Or.inr (Or.inr hy))
    rcases mem_addrs_node.mp hp with hp | hp | hp
    · constructor
      · intro y hy
        apply mem_addrs_node.mpr
        cases ring_next hn.linked hp hy with
        | inl h => exact Or.inl (List.mem_cons_of_mem _ h)
        | inr h => exact Or.inl (by rw [h]; exact List.mem_cons_self)
      · intro j c hj hc h0
        cases List.mem_cons.mp hp with
        | inl h =>
          subst h
          obtain rfl | rfl : j = 0 ∨ j = 1 := by omega
          · have he := Option.some.inj (hc.symm.trans hn.fields.left)
            subst he
            exact hlc _ (root_mem_addrs fun hnil => h0 (by rw [hnil]; rfl))
          · have he := Option.some.inj (hc.symm.trans hn.fields.right)
            subst he
            exact hrc _ (root_mem_addrs fun hnil => h0 (by rw [hnil]; rfl))
        | inr h =>
          -- a chunk of the ring has no children
          have hm := hn.member p h
          obtain rfl | rfl : j = 0 ∨ j = 1 := by omega
          · exact absurd (Option.some.inj (hc.symm.trans hm.left)) h0
          · exact absurd (Option.some.inj (hc.symm.trans hm.right)) h0
    · obtain ⟨hf, hc⟩ := ihl hl hp
      exact ⟨fun y hy => hlc y (hf y hy), fun j c hj h1 h2 => hlc c (hc j c hj h1 h2)⟩
    · obtain ⟨hf, hc⟩ := ihr hr hp
      exact ⟨fun y hy => hrc y (hf y hy), fun j c hj h1 h2 => hrc c (hc j c hj h1 h2)⟩

/-- The hole of a context is as deep as the context. -/
theorem CtxAt.atDepth (hc : CtxAt σ i (treebinAt m i) par c h) (hm : ∀ a ∈ c.addrs, a ≠ 0)
    (h0 : h ≠ 0) : AtDepth σ m i c.depth h := by
  induction c generalizing h with
  | hole => exact .root hc h0
  | left a s ring r up ih =>
    obtain ⟨hn, _, hu⟩ := hc
    have hup : ∀ b ∈ up.addrs, b ≠ 0 := fun b hb => hm b (mem_addrs_left.mpr (Or.inr (Or.inr hb)))
    have ha : a ≠ 0 := hm a (mem_addrs_left.mpr (Or.inl (by simp)))
    exact .child (ih hu hup ha) (show 0 < 2 by decide) hn.fields.left h0
  | right a s ring l up ih =>
    obtain ⟨hn, _, hu⟩ := hc
    have hup : ∀ b ∈ up.addrs, b ≠ 0 :=
      fun b hb => hm b (mem_addrs_right.mpr (Or.inr (Or.inr hb)))
    have ha : a ≠ 0 := hm a (mem_addrs_right.mpr (Or.inl (by simp)))
    exact .child (ih hu hup ha) (show 1 < 2 by decide) hn.fields.right h0

/-- The node of a chunk in a tree that is hung at its bin. -/
theorem Forest.node (hT : Forest σ m hi T F) (hi32 : i < 32)
    (ha : (a, s) ∈ (T i).entries) : ∃ c h ring l r par,
      T i = TrieCtx.plug c (.node h s ring l r) ∧ a ∈ h :: ring ∧ par ≠ 0 ∧
      CtxAt σ i (treebinAt m i) par c h ∧ NodeAt σ i (c.holeParent par) h ring l.root r.root := by
  obtain ⟨hroot, par, ⟨_, hpar, _⟩, ht⟩ := hT.bin i hi32
  obtain ⟨c, h, ring, l, r, he, hin⟩ := exists_ctx ha
  rw [he] at hroot ht
  obtain ⟨hc, hn, _⟩ := ctxAt_plug.mp ⟨hroot, ht⟩
  exact ⟨c, h, ring, l, r, par, he, hin, by omega, hc, hn⟩

/-- The chunks of one size are those on the ring of their node. -/
theorem Forest.ring_iff {l r : Trie} (hT : Forest σ m hi T F) (hi32 : i < 32)
    (hlarge : ∀ a s, F a s → 256 ≤ s) (hs : computeTreeIndex s = i)
    (he : T i = TrieCtx.plug c (.node h s ring l r)) (b : Nat) : b ∈ h :: ring ↔ F b s := by
  have hord := hT.ordered i hi32
  rw [he] at hord
  obtain ⟨hc, hacc, hl, hr, _⟩ := ordered_plug.mp hord
  have hmem := hT.mem i hi32 b s
  rw [he, mem_plug_entries] at hmem
  constructor
  · exact fun hb => (hmem.mp (Or.inr (mem_node_entries.mpr (Or.inl ⟨hb, rfl⟩)))).1
  · intro hb
    rcases hmem.mpr ⟨hb, hlarge b s hb, hs⟩ with h1 | h1
    · have hself := hacc (h, s) (mem_node_entries.mpr (Or.inl ⟨List.mem_cons_self, rfl⟩))
      exact absurd rfl (accepts_ne hc hself (b, s) h1)
    · rcases mem_node_entries.mp h1 with h2 | h2 | h2
      · exact h2.1
      · exact absurd rfl (hl _ h2).1
      · exact absurd rfl (hr _ h2).1

/-- The trees are as memory has them. -/
theorem Forest.kept (hT : Forest σ m hi T F) (S : Spread σ m hi F)
    (hlarge : ∀ a s, F a s → 256 ≤ s) : TreesKept σ m F := by
  have hmem : ∀ i < 32, ∀ a, a ∈ (T i).addrs ↔ ∃ s, F a s ∧ computeTreeIndex s = i := by
    intro i hi32 a
    constructor
    · intro ha
      obtain ⟨s, hs, _, hidx⟩ := hT.addr hi32 ha
      exact ⟨s, hs, hidx⟩
    · rintro ⟨s, hs, hidx⟩
      have he := (hT.mem i hi32 a s).mpr ⟨hs, hlarge a s hs, hidx⟩
      exact List.mem_map.mpr ⟨(a, s), he, rfl⟩
  have hentry : ∀ a s, F a s → (a, s) ∈ (T (computeTreeIndex s)).entries := fun a s hs =>
    (hT.mem _ (computeTreeIndex_lt s) a s).mpr ⟨hs, hlarge a s hs, rfl⟩
  have hpos : ∀ i < 32, ∀ a ∈ (T i).addrs, a ≠ 0 := by
    intro i hi32 a ha
    have hin := (hT.nodes S hi32).inside a ha
    omega
  refine ⟨?_, ?_, ?_, ?_, ?_⟩
  · intro i hi32 a
    obtain ⟨hroot, par, _, ht⟩ := hT.bin i hi32
    rw [← hmem i hi32]
    constructor
    · intro hreach
      induction hreach with
      | root hg h0 =>
        have he := Option.some.inj (hg.symm.trans hroot)
        subst he
        exact root_mem_addrs fun hnil => h0 (by rw [hnil]; rfl)
      | child _ hj hg h0 ih => exact (ht.closed ih).2 _ _ hj hg h0
      | next _ hg ih => exact (ht.closed ih).1 _ hg
    · intro ha
      refine ht.reached (hT.nodes S hi32) (fun hne => ?_) a ha
      exact .root hroot (root_ne_zero (hT.nodes S hi32) hne)
  · intro i hi32
    obtain ⟨hroot, par, _, ht⟩ := hT.bin i hi32
    exact ⟨_, _, hroot, ht.walk, hT.nodup i hi32, hmem i hi32⟩
  · intro a s hs
    have hi32 := computeTreeIndex_lt s
    obtain ⟨c, h, ring, l, r, par, he, _, hpar, _, hn⟩ := hT.node hi32 (hentry a s hs)
    refine ⟨h, ring, _, hn.linked, ?_, hT.ring_iff hi32 hlarge rfl he, hn.fields.parent, ?_,
      fun b hb => (hn.member b hb).parent⟩
    · have hnd := hT.nodup _ hi32
      rw [he] at hnd
      have hnode := (plug_nodup hnd).2.1
      rw [addrs_node] at hnode
      exact (List.nodup_append.mp hnode).1
    · cases holeParent_cases par c with
      | inl h => rw [h.2]; exact hpar
      | inr h => exact hpos _ hi32 _ (by rw [he]; exact mem_addrs_plug.mpr (Or.inl h))
  · intro a s par' hs hg h0
    have hi32 := computeTreeIndex_lt s
    obtain ⟨c, h, ring, l, r, par, he, hin, _, hc, hn⟩ := hT.node hi32 (hentry a s hs)
    have hord := hT.ordered _ hi32
    rw [he] at hord
    obtain ⟨_, hacc, _⟩ := ordered_plug.mp hord
    have hself := hacc (h, s) (mem_node_entries.mpr (Or.inl ⟨List.mem_cons_self, rfl⟩))
    have hctx : ∀ b ∈ c.addrs, b ≠ 0 := fun b hb =>
      hpos _ hi32 b (by rw [he]; exact mem_addrs_plug.mpr (Or.inl hb))
    -- a chunk on the ring has no parent
    have hhead : a = h := by
      cases List.mem_cons.mp hin with
      | inl h => exact h
      | inr h => exact absurd (Option.some.inj (hg.symm.trans (hn.member a h).parent)) h0
    subst hhead
    have hpar : par' = c.holeParent par := Option.some.inj (hg.symm.trans hn.fields.parent)
    rw [hpar]
    cases c with
    | hole => exact Or.inl hc
    | left b k ring' r' up =>
      obtain ⟨hb, _, hu⟩ := hc
      refine Or.inr ⟨up.depth, k, ?_, hu.atDepth (fun x hx => hctx x ?_) (hctx b ?_), ?_⟩
      · have hbk : (b, k) ∈ (T (computeTreeIndex s)).entries := by
          rw [he]
          exact mem_plug_entries.mpr (Or.inl (by simp [TrieCtx.entries]))
        exact ((hT.mem _ hi32 b k).mp hbk).1
      · exact mem_addrs_left.mpr (Or.inr (Or.inr hx))
      · exact mem_addrs_left.mpr (Or.inl (by simp))
      · rw [hself.2.1]
        exact hb.fields.left
    | right b k ring' l' up =>
      obtain ⟨hb, _, hu⟩ := hc
      refine Or.inr ⟨up.depth, k, ?_, hu.atDepth (fun x hx => hctx x ?_) (hctx b ?_), ?_⟩
      · have hbk : (b, k) ∈ (T (computeTreeIndex s)).entries := by
          rw [he]
          exact mem_plug_entries.mpr (Or.inl (by simp [TrieCtx.entries]))
        exact ((hT.mem _ hi32 b k).mp hbk).1
      · exact mem_addrs_right.mpr (Or.inr (Or.inr hx))
      · exact mem_addrs_right.mpr (Or.inl (by simp))
      · rw [hself.2.1]
        exact hb.fields.right
  · obtain ⟨w, hw, hbits⟩ := hT.map
    refine ⟨w, hw, fun i hi32 => ?_⟩
    rw [hbits i hi32]
    have hroot := (hT.bin i hi32).1
    have hzero := root_eq_zero (hT.nodes S hi32)
    constructor
    · exact fun hne => ⟨_, hroot, fun h0 => hne (hzero.mp h0)⟩
    · rintro ⟨b, hb, h0⟩ hnil
      exact h0 ((Option.some.inj (hb.symm.trans hroot)).trans (hzero.mpr hnil))

/-! Runs. -/

/-- What holds between the operations of a run. -/
structure Grove (σ : State) (m lo hi : Nat) (T : Nat → Trie) (F : Nat → Nat → Prop) : Prop where
  arena : Arena σ m lo hi
  spread : Spread σ m hi F
  forest : Forest σ m hi T F
  large : ∀ a s, F a s → 256 ≤ s

theorem NewChunk.spread (N : NewChunk σ m hi F p s) (S : Spread σ m hi F) :
    Spread σ m hi fun a t => F a t ∨ a = p ∧ t = s := by
  have hal := N.align
  have hlarge := N.large
  have hin := N.inside
  refine ⟨?_, ?_, ?_, ?_⟩
  · rintro a t (h | ⟨rfl, rfl⟩)
    · exact S.align a t h
    · exact hal
  · rintro a t (h | ⟨rfl, rfl⟩)
    · exact S.bounds a t h
    · exact ⟨hin.1, by omega, hin.2⟩
  · rintro a t (h | ⟨rfl, rfl⟩)
    · exact S.head a t h
    · exact N.head
  · rintro a t b u (h | ⟨rfl, rfl⟩) (h' | ⟨rfl, rfl⟩)
    · exact S.apart a t b u h h'
    · exact Or.inr (N.apart a t h).symm
    · exact Or.inr (N.apart b u h')
    · exact Or.inl ⟨rfl, rfl⟩

theorem Arena.tree_frame (A : Arena σ m lo hi) (hi32 : i < 32) (hxs : ∀ a ∈ xs, m + 920 ≤ a)
    (hf : Frame (TreeZone m i xs) σ τ) : Arena τ m lo hi := by
  have hti := treebin_bounds (m := m) hi32
  apply A.frame hf
  rintro b h1 h2 (h3 | h3 | ⟨x, hx, h3, h4⟩)
  · omega
  · omega
  · have hb := hxs x hx
    omega

/-- A run of insertions and removals does not trap and keeps the trees. -/
theorem Grove.wp_insert (G : Grove σ m lo hi T F) (N : NewChunk σ m hi F p s) :
    wp (fun _ => False) (insertLargeChunk m p s) (fun _ τ =>
      ∃ T', Grove τ m lo hi T' fun a t => F a t ∨ a = p ∧ t = s) σ := by
  have S := N.spread G.spread
  have hnew : ∀ t, ¬ F p t := by
    intro t ht
    have hb := G.spread.bounds p t ht
    have hlarge := N.large
    have hap := N.apart p t ht
    omega
  refine G.forest.wp_insertLargeChunk G.arena S (fun _ _ => Iff.rfl) hnew N.large ?_
  intro τ T' xs hT hxs hf
  have hi32 := computeTreeIndex_lt s
  refine ⟨T', G.arena.tree_frame hi32 (fun a ha => ?_) hf,
    S.frame (hf.mono (treeZone_binZone hi32 fun a ha => ?_)), hT, ?_⟩
  · obtain ⟨t, ht, _⟩ := hxs a ha
    exact (S.bounds a t ht).1
  · obtain ⟨t, ht, h256, _⟩ := hxs a ha
    exact ⟨t, ht, h256⟩
  · rintro a t (h | ⟨_, rfl⟩)
    · exact G.large a t h
    · exact N.large

theorem Grove.wp_unlink (G : Grove σ m lo hi T F) (hp : F p s) :
    wp (fun _ => False) (unlinkLargeChunk m p) (fun _ τ =>
      ∃ T', Grove τ m lo hi T' fun a t => F a t ∧ ¬ (a = p ∧ t = s)) σ := by
  refine G.forest.wp_unlinkLargeChunk G.arena G.spread hp (G.large p s hp) (fun _ _ => Iff.rfl) ?_
  intro τ T' xs hT hxs hf
  have hi32 := computeTreeIndex_lt s
  refine ⟨T', G.arena.tree_frame hi32 (fun a ha => ?_) hf,
    (G.spread.frame (hf.mono (treeZone_binZone hi32 fun a ha => ?_))).mono fun _ _ h => h.1, hT,
    fun a t h => G.large a t h.1⟩
  · obtain ⟨t, ht, _⟩ := hxs a ha
    exact (G.spread.bounds a t ht).1
  · obtain ⟨t, ht, h256, _⟩ := hxs a ha
    exact ⟨t, ht, h256⟩

theorem Grove.elsewhere (G : Grove σ m lo hi T F) (hf : Frame (fun b => ¬ Watched m F b) σ τ) :
    Grove τ m lo hi T F := by
  have S := G.spread
  refine ⟨G.arena.frame hf ?_, ⟨S.align, S.bounds, fun a s hs => ?_, S.apart⟩,
    ⟨G.forest.map.frame hf ?_, fun i hi32 => (G.forest.bin i hi32).frame hf ?_ ?_, G.forest.mem,
      G.forest.nodup, G.forest.ordered⟩, G.large⟩
  · exact fun b h1 h2 hb => hb (Or.inr (Or.inl ⟨h1, h2⟩))
  · rw [hf.get]
    · exact S.head a s hs
    · exact fun b h1 h2 hb => hb (Or.inr (Or.inr (Or.inr ⟨a, s, hs, h1, by omega⟩)))
  · exact fun b h1 h2 hb => hb (Or.inl ⟨h1, by omega⟩)
  · have hti := treebin_bounds (m := m) hi32
    exact fun b h1 h2 hb => hb (Or.inr (Or.inr (Or.inl ⟨by omega, by omega⟩)))
  · rintro b ⟨x, hx, h1, h2⟩ hb
    obtain ⟨s, hs, _⟩ := G.forest.addr hi32 hx
    exact hb (Or.inr (Or.inr (Or.inr ⟨x, s, hs, by omega, h2⟩)))

theorem TreeRun.grove (R : TreeRun m lo hi σ F) : ∃ T, Grove σ m lo hi T F := by
  induction R with
  | @start σ A hroom hmap hbins =>
    have hal := A.align
    refine ⟨fun _ => .nil, A, ⟨?_, ?_, ?_, ?_⟩, ⟨⟨0, hmap, ?_⟩, ?_, ?_, ?_, ?_⟩, ?_⟩
    · exact fun _ _ h => h.elim
    · exact fun _ _ h => h.elim
    · exact fun _ _ h => h.elim
    · exact fun _ _ _ _ h => h.elim
    · intro i _
      simp
    · exact fun i hi32 => ⟨hbins i hi32, m + 920, ⟨by omega, by omega, hroom⟩, trivial⟩
    · intro i _ a s
      simp [Trie.entries]
    · exact fun i _ => List.nodup_nil
    · exact fun i _ => trivial
    · exact fun _ _ h => h.elim
  | insert _ N hr ih =>
    obtain ⟨T, G⟩ := ih
    exact wp_ok (G.wp_insert N) hr
  | unlink _ hp hr ih =>
    obtain ⟨T, G⟩ := ih
    exact wp_ok (G.wp_unlink hp) hr
  | elsewhere _ hf ih =>
    obtain ⟨T, G⟩ := ih
    exact ⟨T, G.elsewhere hf⟩

/-- Over any run of insertions and removals the trees are kept, and every further operation
returns. -/
theorem trees_kept (R : TreeRun m lo hi σ F) : TreesKept σ m F ∧
    (∀ p s, NewChunk σ m hi F p s → ∃ τ, insertLargeChunk m p s σ = .ok ((), τ)) ∧
    ∀ p s, F p s → ∃ τ, unlinkLargeChunk m p σ = .ok ((), τ) := by
  obtain ⟨T, G⟩ := R.grove
  refine ⟨G.forest.kept G.spread G.large, fun p s N => ?_, fun p s hp => ?_⟩
  · obtain ⟨_, τ, hτ, _⟩ := ok_of_wp (G.wp_insert N)
    exact ⟨τ, hτ⟩
  · obtain ⟨_, τ, hτ, _⟩ := ok_of_wp (G.wp_unlink hp)
    exact ⟨τ, hτ⟩

/-- A process with a malloc_state at 4160 whose tree bins are empty, and the heads of free
chunks of 256 bytes at 5080, 320 bytes at 5400, and 256 bytes at 5800. -/
def planted : State :=
  (((((List.range 32).foldl (fun σ i => σ.putPtr (treebinAt 4160 i) 0) zeroed).putPtr 4184 4160).put
    8 5088 257).put 8 5408 321).put 8 5808 257

set_option maxRecDepth 100000 in
theorem planted_run : TreeRun 4160 4160 69632 planted fun _ _ => False := by
  refine .start ⟨by decide, by decide, by decide, by decide, by decide, ?_, by decide +kernel⟩
    (by decide) (by decide +kernel) (by decide +kernel)
  exact ⟨(4096, 69632), List.mem_cons_self, by decide, by decide⟩

set_option maxRecDepth 100000 in
/-- Three chunks enter one tree, as its root, as a child of the root, and on its ring. When the
root leaves, the chunk from its ring takes its place. -/
theorem trees_kept_planted : ∃ τ, (do
      insertLargeChunk 4160 5080 256
      insertLargeChunk 4160 5400 320
      insertLargeChunk 4160 5800 256
      unlinkLargeChunk 4160 5080) planted = .ok ((), τ) ∧
    τ.getPtr (treebinAt 4160 0) = some 5800 ∧ τ.getPtr (child 5800 1) = some 5400 ∧
    TreesKept τ 4160 fun a t => a = 5400 ∧ t = 320 ∨ a = 5800 ∧ t = 256 := by
  have hheads : result (do
      let h₁ ← load 8 (head 5080)
      insertLargeChunk 4160 5080 256
      let h₂ ← load 8 (head 5400)
      insertLargeChunk 4160 5400 320
      let h₃ ← load 8 (head 5800)
      insertLargeChunk 4160 5800 256
      unlinkLargeChunk 4160 5080
      let root ← loadPtr (treebinAt 4160 0)
      return (h₁, h₂, h₃, root, ← loadPtr (child 5800 1))) planted =
        some (257, 321, 257, 5800, 5400) := by
    decide +kernel
  obtain ⟨τ, hr⟩ := result_ok hheads
  obtain ⟨h₁, _, hh₁, hr₁⟩ := bind_ok hr
  obtain ⟨g₁, rfl⟩ := load_ok hh₁
  obtain ⟨_, _, hi₁, hr₂⟩ := bind_ok hr₁
  obtain ⟨h₂, σ₁, hh₂, hr₃⟩ := bind_ok hr₂
  obtain ⟨g₂, rfl⟩ := load_ok hh₂
  obtain ⟨_, _, hi₂, hr₄⟩ := bind_ok hr₃
  obtain ⟨h₃, σ₂, hh₃, hr₅⟩ := bind_ok hr₄
  obtain ⟨g₃, rfl⟩ := load_ok hh₃
  obtain ⟨_, σ₃, hi₃, hr₆⟩ := bind_ok hr₅
  obtain ⟨_, _, hu, hr₇⟩ := bind_ok hr₆
  obtain ⟨root, _, hroot, hr₈⟩ := bind_ok hr₇
  obtain ⟨groot, rfl⟩ := loadPtr_ok hroot
  obtain ⟨c, _, hc, hpure⟩ := bind_ok hr₈
  obtain ⟨gc, rfl⟩ := loadPtr_ok hc
  cases hpure
  have R₁ := planted_run.insert ⟨by decide, by decide, by decide, g₁, fun _ _ h => h.elim⟩ hi₁
  have R₂ := R₁.insert ⟨by decide, by decide, by decide, g₂, fun a t h => by
    simp only [false_or] at h
    omega⟩ hi₂
  have R₃ := R₂.insert ⟨by decide, by decide, by decide, g₃, fun a t h => by
    simp only [false_or] at h
    omega⟩ hi₃
  have R := R₃.unlink (p := 5080) (s := 256) (Or.inl (Or.inl (Or.inr ⟨rfl, rfl⟩))) hu
  refine ⟨τ, ?_, groot, gc, ?_⟩
  · rw [bind_of_ok hi₁, bind_of_ok hi₂, bind_of_ok hi₃]
    exact hu
  · have hF : (fun a t => (((False ∨ a = 5080 ∧ t = 256) ∨ a = 5400 ∧ t = 320) ∨
        a = 5800 ∧ t = 256) ∧ ¬ (a = 5080 ∧ t = 256)) =
        fun a t => a = 5400 ∧ t = 320 ∨ a = 5800 ∧ t = 256 := by
      funext a t
      simp only [false_or]
      exact propext (by omega)
    rw [← hF]
    exact (trees_kept R).1

end

end Mmdata.Proofs
