import Mmdata.Proofs.TreeRemove

namespace Mmdata.Proofs
open Lib Malloc

/-- Free chunks, as address and size: in the arena, apart, and with the heads
of free chunks whose predecessor is in use. -/
structure Spread (σ : State) (m hi : Nat) (F : Nat → Nat → Prop) : Prop where
  align : ∀ a s, F a s → a % 8 = 0 ∧ s % 8 = 0
  bounds : ∀ a s, F a s → m + 920 ≤ a ∧ 32 ≤ s ∧ a + s ≤ hi
  head : ∀ a s, F a s → σ.get 8 (a + 8) = some (headWord s true false)
  apart : ∀ a s b t, F a s → F b t → (a = b ∧ s = t) ∨ a + s ≤ b ∨ b + t ≤ a

/-- Every chunk of `F` that is large is in exactly one tree, the one its size selects, and
the tree map tells which trees are not empty. -/
structure Forest (σ : State) (m hi : Nat) (T : Nat → Trie) (F : Nat → Nat → Prop) : Prop where
  map : MapAt σ (m + 4) (fun i => T i ≠ .nil)
  bin : ∀ i < 32, TreeBin σ m hi i (T i)
  mem : ∀ i < 32, ∀ a s, (a, s) ∈ (T i).entries ↔ F a s ∧ 256 ≤ s ∧ computeTreeIndex s = i
  nodup : ∀ i < 32, (T i).addrs.Nodup
  ordered : ∀ i < 32, (T i).Ordered (sizeBit i) 0

/-- What operations on the bins may write: the bin maps, the bins, and the
chunks in them past their heads. -/
def BinZone (m : Nat) (F : Nat → Nat → Prop) (b : Nat) : Prop :=
  m ≤ b ∧ b < m + 8 ∨ m + 72 ≤ b ∧ b < m + 856 ∨ ∃ a s, F a s ∧ a + 16 ≤ b ∧ b < a + s

section

variable {D : Trap → Prop} {σ τ : State} {m lo hi i p q : Nat} {T : Nat → Trie}
  {F F' : Nat → Nat → Prop}

theorem computeTreeIndex_lt (s : Nat) : computeTreeIndex s < 32 := by
  simp only [computeTreeIndex]
  split
  · omega
  · split
    · omega
    · rename_i h0 h1
      have hlog : Nat.log2 ((s >>> 8) % 2 ^ 32) < 16 := by
        rw [Nat.log2_lt h0]
        omega
      have hbit : (s >>> (Nat.log2 ((s >>> 8) % 2 ^ 32) + 7)) &&& 1 < 2 := by
        rw [Nat.and_one_is_mod]
        omega
      rw [Nat.shiftLeft_eq]
      omega

theorem Spread.mono (S : Spread σ m hi F) (h : ∀ a s, F' a s → F a s) : Spread σ m hi F' :=
  ⟨fun a s ha => S.align a s (h a s ha), fun a s ha => S.bounds a s (h a s ha),
    fun a s ha => S.head a s (h a s ha),
    fun a s b t ha hb => S.apart a s b t (h a s ha) (h b t hb)⟩

theorem Spread.frame (S : Spread σ m hi F) (hf : Frame (BinZone m F) σ τ) :
    Spread τ m hi F := by
  refine ⟨S.align, S.bounds, fun a s ha => ?_, S.apart⟩
  rw [hf.get ?_]
  · exact S.head a s ha
  · have hb := S.bounds a s ha
    rintro b h1 h2 (h3 | h3 | ⟨c, t, hc, h3, h4⟩)
    · omega
    · omega
    · have hcb := S.bounds c t hc
      rcases S.apart a s c t ha hc with ⟨rfl, rfl⟩ | hap | hap
      · omega
      · omega
      · omega

theorem Spread.treeNodes (S : Spread σ m hi F) {l : List Nat} (hnd : l.Nodup)
    (hl : ∀ a ∈ l, ∃ s, F a s ∧ 256 ≤ s) : TreeNodes m hi l := by
  refine ⟨hnd, fun x hx => ?_, fun x hx y hy => ?_⟩
  · obtain ⟨s, hs, _⟩ := hl x hx
    have hb := S.bounds _ _ hs
    have ha := S.align _ _ hs
    omega
  · obtain ⟨s, hs, _⟩ := hl x hx
    obtain ⟨t, ht, _⟩ := hl y hy
    rcases S.apart _ _ _ _ hs ht with ⟨he, _⟩ | hap | hap
    · exact Or.inl he
    · omega
    · omega

theorem treeZone_binZone (hi32 : i < 32) {xs : List Nat} (hxs : ∀ a ∈ xs, ∃ s, F a s ∧ 256 ≤ s) :
    ∀ b, TreeZone m i xs b → BinZone m F b := by
  have hti := treebin_bounds (m := m) hi32
  rintro b (h | h | ⟨x, hx, h1, h2⟩)
  · exact Or.inl (by omega)
  · exact Or.inr (Or.inl (by omega))
  · obtain ⟨s, hs, h256⟩ := hxs x hx
    exact Or.inr (Or.inr ⟨x, s, hs, h1, by omega⟩)

theorem Forest.addr (hT : Forest σ m hi T F) (hi32 : i < 32) {a : Nat}
    (ha : a ∈ (T i).addrs) : ∃ s, F a s ∧ 256 ≤ s ∧ computeTreeIndex s = i := by
  obtain ⟨⟨x, s⟩, he, rfl⟩ := List.mem_map.mp ha
  exact ⟨s, (hT.mem i hi32 x s).mp he⟩

theorem Forest.nodes (hT : Forest σ m hi T F) (S : Spread σ m hi F) (hi32 : i < 32) :
    TreeNodes m hi (T i).addrs := by
  refine S.treeNodes (hT.nodup i hi32) ?_
  intro a ha
  obtain ⟨s, hs, h256, _⟩ := hT.addr hi32 ha
  exact ⟨s, hs, h256⟩

theorem Forest.heads (hT : Forest σ m hi T F) (S : Spread σ m hi F) (hi32 : i < 32) :
    HeadsAt σ (T i).entries := by
  rintro ⟨a, s⟩ he
  obtain ⟨hF, _, _⟩ := (hT.mem i hi32 a s).mp he
  exact ⟨S.head a s hF, (S.align a s hF).2⟩

/-- After a change in tree `i`, the other trees are what they were. -/
theorem Forest.keep (hT : Forest σ m hi T F) (S : Spread σ m hi F')
    (hF : ∀ a s, F a s → F' a s) {xs : List Nat} (hi32 : i < 32)
    (hxs : ∀ a ∈ xs, ∃ s, F' a s ∧ 256 ≤ s ∧ computeTreeIndex s = i)
    (hf : Frame (TreeZone m i xs) σ τ) : ∀ j < 32, j ≠ i → TreeBin τ m hi j (T j) := by
  have hti := treebin_bounds (m := m) hi32
  have hxb : ∀ b, Links 64 xs b → m + 936 ≤ b := by
    rintro b ⟨x, hx, h1, h2⟩
    obtain ⟨s, hs, _⟩ := hxs x hx
    have hb := S.bounds _ _ hs
    omega
  intro j hj hne
  refine (hT.bin j hj).frame hf ?_ ?_
  · have htj := treebin_bounds (m := m) hj
    rintro b h1 h2 (h3 | h3 | h3)
    · omega
    · simp only [treebinAt] at h1 h2 h3
      omega
    · have hb := hxb b h3
      omega
  · rintro b ⟨x, hx, h1, h2⟩ (h3 | h3 | ⟨y, hy, h3, h4⟩)
    · obtain ⟨s, hs, _⟩ := hT.addr hj hx
      have hbx := S.bounds _ _ (hF _ _ hs)
      omega
    · obtain ⟨s, hs, _⟩ := hT.addr hj hx
      have hbx := S.bounds _ _ (hF _ _ hs)
      omega
    · obtain ⟨s, hs, h256, hij⟩ := hT.addr hj hx
      obtain ⟨t, ht, h256', hti⟩ := hxs y hy
      rcases S.apart _ _ _ _ (hF _ _ hs) ht with ⟨_, he⟩ | hap | hap
      · rw [he] at hij
        exact hne (hij.symm.trans hti)
      · omega
      · omega

/-- The other trees keep their chunks when one changes. -/
theorem Forest.update {u : Trie} (hT : Forest σ m hi T F) (hi32 : i < 32)
    (hmap : MapAt τ (m + 4) (fun j => Function.update T i u j ≠ .nil))
    (hbin : TreeBin τ m hi i u) (hkeep : ∀ j < 32, j ≠ i → TreeBin τ m hi j (T j))
    (hmem : ∀ a s, (a, s) ∈ u.entries ↔ F' a s ∧ 256 ≤ s ∧ computeTreeIndex s = i)
    (hrest : ∀ a s, computeTreeIndex s ≠ i → (F' a s ↔ F a s)) (hnd : u.addrs.Nodup)
    (hord : u.Ordered (sizeBit i) 0) : Forest τ m hi (Function.update T i u) F' := by
  refine ⟨hmap, fun j hj => ?_, fun j hj a s => ?_, fun j hj => ?_, fun j hj => ?_⟩
  all_goals by_cases hji : j = i
  · subst hji
    simpa using hbin
  · simp only [ne_eq, hji, not_false_eq_true, Function.update_of_ne]
    exact hkeep j hj hji
  · subst hji
    simpa using hmem a s
  · simp only [ne_eq, hji, not_false_eq_true, Function.update_of_ne]
    rw [hT.mem j hj a s]
    constructor
    · rintro ⟨h1, h2, h3⟩
      exact ⟨(hrest a s (h3 ▸ hji)).mpr h1, h2, h3⟩
    · rintro ⟨h1, h2, h3⟩
      exact ⟨(hrest a s (h3 ▸ hji)).mp h1, h2, h3⟩
  · subst hji
    simpa using hnd
  · simp only [ne_eq, hji, not_false_eq_true, Function.update_of_ne]
    exact hT.nodup j hj
  · subst hji
    simpa using hord
  · simp only [ne_eq, hji, not_false_eq_true, Function.update_of_ne]
    exact hT.ordered j hj

/-- A large chunk enters the tree that its size selects. -/
theorem Forest.wp_insertLargeChunk {Q : Unit → State → Prop} (hT : Forest σ m hi T F)
    (A : Arena σ m lo hi) (S : Spread σ m hi F') (hF : ∀ a s, F' a s ↔ F a s ∨ (a = p ∧ s = q))
    (hnew : ∀ s, ¬ F p s) (hq : 256 ≤ q)
    (hQ : ∀ τ T' xs, Forest τ m hi T' F' →
      (∀ a ∈ xs, ∃ s, F' a s ∧ 256 ≤ s ∧ computeTreeIndex s = computeTreeIndex q) →
      Frame (TreeZone m (computeTreeIndex q) xs) σ τ → Q () τ) :
    wp D (insertLargeChunk m p q) Q σ := by
  have hpq : F' p q := (hF p q).mpr (Or.inr ⟨rfl, rfl⟩)
  have hsub : ∀ a s, F a s → F' a s := fun a s h => (hF a s).mpr (Or.inl h)
  generalize hidx : computeTreeIndex q = i at hQ
  have hi32 : i < 32 := hidx ▸ computeTreeIndex_lt q
  have hxs : ∀ a ∈ p :: (T i).addrs, ∃ s, F' a s ∧ 256 ≤ s ∧ computeTreeIndex s = i := by
    intro a ha
    rcases List.mem_cons.mp ha with rfl | ha
    · exact ⟨q, hpq, hq, hidx⟩
    · obtain ⟨s, hs, h⟩ := hT.addr hi32 ha
      exact ⟨s, hsub _ _ hs, h⟩
  have hxs' : ∀ a ∈ p :: (T i).addrs, ∃ s, F' a s ∧ 256 ≤ s := by
    intro a ha
    obtain ⟨s, hs, h256, _⟩ := hxs a ha
    exact ⟨s, hs, h256⟩
  have hnd : (p :: (T i).addrs).Nodup := by
    refine List.nodup_cons.mpr ⟨fun hm => ?_, hT.nodup i hi32⟩
    obtain ⟨s, hs, _⟩ := hT.addr hi32 hm
    exact hnew s hs
  refine Proofs.wp_insertLargeChunk A hidx hi32 hT.map (S.treeNodes hnd hxs') (hT.bin i hi32)
    (hT.heads (S.mono hsub) hi32) ?_
  intro τ hf hmap hbin
  have hperm : ((T i).insert (sizeBit i) p q 0).entries.Perm ((p, q) :: (T i).entries) :=
    insert_entries p (T i) 0
  refine hQ τ _ _ (hT.update hi32 hmap hbin (hT.keep S hsub hi32 hxs hf) ?_ ?_ ?_
    (insert_ordered (hT.ordered i hi32))) hxs hf
  · intro a s
    rw [hperm.mem_iff, List.mem_cons, Prod.mk.injEq, hT.mem i hi32 a s, hF]
    constructor
    · rintro (⟨rfl, rfl⟩ | ⟨h1, h2⟩)
      · exact ⟨Or.inr ⟨rfl, rfl⟩, hq, hidx⟩
      · exact ⟨Or.inl h1, h2⟩
    · rintro ⟨h1 | h1, h2⟩
      · exact Or.inr ⟨h1, h2⟩
      · exact Or.inl h1
  · intro a s hne
    rw [hF]
    exact ⟨fun h => h.resolve_right fun hc => hne (hc.2 ▸ hidx), Or.inl⟩
  · exact (hperm.map Prod.fst).nodup_iff.mpr hnd

/-- A large chunk leaves its tree. -/
theorem Forest.wp_unlinkLargeChunk {Q : Unit → State → Prop} (hT : Forest σ m hi T F)
    (A : Arena σ m lo hi) (S : Spread σ m hi F) (hp : F p q) (hq : 256 ≤ q)
    (hF : ∀ a s, F' a s ↔ F a s ∧ ¬ (a = p ∧ s = q))
    (hQ : ∀ τ T' xs, Forest τ m hi T' F' →
      (∀ a ∈ xs, ∃ s, F a s ∧ 256 ≤ s ∧ computeTreeIndex s = computeTreeIndex q) →
      Frame (TreeZone m (computeTreeIndex q) xs) σ τ → Q () τ) :
    wp D (unlinkLargeChunk m p) Q σ := by
  generalize hidx : computeTreeIndex q = i at hQ
  have hi32 : i < 32 := hidx ▸ computeTreeIndex_lt q
  have hxs : ∀ a ∈ (T i).addrs, ∃ s, F a s ∧ 256 ≤ s ∧ computeTreeIndex s = i :=
    fun a ha => hT.addr hi32 ha
  refine Proofs.wp_unlinkLargeChunk A hi32 hT.map (hT.nodes S hi32) (hT.bin i hi32)
    ((hT.mem i hi32 p q).mpr ⟨hp, hq, hidx⟩) ?_
  intro τ u hf hmap hbin hperm hord
  have hnd : (p :: u.addrs).Nodup := (hperm.map Prod.fst).nodup_iff.mp (hT.nodup i hi32)
  refine hQ τ _ _ (hT.update hi32 hmap hbin (hT.keep S (fun _ _ h => h) hi32 hxs hf) ?_ ?_
    (List.nodup_cons.mp hnd).2 (hord (hT.ordered i hi32))) hxs hf
  · intro a s
    have hm := hT.mem i hi32 a s
    rw [hperm.mem_iff, List.mem_cons, Prod.mk.injEq] at hm
    rw [hF]
    constructor
    · intro hu
      obtain ⟨h1, h2⟩ := hm.mp (Or.inr hu)
      refine ⟨⟨h1, fun hc => ?_⟩, h2⟩
      exact (List.nodup_cons.mp hnd).1 (hc.1 ▸ List.mem_map_of_mem hu)
    · rintro ⟨⟨h1, hne⟩, h2⟩
      rcases hm.mpr ⟨h1, h2⟩ with he | hu
      · exact absurd he hne
      · exact hu
  · intro a s hne
    rw [hF]
    exact ⟨fun h => h.1, fun h => ⟨h, fun hc => hne (hc.2 ▸ hidx)⟩⟩

end

end Mmdata.Proofs
