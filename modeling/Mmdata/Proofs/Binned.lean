import Mmdata.Proofs.Forest

namespace Mmdata.Proofs
open Lib Malloc

/-- The chunks of every bin. -/
structure Bins where
  small : Nat → List Nat
  tree : Nat → Trie

/-- Every chunk of `F` is in exactly one bin, the one its size selects, and
the bin maps tell which bins are not empty. -/
structure Binned (σ : State) (m hi : Nat) (B : Bins) (F : Nat → Nat → Prop) : Prop where
  smallMap : MapAt σ m (fun i => B.small i ≠ [])
  treeMap : MapAt σ (m + 4) (fun i => B.tree i ≠ .nil)
  smallRing : ∀ i < 32, B.small i ≠ [] →
    LinkRing (fwd σ) (bwd σ) (smallbinAt m i) (B.small i)
  treeBin : ∀ i < 32, TreeBin σ m hi i (B.tree i)
  smallMem : ∀ i < 32, ∀ a, a ∈ B.small i ↔ F a (8 * i)
  treeMem : ∀ i < 32, ∀ a s, (a, s) ∈ (B.tree i).entries ↔
    F a s ∧ 256 ≤ s ∧ computeTreeIndex s = i
  smallNodup : ∀ i < 32, (B.small i).Nodup
  treeNodup : ∀ i < 32, (B.tree i).addrs.Nodup
  ordered : ∀ i < 32, (B.tree i).Ordered (sizeBit i) 0

section

variable {D : Trap → Prop} {σ τ : State} {m lo hi i p q : Nat} {B : Bins}
  {F F' : Nat → Nat → Prop}

theorem smallIndex_eq (q : Nat) : smallIndex q = q / 8 := by
  simp [smallIndex, Nat.shiftRight_eq_div_pow]

theorem isSmall_iff (q : Nat) : isSmall q = true ↔ q < 256 := by
  rw [isSmall, decide_eq_true_iff, Nat.shiftRight_eq_div_pow]
  omega

/-- The nodes of a small bin. -/
theorem Spread.smallNodes (S : Spread σ m hi F) (A : Arena σ m lo hi) (hi32 : i < 32)
    {l : List Nat} (hnd : l.Nodup) (hl : ∀ a ∈ l, F a (8 * i)) :
    Nodes m hi (smallbinAt m i :: l) := by
  have hal := A.align
  have hhigh := A.high
  refine ⟨List.nodup_cons.mpr ⟨fun hm => ?_, hnd⟩, ?_, ?_⟩
  · have hb := S.bounds _ _ (hl _ hm)
    simp only [smallbinAt] at hb
    omega
  · intro x hx
    rcases List.mem_cons.mp hx with rfl | hx
    · simp only [smallbinAt]
      omega
    · have hb := S.bounds _ _ (hl x hx)
      have ha := S.align _ _ (hl x hx)
      omega
  · have hhead : ∀ y ∈ l, smallbinAt m i + 32 ≤ y := by
      intro y hy
      have hb := S.bounds _ _ (hl y hy)
      simp only [smallbinAt]
      omega
    intro x hx y hy
    rcases List.mem_cons.mp hx with rfl | hx
    · rcases List.mem_cons.mp hy with rfl | hy
      · exact Or.inl rfl
      · exact Or.inr (Or.inl (hhead y hy))
    · rcases List.mem_cons.mp hy with rfl | hy
      · exact Or.inr (Or.inr (hhead x hx))
      · have hb := S.bounds _ _ (hl x hx)
        rcases S.apart _ _ _ _ (hl x hx) (hl y hy) with ⟨he, _⟩ | hap | hap
        · exact Or.inl he
        · omega
        · omega

theorem Binned.forest (hB : Binned σ m hi B F) : Forest σ m hi B.tree F :=
  ⟨hB.treeMap, hB.treeBin, hB.treeMem, hB.treeNodup, hB.ordered⟩

theorem Binned.treeAddr (hB : Binned σ m hi B F) (hi32 : i < 32) {a : Nat}
    (ha : a ∈ (B.tree i).addrs) : ∃ s, F a s ∧ 256 ≤ s ∧ computeTreeIndex s = i := by
  obtain ⟨⟨x, s⟩, he, rfl⟩ := List.mem_map.mp ha
  exact ⟨s, (hB.treeMem i hi32 x s).mp he⟩

theorem Binned.treeNodes (hB : Binned σ m hi B F) (S : Spread σ m hi F) (hi32 : i < 32) :
    TreeNodes m hi (B.tree i).addrs := by
  refine S.treeNodes (hB.treeNodup i hi32) ?_
  intro a ha
  obtain ⟨s, hs, h256, _⟩ := hB.treeAddr hi32 ha
  exact ⟨s, hs, h256⟩

theorem Binned.smallNodes (hB : Binned σ m hi B F) (S : Spread σ m hi F) (A : Arena σ m lo hi)
    (hi32 : i < 32) : Nodes m hi (smallbinAt m i :: B.small i) :=
  S.smallNodes A hi32 (hB.smallNodup i hi32) (fun a ha => (hB.smallMem i hi32 a).mp ha)

/-! What an operation on one bin leaves of the others. -/

theorem Spread.small_small (S : Spread σ m hi F) {l l' : List Nat} {j : Nat} (hi32 : i < 32)
    (hj : j < 32) (hne : j ≠ i) (hl : ∀ a ∈ l, F a (8 * i)) (hl' : ∀ a ∈ l', F a (8 * j)) :
    ∀ b, Links 32 (smallbinAt m j :: l') b → ¬ SmallZone m i l b := by
  rintro b ⟨x, hx, h1, h2⟩ (h3 | ⟨y, hy, h3, h4⟩)
  · rcases List.mem_cons.mp hx with rfl | hx
    · simp only [smallbinAt] at h1
      omega
    · have hb := S.bounds _ _ (hl' x hx)
      omega
  · rcases List.mem_cons.mp hx with rfl | hx
    · simp only [smallbinAt] at h1 h2
      rcases List.mem_cons.mp hy with rfl | hy
      · simp only [smallbinAt] at h3 h4
        omega
      · have hb := S.bounds _ _ (hl y hy)
        omega
    · have hbx := S.bounds _ _ (hl' x hx)
      rcases List.mem_cons.mp hy with rfl | hy
      · simp only [smallbinAt] at h3 h4
        omega
      · have hby := S.bounds _ _ (hl y hy)
        rcases S.apart _ _ _ _ (hl' x hx) (hl y hy) with ⟨_, he⟩ | hap | hap <;> omega

theorem Spread.small_tree (S : Spread σ m hi F) {l xs : List Nat} (hi32 : i < 32)
    (hl : ∀ a ∈ l, F a (8 * i)) (hxs : ∀ a ∈ xs, ∃ s, F a s ∧ 256 ≤ s) :
    (∀ b, Links 64 xs b → ¬ SmallZone m i l b) ∧
      ∀ b, Links 32 (smallbinAt m i :: l) b → ¬ Links 64 xs b := by
  have hkey : ∀ b, Links 64 xs b → ¬ Links 32 (smallbinAt m i :: l) b := by
    rintro b ⟨x, hx, h1, h2⟩ ⟨y, hy, h3, h4⟩
    obtain ⟨s, hs, h256⟩ := hxs x hx
    have hbx := S.bounds _ _ hs
    rcases List.mem_cons.mp hy with rfl | hy
    · simp only [smallbinAt] at h3 h4
      omega
    · have hby := S.bounds _ _ (hl y hy)
      rcases S.apart _ _ _ _ hs (hl y hy) with ⟨_, he⟩ | hap | hap <;> omega
  refine ⟨?_, fun b hb hc => hkey b hc hb⟩
  rintro b hb (h3 | h3)
  · obtain ⟨x, hx, h1, h2⟩ := hb
    obtain ⟨s, hs, _⟩ := hxs x hx
    have hbx := S.bounds _ _ hs
    omega
  · exact hkey b hb h3

theorem treebin_small {l : List Nat} {j b : Nat} (S : Spread σ m hi F) (hj : j < 32)
    (hi32 : i < 32) (hl : ∀ a ∈ l, F a (8 * i)) (h1 : treebinAt m j ≤ b)
    (h2 : b < treebinAt m j + 8) : ¬ SmallZone m i l b := by
  have hb := treebin_bounds (m := m) hj
  rintro (h3 | ⟨y, hy, h3, h4⟩)
  · omega
  · rcases List.mem_cons.mp hy with rfl | hy
    · simp only [smallbinAt] at h3 h4
      omega
    · have hby := S.bounds _ _ (hl y hy)
      omega

/-- After a change in small bin `i`, the other small bins and the trees are what they were. -/
theorem Binned.keep_small (hB : Binned σ m hi B F) (S : Spread σ m hi F')
    (hF : ∀ a s, F a s → F' a s) {l : List Nat} (hi32 : i < 32) (hl : ∀ a ∈ l, F' a (8 * i))
    (hf : Frame (SmallZone m i l) σ τ) :
    MapAt τ (m + 4) (fun j => B.tree j ≠ .nil) ∧
    (∀ j < 32, j ≠ i → B.small j ≠ [] →
      LinkRing (fwd τ) (bwd τ) (smallbinAt m j) (B.small j)) ∧
    ∀ j < 32, TreeBin τ m hi j (B.tree j) := by
  refine ⟨hB.treeMap.frame hf ?_, fun j hj hne hnil => ?_, fun j hj => ?_⟩
  · rintro b h1 h2 (h3 | ⟨y, hy, h3, h4⟩)
    · omega
    · rcases List.mem_cons.mp hy with rfl | hy
      · simp only [smallbinAt] at h3
        omega
      · have hby := S.bounds _ _ (hl y hy)
        omega
  · exact ring_frame (hB.smallRing j hj hnil) hf (S.small_small hi32 hj hne hl
      (fun a ha => hF _ _ ((hB.smallMem j hj a).mp ha)))
  · refine (hB.treeBin j hj).frame hf (fun b => treebin_small S hj hi32 hl) ?_
    refine (S.small_tree hi32 hl ?_).1
    intro a ha
    obtain ⟨s, hs, h256, _⟩ := hB.treeAddr hj ha
    exact ⟨s, hF _ _ hs, h256⟩

/-- After a change in tree `i`, the small bins are what they were. -/
theorem Binned.keep_tree (hB : Binned σ m hi B F) (S : Spread σ m hi F')
    (hF : ∀ a s, F a s → F' a s) {xs : List Nat} (hi32 : i < 32)
    (hxs : ∀ a ∈ xs, ∃ s, F' a s ∧ 256 ≤ s ∧ computeTreeIndex s = i)
    (hf : Frame (TreeZone m i xs) σ τ) :
    MapAt τ m (fun j => B.small j ≠ []) ∧
    ∀ j < 32, B.small j ≠ [] → LinkRing (fwd τ) (bwd τ) (smallbinAt m j) (B.small j) := by
  have hti := treebin_bounds (m := m) hi32
  have hxb : ∀ b, Links 64 xs b → m + 936 ≤ b := by
    rintro b ⟨x, hx, h1, h2⟩
    obtain ⟨s, hs, _⟩ := hxs x hx
    have hb := S.bounds _ _ hs
    omega
  refine ⟨hB.smallMap.frame hf ?_, fun j hj hnil => ?_⟩
  · rintro b h1 h2 (h3 | h3 | h3)
    · omega
    · omega
    · have hb := hxb b h3
      omega
  · refine ring_frame (hB.smallRing j hj hnil) hf ?_
    have hl : ∀ a ∈ B.small j, F' a (8 * j) := fun a ha => hF _ _ ((hB.smallMem j hj a).mp ha)
    rintro b hb (h3 | h3 | h3)
    · obtain ⟨x, hx, h1, h2⟩ := hb
      rcases List.mem_cons.mp hx with rfl | hx
      · simp only [smallbinAt] at h1
        omega
      · have hbx := S.bounds _ _ (hl x hx)
        omega
    · obtain ⟨x, hx, h1, h2⟩ := hb
      rcases List.mem_cons.mp hx with rfl | hx
      · simp only [smallbinAt] at h2
        omega
      · have hbx := S.bounds _ _ (hl x hx)
        omega
    · refine (S.small_tree hj hl ?_).2 b hb h3
      intro a ha
      obtain ⟨s, hs, h256, _⟩ := hxs a ha
      exact ⟨s, hs, h256⟩

theorem smallZone_binZone (hi32 : i < 32) {l : List Nat} (hl : ∀ a ∈ l, F a (8 * i))
    (S : Spread σ m hi F) : ∀ b, SmallZone m i l b → BinZone m F b := by
  rintro b (h | ⟨x, hx, h1, h2⟩)
  · exact Or.inl (by omega)
  · rcases List.mem_cons.mp hx with rfl | hx
    · simp only [smallbinAt] at h1 h2
      exact Or.inr (Or.inl (by omega))
    · have hb := S.bounds _ _ (hl x hx)
      exact Or.inr (Or.inr ⟨x, _, hl x hx, h1, by omega⟩)

/-! Chunks enter and leave the bins. -/

theorem wp_binSmall {Q : Unit → State → Prop} (A : Arena σ m lo hi) (S : Spread σ m hi F')
    (hB : Binned σ m hi B F) (hF : ∀ a s, F' a s ↔ F a s ∨ (a = p ∧ s = q)) (hnew : ∀ s, ¬ F p s)
    (hq : q < 256)
    (hQ : ∀ τ B', Binned τ m hi B' F' → Frame (BinZone m F') σ τ → Q () τ) :
    wp D (insertSmallChunk m p q) Q σ := by
  have hpq : F' p q := (hF p q).mpr (Or.inr ⟨rfl, rfl⟩)
  have hsub : ∀ a s, F a s → F' a s := fun a s h => (hF a s).mpr (Or.inl h)
  obtain ⟨_, hq8⟩ := S.align p q hpq
  have hi32 : q / 8 < 32 := by omega
  have h8 : 8 * (q / 8) = q := by omega
  have hl : ∀ a ∈ p :: B.small (q / 8), F' a (8 * (q / 8)) := by
    intro a ha
    rcases List.mem_cons.mp ha with rfl | ha
    · rw [h8]
      exact hpq
    · exact hsub _ _ ((hB.smallMem _ hi32 a).mp ha)
  have hnd : (p :: B.small (q / 8)).Nodup := List.nodup_cons.mpr
    ⟨fun hm => hnew _ ((hB.smallMem _ hi32 p).mp hm), hB.smallNodup _ hi32⟩
  refine wp_insertSmallChunk A (smallIndex_eq q) hi32 hB.smallMap (S.smallNodes A hi32 hnd hl)
    (hB.smallRing _ hi32) ?_
  intro τ hf hmap hring
  obtain ⟨htm, hsr, htb⟩ := hB.keep_small S hsub hi32 hl hf
  refine hQ τ ⟨Function.update B.small (q / 8) (p :: B.small (q / 8)), B.tree⟩
    ⟨hmap, htm, fun j hj hne => ?_, htb, fun j hj a => ?_, fun j hj a s => ?_, fun j hj => ?_,
      hB.treeNodup, hB.ordered⟩ (hf.mono (smallZone_binZone hi32 hl S))
  · by_cases hji : j = q / 8
    · subst hji
      simpa using hring
    · simp only [ne_eq, hji, not_false_eq_true, Function.update_of_ne] at hne ⊢
      exact hsr j hj hji hne
  · by_cases hji : j = q / 8
    · subst hji
      simp only [Function.update_self, List.mem_cons, hF, h8]
      have hm := hB.smallMem _ hi32 a
      rw [h8] at hm
      rw [hm]
      simp [or_comm]
    · simp only [ne_eq, hji, not_false_eq_true, Function.update_of_ne, hF, hB.smallMem j hj a]
      have hne : 8 * j ≠ q := by omega
      simp [hne]
  · simp only [hB.treeMem j hj a s, hF]
    constructor
    · rintro ⟨h1, h2⟩
      exact ⟨Or.inl h1, h2⟩
    · rintro ⟨h1 | ⟨_, rfl⟩, h2⟩
      · exact ⟨h1, h2⟩
      · omega
  · by_cases hji : j = q / 8
    · subst hji
      simpa using hnd
    · simp only [ne_eq, hji, not_false_eq_true, Function.update_of_ne]
      exact hB.smallNodup j hj

/-- The small bins, the trees and their chunks are what a bin operation on large chunks makes
them. -/
theorem Binned.replant {T : Nat → Trie} (hB : Binned σ m hi B F) (hT : Forest τ m hi T F')
    (hF : ∀ a s, s < 256 → (F' a s ↔ F a s))
    (hmap : MapAt τ m (fun j => B.small j ≠ []))
    (hring : ∀ j < 32, B.small j ≠ [] → LinkRing (fwd τ) (bwd τ) (smallbinAt m j) (B.small j)) :
    Binned τ m hi ⟨B.small, T⟩ F' := by
  refine ⟨hmap, hT.map, hring, hT.bin, fun j hj a => ?_, hT.mem, hB.smallNodup, hT.nodup,
    hT.ordered⟩
  rw [hB.smallMem j hj a, hF a (8 * j) (by omega)]

theorem wp_binLarge {Q : Unit → State → Prop} (A : Arena σ m lo hi) (S : Spread σ m hi F')
    (hB : Binned σ m hi B F) (hF : ∀ a s, F' a s ↔ F a s ∨ (a = p ∧ s = q)) (hnew : ∀ s, ¬ F p s)
    (hq : 256 ≤ q)
    (hQ : ∀ τ B', Binned τ m hi B' F' → Frame (BinZone m F') σ τ → Q () τ) :
    wp D (insertLargeChunk m p q) Q σ := by
  refine hB.forest.wp_insertLargeChunk A S hF hnew hq ?_
  intro τ T xs hT hxs hf
  have hsub : ∀ a s, F a s → F' a s := fun a s h => (hF a s).mpr (Or.inl h)
  have hi32 := computeTreeIndex_lt q
  obtain ⟨hsm, hsr⟩ := hB.keep_tree S hsub hi32 hxs hf
  refine hQ τ _ (hB.replant hT ?_ hsm hsr) (hf.mono (treeZone_binZone hi32 fun a ha => ?_))
  · intro a s hs
    rw [hF]
    exact ⟨fun h => h.resolve_right (by omega), Or.inl⟩
  · obtain ⟨s, hs, h256, _⟩ := hxs a ha
    exact ⟨s, hs, h256⟩

/-- A free chunk goes to the bin its size selects. -/
theorem wp_insertChunk {Q : Unit → State → Prop} (A : Arena σ m lo hi) (S : Spread σ m hi F')
    (hB : Binned σ m hi B F) (hF : ∀ a s, F' a s ↔ F a s ∨ (a = p ∧ s = q)) (hnew : ∀ s, ¬ F p s)
    (hQ : ∀ τ B', Binned τ m hi B' F' → Frame (BinZone m F') σ τ → Q () τ) :
    wp D (insertChunk m p q) Q σ := by
  unfold insertChunk
  by_cases hs : isSmall q = true
  · rw [wp_if_pos hs]
    exact wp_binSmall A S hB hF hnew ((isSmall_iff q).mp hs) hQ
  · rw [wp_if_neg hs]
    have hq : 256 ≤ q := by
      rw [isSmall_iff] at hs
      omega
    exact wp_binLarge A S hB hF hnew hq hQ

/-- A small bin has lost one chunk. -/
theorem Binned.unlinked {l : List Nat} (hB : Binned σ m hi B F) (S : Spread σ m hi F)
    (hi32 : i < 32) (hp : F p (8 * i)) (hF : ∀ a s, F' a s ↔ F a s ∧ ¬ (a = p ∧ s = 8 * i))
    (hl : (B.small i).Perm (p :: l)) (hu : SmallUnlinked m i B.small l σ τ) :
    Binned τ m hi ⟨Function.update B.small i l, B.tree⟩ F' ∧ Frame (BinZone m F) σ τ := by
  have hmem : ∀ a ∈ B.small i, F a (8 * i) := fun a ha => (hB.smallMem i hi32 a).mp ha
  have hnd : (p :: l).Nodup := hl.nodup_iff.mp (hB.smallNodup i hi32)
  obtain ⟨htm, hsr, htb⟩ := hB.keep_small S (fun _ _ h => h) hi32 hmem hu.frame
  refine ⟨⟨hu.map, htm, fun j hj hne => ?_, htb, fun j hj a => ?_, fun j hj a s => ?_,
    fun j hj => ?_, hB.treeNodup, hB.ordered⟩,
    hu.frame.mono (smallZone_binZone hi32 hmem S)⟩
  · by_cases hji : j = i
    · subst hji
      simp only [Function.update_self] at hne ⊢
      exact hu.ring hne
    · simp only [ne_eq, hji, not_false_eq_true, Function.update_of_ne] at hne ⊢
      exact hsr j hj hji hne
  · by_cases hji : j = i
    · subst hji
      have hm := hB.smallMem j hj a
      rw [hl.mem_iff, List.mem_cons] at hm
      simp only [Function.update_self]
      rw [hF, ← hm]
      constructor
      · intro ha
        exact ⟨Or.inr ha, fun hc => (List.nodup_cons.mp hnd).1 (hc.1 ▸ ha)⟩
      · rintro ⟨rfl | ha, hne⟩
        · exact absurd ⟨rfl, rfl⟩ hne
        · exact ha
    · simp only [ne_eq, hji, not_false_eq_true, Function.update_of_ne, hF, hB.smallMem j hj a]
      have hne : 8 * j ≠ 8 * i := by omega
      simp [hne]
  · rw [hB.treeMem j hj a s, hF]
    constructor
    · rintro ⟨h1, h2, h3⟩
      exact ⟨⟨h1, fun hc => by omega⟩, h2, h3⟩
    · rintro ⟨⟨h1, _⟩, h2⟩
      exact ⟨h1, h2⟩
  · by_cases hji : j = i
    · subst hji
      simp only [Function.update_self]
      exact (List.nodup_cons.mp hnd).2
    · simp only [ne_eq, hji, not_false_eq_true, Function.update_of_ne]
      exact hB.smallNodup j hj

theorem wp_unbinLarge {Q : Unit → State → Prop} (A : Arena σ m lo hi) (S : Spread σ m hi F)
    (hB : Binned σ m hi B F) (hp : F p q) (hq : 256 ≤ q)
    (hF : ∀ a s, F' a s ↔ F a s ∧ ¬ (a = p ∧ s = q))
    (hQ : ∀ τ B', Binned τ m hi B' F' → Frame (BinZone m F) σ τ → Q () τ) :
    wp D (unlinkLargeChunk m p) Q σ := by
  refine hB.forest.wp_unlinkLargeChunk A S hp hq hF ?_
  intro τ T xs hT hxs hf
  have hi32 := computeTreeIndex_lt q
  obtain ⟨hsm, hsr⟩ := hB.keep_tree S (fun _ _ h => h) hi32 hxs hf
  refine hQ τ _ (hB.replant hT ?_ hsm hsr) (hf.mono (treeZone_binZone hi32 fun a ha => ?_))
  · intro a s hs
    rw [hF]
    exact ⟨fun h => h.1, fun h => ⟨h, by omega⟩⟩
  · obtain ⟨s, hs, h256, _⟩ := hxs a ha
    exact ⟨s, hs, h256⟩

/-- A binned chunk leaves its bin. -/
theorem wp_unlinkChunk {Q : Unit → State → Prop} (A : Arena σ m lo hi) (S : Spread σ m hi F)
    (hB : Binned σ m hi B F) (hp : F p q) (hF : ∀ a s, F' a s ↔ F a s ∧ ¬ (a = p ∧ s = q))
    (hQ : ∀ τ B', Binned τ m hi B' F' → Frame (BinZone m F) σ τ → Q () τ) :
    wp D (unlinkChunk m p q) Q σ := by
  unfold unlinkChunk
  by_cases hs : isSmall q = true
  · rw [wp_if_pos hs]
    have hq := (isSmall_iff q).mp hs
    have hq8 := (S.align p q hp).2
    have hi32 : q / 8 < 32 := by omega
    have h8 : 8 * (q / 8) = q := by omega
    have hp' : F p (8 * (q / 8)) := h8.symm ▸ hp
    have hmem : p ∈ B.small (q / 8) := (hB.smallMem _ hi32 p).mpr hp'
    obtain ⟨l₁, l₂, hl⟩ := List.append_of_mem hmem
    refine wp_unlinkSmallChunk A (smallIndex_eq q) hi32 hB.smallMap (hB.smallNodes S A hi32) hl
      (hB.smallRing _ hi32 (List.ne_nil_of_mem hmem)) ?_
    intro τ hu
    have hperm : (B.small (q / 8)).Perm (p :: (l₁ ++ l₂)) := hl ▸ List.perm_middle
    obtain ⟨hB', hf⟩ := hB.unlinked S hi32 hp' (by rw [h8]; exact hF) hperm hu
    exact hQ τ _ hB' hf
  · rw [wp_if_neg hs]
    have hq : 256 ≤ q := by
      rw [isSmall_iff] at hs
      omega
    exact wp_unbinLarge A S hB hp hq hF hQ

/-- The first chunk of a small bin leaves it. -/
theorem wp_unbinFirst {Q : Unit → State → Prop} {l : List Nat} (A : Arena σ m lo hi)
    (S : Spread σ m hi F) (hB : Binned σ m hi B F) (hi32 : i < 32) (hl : B.small i = p :: l)
    (hF : ∀ a s, F' a s ↔ F a s ∧ ¬ (a = p ∧ s = 8 * i))
    (hQ : ∀ τ B', Binned τ m hi B' F' → Frame (BinZone m F) σ τ → Q () τ) :
    wp D (unlinkFirstSmallChunk m (smallbinAt m i) p i) Q σ := by
  have hmem : p ∈ B.small i := by
    rw [hl]
    exact List.mem_cons_self
  refine wp_unlinkFirstSmallChunk A hi32 hB.smallMap (hB.smallNodes S A hi32) hl
    (hB.smallRing _ hi32 (List.ne_nil_of_mem hmem)) ?_
  intro τ hu
  obtain ⟨hB', hf⟩ := hB.unlinked S hi32 ((hB.smallMem _ hi32 p).mp hmem) hF (hl ▸ List.Perm.refl _)
    hu
  exact hQ τ _ hB' hf

end

end Mmdata.Proofs
