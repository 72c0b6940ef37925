import Mmdata.Proofs.Shadow

namespace Mmdata.Proofs
open Lib Malloc Relocation

section

variable {σ : State} {a k v t lo n m hi p q b i par : Nat} {h : Heap} {F : Nat → Nat → Prop}
  {pu pu' : Bool} {cs : List Chunk} {l : List Nat} {u : Trie} {P : Nat → Prop} {B : Bins}

/-! What a process sees of a stretch of its memory, it would see without the rest. -/

theorem mapped_narrow (h1 : lo ≤ a) (h2 : a + k ≤ lo + n) :
    (confine σ lo n).mapped a k = true :=
  Machine.mapped_of_mem List.mem_cons_self h1 h2

theorem get_narrow (h : σ.get k a = some v) (h1 : lo ≤ a) (h2 : a + k ≤ lo + n) :
    (confine σ lo n).get k a = some v := by
  simp only [Machine.get, Machine.mapped_of_get h, if_true] at h
  simp only [Machine.get, mapped_narrow h1 h2, if_true]
  exact h

theorem getPtr_narrow (h : σ.getPtr a = some t) (h0 : σ.mapped 0 1 = false) (h1 : lo ≤ a)
    (h2 : a + 8 ≤ lo + n) (ht : t = 0 ∨ lo ≤ t ∧ t < lo + n) :
    (confine σ lo n).getPtr a = some t := by
  simp only [Machine.getPtr] at h ⊢
  cases hw : σ.get 8 a with
  | none =>
    rw [hw] at h
    contradiction
  | some w =>
    rw [hw] at h
    rw [get_narrow hw h1 h2]
    simp only at h ⊢
    by_cases hone : w = 1
    · rw [if_pos hone] at h ⊢
      exact h
    · rw [if_neg hone] at h ⊢
      by_cases hp : σ.mapped (pointsTo a w) 1 = true
      · rw [if_pos hp] at h
        have he := Option.some.inj h
        rw [he] at hp ⊢
        cases ht with
        | inl ht =>
          rw [ht, h0] at hp
          contradiction
        | inr ht => rw [if_pos (mapped_narrow ht.1 (by omega))]
      · rw [if_neg hp] at h
        contradiction

theorem MapAt.narrow (h : MapAt σ a P) (h1 : lo ≤ a) (h2 : a + 4 ≤ lo + n) :
    MapAt (confine σ lo n) a P := by
  obtain ⟨w, hw, hbits⟩ := h
  exact ⟨w, get_narrow hw h1 h2, hbits⟩

theorem dll_narrow (h : Dll (fwd σ) (bwd σ) a l b) (h0 : σ.mapped 0 1 = false)
    (hin : ∀ x ∈ a :: b :: l, lo ≤ x ∧ x + 32 ≤ lo + n) :
    Dll (fwd (confine σ lo n)) (bwd (confine σ lo n)) a l b := by
  have ha := hin a (by simp)
  have hb := hin b (by simp)
  induction l generalizing a with
  | nil =>
    exact ⟨getPtr_narrow h.1 h0 (by omega) (by omega) (Or.inr ⟨hb.1, by omega⟩),
      getPtr_narrow h.2 h0 (by omega) (by omega) (Or.inr ⟨ha.1, by omega⟩)⟩
  | cons x l ih =>
    have hx := hin x (by simp)
    obtain ⟨h1, h2, h3⟩ := h
    refine ⟨getPtr_narrow h1 h0 (by omega) (by omega) (Or.inr ⟨hx.1, by omega⟩),
      getPtr_narrow h2 h0 (by omega) (by omega) (Or.inr ⟨ha.1, by omega⟩), ih h3 ?_ hx⟩
    intro y hy
    apply hin y
    simp only [List.mem_cons] at hy ⊢
    rcases hy with rfl | rfl | hy
    · exact Or.inr (Or.inr (Or.inl rfl))
    · exact Or.inr (Or.inl rfl)
    · exact Or.inr (Or.inr (Or.inr hy))

theorem FieldsAt.narrow {x r s : Nat} (h : FieldsAt σ i par x r s) (h0 : σ.mapped 0 1 = false)
    (hx : lo ≤ x ∧ x + 64 ≤ lo + n) (hpar : par = 0 ∨ lo ≤ par ∧ par < lo + n)
    (hr : r = 0 ∨ lo ≤ r ∧ r < lo + n) (hs : s = 0 ∨ lo ≤ s ∧ s < lo + n) :
    FieldsAt (confine σ lo n) i par x r s :=
  ⟨get_narrow h.idx (by omega) (by omega),
    getPtr_narrow h.parent h0 (by omega) (by omega) hpar,
    getPtr_narrow h.left h0 (by omega) (by omega) hr,
    getPtr_narrow h.right h0 (by omega) (by omega) hs⟩

theorem root_narrow (hin : ∀ x ∈ u.addrs, lo ≤ x ∧ x + 64 ≤ lo + n) :
    u.root = 0 ∨ lo ≤ u.root ∧ u.root < lo + n := by
  by_cases hu : u = .nil
  · rw [hu]
    exact Or.inl rfl
  · obtain ⟨s, hs⟩ := root_mem hu
    have hx := hin u.root (List.mem_map.mpr ⟨_, hs, rfl⟩)
    exact Or.inr ⟨hx.1, by omega⟩

theorem TreeAt.narrow (h : TreeAt σ i par u) (h0 : σ.mapped 0 1 = false)
    (hpar : par = 0 ∨ lo ≤ par ∧ par < lo + n)
    (hin : ∀ x ∈ u.addrs, lo ≤ x ∧ x + 64 ≤ lo + n) : TreeAt (confine σ lo n) i par u := by
  induction u generalizing par with
  | nil => trivial
  | node a s ring l r ihl ihr =>
    obtain ⟨hn, hl, hr⟩ := h
    have hnode : ∀ x ∈ a :: ring, lo ≤ x ∧ x + 64 ≤ lo + n := by
      intro x hx
      apply hin x
      simp only [Trie.addrs, Trie.entries, List.map_append, List.map_map, List.mem_append]
      exact Or.inl (List.mem_map.mpr ⟨x, hx, rfl⟩)
    have hleft : ∀ x ∈ l.addrs, lo ≤ x ∧ x + 64 ≤ lo + n := by
      intro x hx
      apply hin x
      simp only [Trie.addrs, Trie.entries, List.map_append, List.mem_append]
      exact Or.inr (Or.inl hx)
    have hright : ∀ x ∈ r.addrs, lo ≤ x ∧ x + 64 ≤ lo + n := by
      intro x hx
      apply hin x
      simp only [Trie.addrs, Trie.entries, List.map_append, List.mem_append]
      exact Or.inr (Or.inr hx)
    have ha := hnode a List.mem_cons_self
    have hpa : a = 0 ∨ lo ≤ a ∧ a < lo + n := Or.inr ⟨ha.1, by omega⟩
    refine ⟨⟨hn.fields.narrow h0 ha hpar (root_narrow hleft) (root_narrow hright), ?_, ?_⟩,
      ihl hl hpa hleft, ihr hr hpa hright⟩
    · apply dll_narrow hn.linked h0
      intro x hx
      have hxn : x ∈ a :: ring := by
        simpa using hx
      have hb := hnode x hxn
      exact ⟨hb.1, by omega⟩
    · intro x hx
      have hb := hnode x (List.mem_cons_of_mem _ hx)
      exact (hn.member x hx).narrow h0 hb (Or.inl rfl) (Or.inl rfl) (Or.inl rfl)

theorem Tiled.narrow (h : Tiled σ pu p cs pu' q) (h1 : lo ≤ p) (h2 : q + 8 ≤ lo + n) :
    Tiled (confine σ lo n) pu p cs pu' q := by
  induction cs generalizing pu p with
  | nil => exact h
  | cons d cs ih =>
    obtain ⟨ha, hd, ht⟩ := h
    have hle := ht.le
    have hlarge := hd.large
    refine ⟨ha, ⟨hd.align, hlarge, get_narrow hd.head (by omega) (by omega), fun hu => ?_⟩,
      ih ht (by omega)⟩
    exact ⟨(hd.free hu).1, get_narrow (hd.free hu).2 (by omega) (by omega)⟩

theorem Binned.narrow (h : Binned σ m hi B F) (S : Spread σ m hi F) (A : Arena σ m lo hi)
    (h0 : σ.mapped 0 1 = false) (ha : a ≤ m) (hn : hi ≤ a + n) :
    Binned (confine σ a n) m hi B F := by
  have hhigh := A.high
  refine ⟨h.smallMap.narrow (by omega) (by omega), h.treeMap.narrow (by omega) (by omega), ?_, ?_,
    h.smallMem, h.treeMem, h.smallNodup, h.treeNodup, h.ordered⟩
  · intro i hi hne
    apply dll_narrow (h.smallRing i hi hne) h0
    intro x hx
    have hb := (h.smallNodes S A hi).inside x (by simpa using hx)
    omega
  · intro i hi
    have hb := treebin_bounds (m := m) hi
    obtain ⟨hroot, par, hpar, ht⟩ := h.treeBin i hi
    have hin : ∀ x ∈ (B.tree i).addrs, a ≤ x ∧ x + 64 ≤ a + n := by
      intro x hx
      obtain ⟨s, hF, h256, _⟩ := h.treeAddr hi hx
      have hs := S.bounds x s hF
      omega
    exact ⟨getPtr_narrow hroot h0 (by omega) (by omega) (root_narrow hin), par, hpar,
      ht.narrow h0 (Or.inr (by omega)) hin⟩

/-- A heap is one in a process that maps nothing but its stretch. -/
theorem Ok.narrow (O : Ok σ m lo hi h) (h0 : σ.mapped 0 1 = false) (ha : a ≤ lo)
    (hn : hi ≤ a + n) : Ok (confine σ a n) m lo hi h := by
  have C := O.core
  have A := C.arena
  have S := C.scalars
  have hlow := A.low
  have hhigh := A.high
  have hpos := A.pos
  have hword := A.word
  obtain ⟨hroom, htop⟩ := C.foot_behind
  have hdv : h.dv = 0 ∨ a ≤ h.dv ∧ h.dv < a + n := by
    cases O.dvOk with
    | inl hd => exact Or.inl hd.1
    | inr hd =>
      have hb := C.chunk_bounds hd
      simp only at hb
      exact Or.inr ⟨by omega, by omega⟩
  obtain ⟨tc, htc⟩ := S.trimWord
  obtain ⟨rc, hrc⟩ := S.checkWord
  obtain ⟨fl, hfl⟩ := S.flags
  refine ⟨⟨⟨A.align, A.pos, A.low, A.high, A.word, ?_, ?_⟩, ?_, ?_, ?_, C.topAlign, C.topFits, ?_,
    C.binned.narrow (C.spread inBins_free) A h0 (by omega) hn⟩, O.dvOk⟩
  · exact ⟨_, List.mem_cons_self, by omega, hn⟩
  · exact getPtr_narrow A.least h0 (by omega) (by omega) (Or.inr ⟨ha, by omega⟩)
  · exact ⟨getPtr_narrow S.dvPtr h0 (by omega) (by omega) hdv,
      get_narrow S.dvWord (by omega) (by omega),
      getPtr_narrow S.topPtr h0 (by omega) (by omega) (Or.inr ⟨by omega, by omega⟩),
      get_narrow S.topWord (by omega) (by omega), get_narrow S.extsWord (by omega) (by omega),
      ⟨tc, get_narrow htc (by omega) (by omega)⟩, ⟨rc, get_narrow hrc (by omega) (by omega)⟩,
      getPtr_narrow S.segBase h0 (by omega) (by omega) (Or.inr ⟨ha, by omega⟩),
      get_narrow S.segSize (by omega) (by omega),
      getPtr_narrow S.segNext h0 (by omega) (by omega) (Or.inl rfl),
      get_narrow S.segFlags (by omega) (by omega), get_narrow S.footprint (by omega) (by omega),
      get_narrow S.maxFootprint (by omega) (by omega),
      ⟨fl, get_narrow hfl (by omega) (by omega)⟩⟩
  · exact C.tiled.narrow (by omega) (by omega)
  · exact get_narrow C.topHead (by omega) (by omega)
  · exact get_narrow C.topFoot (by omega) (by omega)

end

end Mmdata.Proofs
