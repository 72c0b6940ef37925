import Mmdata.Lib.Trie

namespace Mmdata.Lib

/-- The item `e` becomes the best so far if its key is large enough and below
that of the best before. -/
def take (nb : Nat) (best : Option (Nat × Nat)) (e : Nat × Nat) : Option (Nat × Nat) :=
  if nb ≤ e.2 ∧ ∀ b ∈ best, e.2 < b.2 then some e else best

/-- What was found is no worse than the key `k`. -/
def AtMost (best : Option (Nat × Nat)) (k : Nat) : Prop := ∃ b ∈ best, b.2 ≤ k

/-- Keys that agree on the bits before `d` are ordered by bit `d`. -/
def BitOrder (bit : Nat → Nat → Bool) (K : Nat → Prop) : Prop :=
  ∀ x y d, K x → K y → (∀ j < d, bit x j = bit y j) → bit x d = false → bit y d = true → x < y

namespace Trie

/-- The best item on the leftmost path, if it beats `best`. -/
def leftmost (nb : Nat) : Trie → Option (Nat × Nat) → Option (Nat × Nat)
  | nil, best => best
  | node a s _ l r, best =>
    match l with
    | nil => r.leftmost nb (take nb best (a, s))
    | node _ _ _ _ _ => l.leftmost nb (take nb best (a, s))

/-- Follow the bits of `nb` down to its own key or to a leaf: the subtree to go on
with and the best item on the way. `rst` is the deepest right subtree not taken. -/
def descend (bit : Nat → Nat → Bool) (nb : Nat) :
    Nat → Trie → Option (Nat × Nat) → Trie → Trie × Option (Nat × Nat)
  | _, nil, best, rst => (rst, best)
  | d, node a s ring l r, best, rst =>
    if s = nb then (node a s ring l r, some (a, s))
    else if bit nb d then r.descend bit nb (d + 1) (take nb best (a, s)) rst
    else
      match r with
      | nil => l.descend bit nb (d + 1) (take nb best (a, s)) rst
      | node _ _ _ _ _ => l.descend bit nb (d + 1) (take nb best (a, s)) r

/-- The items on the leftmost path. -/
def leftPath : Trie → List (Nat × Nat)
  | nil => []
  | node a s _ l r =>
    match l with
    | nil => (a, s) :: r.leftPath
    | node _ _ _ _ _ => (a, s) :: l.leftPath

/-- The items on the way down along the bits of `nb`. -/
def route (bit : Nat → Nat → Bool) (nb : Nat) : Nat → Trie → List (Nat × Nat)
  | _, nil => []
  | d, node a s _ l r =>
    (a, s) :: if bit nb d then r.route bit nb (d + 1) else l.route bit nb (d + 1)

/-- The deepest right subtree beside that way, or `rst`. -/
def beside (bit : Nat → Nat → Bool) (nb : Nat) : Nat → Trie → Trie → Trie
  | _, nil, rst => rst
  | d, node _ _ _ l r, rst =>
    if bit nb d then r.beside bit nb (d + 1) rst
    else
      match r with
      | nil => l.beside bit nb (d + 1) rst
      | node _ _ _ _ _ => l.beside bit nb (d + 1) r

/-- The keys of the tree agree on the bits before `d`. -/
def Agree (bit : Nat → Nat → Bool) (d : Nat) (t : Trie) : Prop :=
  ∀ e ∈ t.entries, ∀ f ∈ t.entries, ∀ j < d, bit e.2 j = bit f.2 j

/-- The keys of the tree agree with `nb` on the bits before `d`. -/
def Below (bit : Nat → Nat → Bool) (nb d : Nat) (t : Trie) : Prop :=
  ∀ e ∈ t.entries, ∀ j < d, bit e.2 j = bit nb j

/-- A subtree in which every item fits. -/
def Fits (bit : Nat → Nat → Bool) (K : Nat → Prop) (nb : Nat) (t : Trie) : Prop :=
  (∀ e ∈ t.entries, K e.2 ∧ nb ≤ e.2) ∧ ∃ d, t.Ordered bit d ∧ t.Agree bit d

end Trie

section

variable {bit : Nat → Nat → Bool} {nb a s d k : Nat} {ring : List Nat} {l r t u rst : Trie}
  {best : Option (Nat × Nat)} {b e : Nat × Nat} {K : Nat → Prop}

theorem take_mem (h : b ∈ take nb best e) : b = e ∧ nb ≤ e.2 ∨ b ∈ best := by
  unfold take at h
  split at h
  · rename_i hc
    cases h
    exact Or.inl ⟨rfl, hc.1⟩
  · exact Or.inr h

theorem take_key (h : nb ≤ e.2) : AtMost (take nb best e) e.2 := by
  unfold take
  by_cases hc : ∀ b ∈ best, e.2 < b.2
  · rw [if_pos ⟨h, hc⟩]
    exact ⟨e, rfl, Nat.le_refl _⟩
  · rw [if_neg (fun hn => hc hn.2)]
    simp only [not_forall, Nat.not_lt] at hc
    obtain ⟨b, hb, hle⟩ := hc
    exact ⟨b, hb, hle⟩

theorem AtMost.take (h : AtMost best k) : AtMost (take nb best e) k := by
  obtain ⟨b, hb, hle⟩ := h
  unfold Lib.take
  split
  · rename_i hc
    have hlt := hc.2 b hb
    exact ⟨e, rfl, by omega⟩
  · exact ⟨b, hb, hle⟩

theorem AtMost.le {k' : Nat} (h : AtMost best k) (hk : k ≤ k') : AtMost best k' := by
  obtain ⟨b, hb, hle⟩ := h
  exact ⟨b, hb, Nat.le_trans hle hk⟩

theorem AtMost.leftmost (h : AtMost best k) : AtMost (t.leftmost nb best) k := by
  induction t generalizing best with
  | nil => exact h
  | node a s ring l r ihl ihr =>
    cases l with
    | nil => exact ihr h.take
    | node => exact ihl h.take

/-- What the leftmost path gives is an item of the tree that fits, or the best
before. -/
theorem leftmost_mem (h : b ∈ t.leftmost nb best) : b ∈ t.entries ∧ nb ≤ b.2 ∨ b ∈ best := by
  induction t generalizing best with
  | nil => exact Or.inr h
  | node a s ring l r ihl ihr =>
    have hrest : ∀ c : Trie, (∀ e ∈ c.entries, e ∈ (Trie.node a s ring l r).entries) →
        (b ∈ c.entries ∧ nb ≤ b.2 ∨ b ∈ take nb best (a, s)) →
        b ∈ (Trie.node a s ring l r).entries ∧ nb ≤ b.2 ∨ b ∈ best := by
      intro c hc hb
      cases hb with
      | inl hb => exact Or.inl ⟨hc b hb.1, hb.2⟩
      | inr hb =>
        cases take_mem hb with
        | inl hb =>
          obtain ⟨rfl, hle⟩ := hb
          exact Or.inl ⟨mem_node_entries.mpr (Or.inl ⟨by simp, rfl⟩), hle⟩
        | inr hb => exact Or.inr hb
    cases l with
    | nil => exact hrest r (fun e he => mem_node_entries.mpr (Or.inr (Or.inr he))) (ihr h)
    | node => exact hrest _ (fun e he => mem_node_entries.mpr (Or.inr (Or.inl he))) (ihl h)

theorem Trie.Agree.left (h : (Trie.node a s ring l r).Agree bit d)
    (ho : (Trie.node a s ring l r).Ordered bit d) : l.Agree bit (d + 1) := by
  intro e he f hf j hj
  by_cases hjd : j < d
  · exact h e (mem_node_entries.mpr (Or.inr (Or.inl he))) f
      (mem_node_entries.mpr (Or.inr (Or.inl hf))) j hjd
  · have hjd' : j = d := by omega
    subst hjd'
    exact (ho.1 e he).2.trans (ho.1 f hf).2.symm

theorem Trie.Agree.right (h : (Trie.node a s ring l r).Agree bit d)
    (ho : (Trie.node a s ring l r).Ordered bit d) : r.Agree bit (d + 1) := by
  intro e he f hf j hj
  by_cases hjd : j < d
  · exact h e (mem_node_entries.mpr (Or.inr (Or.inr he))) f
      (mem_node_entries.mpr (Or.inr (Or.inr hf))) j hjd
  · have hjd' : j = d := by omega
    subst hjd'
    exact (ho.2.1 e he).2.trans (ho.2.1 f hf).2.symm

/-- Where every item fits, the leftmost path has the least. -/
theorem leftmost_least (hL : BitOrder bit K) (hK : ∀ e ∈ t.entries, K e.2)
    (ho : t.Ordered bit d) (hA : t.Agree bit d) (hf : ∀ e ∈ t.entries, nb ≤ e.2)
    (he : e ∈ t.entries) : AtMost (t.leftmost nb best) e.2 := by
  induction t generalizing best d e with
  | nil => simp [Trie.entries] at he
  | node a s ring l r ihl ihr =>
    have hroot : nb ≤ s := hf (a, s) (mem_node_entries.mpr (Or.inl ⟨by simp, rfl⟩))
    have hown : AtMost (take nb best (a, s)) s := take_key (e := (a, s)) hroot
    have hin : ∀ f ∈ r.entries, f ∈ (Trie.node a s ring l r).entries :=
      fun f hf => mem_node_entries.mpr (Or.inr (Or.inr hf))
    have hin' : ∀ f ∈ l.entries, f ∈ (Trie.node a s ring l r).entries :=
      fun f hf => mem_node_entries.mpr (Or.inr (Or.inl hf))
    cases l with
    | nil =>
      show AtMost (r.leftmost nb _) e.2
      rcases mem_node_entries.mp he with hc | hc | hc
      · rw [hc.2]
        exact hown.leftmost
      · simp [Trie.entries] at hc
      · exact ihr (fun f h => hK f (hin f h)) ho.2.2.2 (hA.right ho) (fun f h => hf f (hin f h)) hc
    | node b k ring' l' r' =>
      show AtMost ((Trie.node b k ring' l' r').leftmost nb _) e.2
      have hleft : ∀ f ∈ (Trie.node b k ring' l' r').entries,
          AtMost ((Trie.node b k ring' l' r').leftmost nb (take nb best (a, s))) f.2 :=
        fun f hfl => ihl (fun f h => hK f (hin' f h)) ho.2.2.1 (hA.left ho)
          (fun f h => hf f (hin' f h)) hfl
      rcases mem_node_entries.mp he with hc | hc | hc
      · rw [hc.2]
        exact hown.leftmost
      · exact hleft e hc
      · -- all of the left subtree comes before all of the right one
        have hb : (b, k) ∈ (Trie.node b k ring' l' r').entries :=
          mem_node_entries.mpr (Or.inl ⟨by simp, rfl⟩)
        have hlt := hL k e.2 d (hK (b, k) (hin' _ hb)) (hK e (hin e hc))
          (hA (b, k) (hin' _ hb) e (hin e hc)) (ho.1 (b, k) hb).2 (ho.2.1 e hc).2
        exact (hleft (b, k) hb).le (Nat.le_of_lt hlt)

/-- What the descent gives is in the tree, in `rst`, or the best before. -/
theorem descend_mem (h : b ∈ (t.descend bit nb d best rst).2) :
    b ∈ t.entries ∧ nb ≤ b.2 ∨ b ∈ best := by
  induction t generalizing best d rst with
  | nil => exact Or.inr h
  | node a s ring l r ihl ihr =>
    have hrest : ∀ c : Trie, (∀ e ∈ c.entries, e ∈ (Trie.node a s ring l r).entries) →
        (b ∈ c.entries ∧ nb ≤ b.2 ∨ b ∈ take nb best (a, s)) →
        b ∈ (Trie.node a s ring l r).entries ∧ nb ≤ b.2 ∨ b ∈ best := by
      intro c hc hb
      cases hb with
      | inl hb => exact Or.inl ⟨hc b hb.1, hb.2⟩
      | inr hb =>
        cases take_mem hb with
        | inl hb =>
          obtain ⟨rfl, hle⟩ := hb
          exact Or.inl ⟨mem_node_entries.mpr (Or.inl ⟨by simp, rfl⟩), hle⟩
        | inr hb => exact Or.inr hb
    have hr := hrest r (fun e he => mem_node_entries.mpr (Or.inr (Or.inr he)))
    have hl := hrest l (fun e he => mem_node_entries.mpr (Or.inr (Or.inl he)))
    unfold Trie.descend at h
    split at h
    · rename_i hs
      cases h
      exact Or.inl ⟨mem_node_entries.mpr (Or.inl ⟨by simp, rfl⟩), by simp [hs]⟩
    · split at h
      · exact hr (ihr h)
      · split at h
        · exact hl (ihl h)
        · exact hl (ihl h)

/-- Whatever holds of the tree and of `rst`, and passes to subtrees, holds of the
subtree that the descent goes on with. -/
theorem descend_sub {P : Trie → Prop}
    (hP : ∀ a s ring l r, P (.node a s ring l r) → P l ∧ P r) (ht : P t) (hr : P rst) :
    P (t.descend bit nb d best rst).1 := by
  induction t generalizing best d rst with
  | nil => exact hr
  | node a s ring l r ihl ihr =>
    obtain ⟨hl', hr'⟩ := hP a s ring l r ht
    unfold Trie.descend
    split
    · exact ht
    · split
      · exact ihr hr' hr
      · split
        · exact ihl hl' hr
        · exact ihl hl' hr'

theorem AtMost.descend (h : AtMost best k) (hk : nb ≤ k) :
    AtMost (t.descend bit nb d best rst).2 k := by
  induction t generalizing best d rst with
  | nil => exact h
  | node a s ring l r ihl ihr =>
    unfold Trie.descend
    split
    · rename_i hs
      exact ⟨(a, s), rfl, by simpa [hs] using hk⟩
    · split
      · exact ihr h.take
      · split
        · exact ihl h.take
        · exact ihl h.take

theorem Trie.Below.left (h : (Trie.node a s ring l r).Below bit nb d)
    (ho : (Trie.node a s ring l r).Ordered bit d) (hb : bit nb d = false) :
    l.Below bit nb (d + 1) := by
  intro e he j hj
  by_cases hjd : j < d
  · exact h e (mem_node_entries.mpr (Or.inr (Or.inl he))) j hjd
  · have hjd' : j = d := by omega
    subst hjd'
    exact (ho.1 e he).2.trans hb.symm

theorem Trie.Below.right (h : (Trie.node a s ring l r).Below bit nb d)
    (ho : (Trie.node a s ring l r).Ordered bit d) (hb : bit nb d = true) :
    r.Below bit nb (d + 1) := by
  intro e he j hj
  by_cases hjd : j < d
  · exact h e (mem_node_entries.mpr (Or.inr (Or.inr he))) j hjd
  · have hjd' : j = d := by omega
    subst hjd'
    exact (ho.2.1 e he).2.trans hb.symm

theorem Trie.Below.agree (h : t.Below bit nb d) : t.Agree bit d :=
  fun e he f hf j hj => (h e he j hj).trans (h f hf j hj).symm

theorem Trie.Fits.nil : Trie.nil.Fits bit K nb :=
  ⟨by simp [Trie.entries], 0, trivial, by simp [Trie.Agree, Trie.entries]⟩

/-- The descent, and the leftmost path from where it stops, find the least item
that fits, in the tree or in `rst`. -/
theorem descend_least (hL : BitOrder bit K) (hnb : K nb) (hK : ∀ e ∈ t.entries, K e.2)
    (ho : t.Ordered bit d) (hB : t.Below bit nb d) (hrst : rst.Fits bit K nb)
    (hsep : ∀ e ∈ t.entries, ∀ f ∈ rst.entries, e.2 ≤ f.2)
    (he : e ∈ t.entries ∧ nb ≤ e.2 ∨ e ∈ rst.entries) :
    AtMost ((t.descend bit nb d best rst).1.leftmost nb (t.descend bit nb d best rst).2) e.2 := by
  induction t generalizing best d rst e with
  | nil =>
    obtain ⟨hfit, d', ho', hA'⟩ := hrst
    cases he with
    | inl he => simp [Trie.entries] at he
    | inr he =>
      exact leftmost_least hL (fun f hf => (hfit f hf).1) ho' hA' (fun f hf => (hfit f hf).2) he
  | node a s ring l r ihl ihr =>
    have hinl : ∀ f ∈ l.entries, f ∈ (Trie.node a s ring l r).entries :=
      fun f hf => mem_node_entries.mpr (Or.inr (Or.inl hf))
    have hinr : ∀ f ∈ r.entries, f ∈ (Trie.node a s ring l r).entries :=
      fun f hf => mem_node_entries.mpr (Or.inr (Or.inr hf))
    have hnbe : nb ≤ e.2 := by
      cases he with
      | inl he => exact he.2
      | inr he => exact (hrst.1 e he).2
    -- an item with the key of the node is no better than the node
    have hown : nb ≤ s → e.2 = s → AtMost (take nb best (a, s)) e.2 := by
      intro h1 h2
      rw [h2]
      exact take_key (e := (a, s)) h1
    unfold Trie.descend
    by_cases hs : s = nb
    · rw [if_pos hs]
      exact AtMost.leftmost ⟨(a, s), rfl, by simpa [hs] using hnbe⟩
    · rw [if_neg hs]
      cases hb : bit nb d with
      | true =>
        simp only [if_true]
        have hstep : ∀ f, f ∈ r.entries ∧ nb ≤ f.2 ∨ f ∈ rst.entries →
            AtMost ((r.descend bit nb (d + 1) (take nb best (a, s)) rst).1.leftmost nb
              (r.descend bit nb (d + 1) (take nb best (a, s)) rst).2) f.2 := fun f hf => ihr
              (fun g hg => hK g (hinr g hg)) ho.2.2.2 (hB.right ho hb) hrst
              (fun g hg => hsep g (hinr g hg)) hf
        cases he with
        | inr he => exact hstep e (Or.inr he)
        | inl he =>
          rcases mem_node_entries.mp he.1 with hc | hc | hc
          · exact ((hown (hc.2 ▸ hnbe) hc.2).descend hnbe).leftmost
          · -- what is on the left is too small
            have hlt := hL e.2 nb d (hK e he.1) hnb (hB e he.1) (ho.1 e hc).2 hb
            omega
          · exact hstep e (Or.inl ⟨hc, hnbe⟩)
      | false =>
        simp only [Bool.false_eq_true, if_false]
        have hbig : ∀ f ∈ r.entries, nb < f.2 := fun f hf =>
          hL nb f.2 d hnb (hK f (hinr f hf)) (fun j hj => (hB f (hinr f hf) j hj).symm) hb
            (ho.2.1 f hf).2
        have hlr : ∀ g ∈ l.entries, ∀ f ∈ r.entries, g.2 ≤ f.2 := by
          intro g hg f hf
          have hlt := hL g.2 f.2 d (hK g (hinl g hg)) (hK f (hinr f hf))
            (hB.agree g (hinl g hg) f (hinr f hf)) (ho.1 g hg).2 (ho.2.1 f hf).2
          exact Nat.le_of_lt hlt
        have hstep : ∀ u : Trie, u.Fits bit K nb → (∀ g ∈ l.entries, ∀ f ∈ u.entries, g.2 ≤ f.2) →
            ∀ f, f ∈ l.entries ∧ nb ≤ f.2 ∨ f ∈ u.entries → AtMost
              ((l.descend bit nb (d + 1) (take nb best (a, s)) u).1.leftmost nb
                (l.descend bit nb (d + 1) (take nb best (a, s)) u).2) f.2 :=
          fun u hu hsu f hf => ihl (fun g hg => hK g (hinl g hg)) ho.2.2.1 (hB.left ho hb) hu hsu hf
        cases r with
        | nil =>
          have hs' := hstep rst hrst (fun g hg => hsep g (hinl g hg))
          cases he with
          | inr he => exact hs' e (Or.inr he)
          | inl he =>
            rcases mem_node_entries.mp he.1 with hc | hc | hc
            · exact ((hown (hc.2 ▸ hnbe) hc.2).descend hnbe).leftmost
            · exact hs' e (Or.inl ⟨hc, hnbe⟩)
            · simp [Trie.entries] at hc
        | node b k ring' l' r' =>
          have hfit : (Trie.node b k ring' l' r').Fits bit K nb :=
            ⟨fun f hf => ⟨hK f (hinr f hf), Nat.le_of_lt (hbig f hf)⟩, d + 1, ho.2.2.2,
              (hB.agree).right ho⟩
          have hs' := hstep (Trie.node b k ring' l' r') hfit hlr
          cases he with
          | inr he =>
            have hroot : (b, k) ∈ (Trie.node b k ring' l' r').entries :=
              mem_node_entries.mpr (Or.inl ⟨by simp, rfl⟩)
            exact (hs' (b, k) (Or.inr hroot)).le (hsep (b, k) (hinr _ hroot) e he)
          | inl he =>
            rcases mem_node_entries.mp he.1 with hc | hc | hc
            · exact ((hown (hc.2 ▸ hnbe) hc.2).descend hnbe).leftmost
            · exact hs' e (Or.inl ⟨hc, hnbe⟩)
            · exact hs' e (Or.inr hc)

theorem atMost_of_ne (h : best ≠ none) : ∃ k, AtMost best k := by
  obtain ⟨b, hb⟩ := Option.ne_none_iff_exists'.mp h
  exact ⟨b.2, b, hb, Nat.le_refl _⟩

theorem AtMost.ne_none (h : AtMost best k) : best ≠ none := by
  obtain ⟨b, hb, _⟩ := h
  rw [hb]
  simp

theorem leftmost_ne_none (h : best ≠ none) : t.leftmost nb best ≠ none := by
  obtain ⟨k, hk⟩ := atMost_of_ne h
  exact hk.leftmost.ne_none

/-- A tree that fits as a whole has an item to give. -/
theorem leftmost_of_fit (h : t ≠ .nil) (hf : ∀ e ∈ t.entries, nb ≤ e.2) :
    t.leftmost nb best ≠ none := by
  cases t with
  | nil => contradiction
  | node a s ring l r =>
    have hs : nb ≤ s := hf (a, s) (mem_node_entries.mpr (Or.inl ⟨by simp, rfl⟩))
    have hown : AtMost (take nb best (a, s)) s := take_key (e := (a, s)) hs
    cases l with
    | nil => exact hown.leftmost.ne_none
    | node => exact hown.leftmost.ne_none

/-- The descent finds something if one item fits that the order of bits speaks
for, provided that no item on the right of `nb` is below it. -/
theorem descend_some (ho : t.Ordered bit d) (hB : t.Below bit nb d)
    (hright : ∀ f ∈ t.entries, ∀ j, (∀ i < j, bit f.2 i = bit nb i) → bit nb j = false →
      bit f.2 j = true → nb ≤ f.2)
    (hleft : ∀ j, (∀ i < j, bit e.2 i = bit nb i) → bit e.2 j = false → bit nb j = true →
      e.2 < nb)
    (hfit : nb ≤ e.2) (hrst : ∀ f ∈ rst.entries, nb ≤ f.2)
    (he : e ∈ t.entries ∨ rst ≠ .nil ∨ best ≠ none) :
    (t.descend bit nb d best rst).1.leftmost nb (t.descend bit nb d best rst).2 ≠ none := by
  induction t generalizing best d rst with
  | nil =>
    rcases he with he | he | he
    · simp [Trie.entries] at he
    · exact leftmost_of_fit he hrst
    · exact leftmost_ne_none he
  | node a s ring l r ihl ihr =>
    have hinl : ∀ f ∈ l.entries, f ∈ (Trie.node a s ring l r).entries :=
      fun f hf => mem_node_entries.mpr (Or.inr (Or.inl hf))
    have hinr : ∀ f ∈ r.entries, f ∈ (Trie.node a s ring l r).entries :=
      fun f hf => mem_node_entries.mpr (Or.inr (Or.inr hf))
    have hbest : best ≠ none → take nb best (a, s) ≠ none := by
      intro hne
      obtain ⟨k, hk⟩ := atMost_of_ne hne
      exact (AtMost.take hk).ne_none
    have hown : e.2 = s → take nb best (a, s) ≠ none := by
      intro hes
      have hs : nb ≤ s := hes ▸ hfit
      exact (take_key (e := (a, s)) hs).ne_none
    unfold Trie.descend
    by_cases hs : s = nb
    · rw [if_pos hs]
      exact leftmost_ne_none (by simp)
    · rw [if_neg hs]
      cases hb : bit nb d with
      | true =>
        simp only [if_true]
        apply ihr ho.2.2.2 (hB.right ho hb) (fun f hf => hright f (hinr f hf)) hrst
        rcases he with he | he | he
        · rcases mem_node_entries.mp he with hc | hc | hc
          · exact Or.inr (Or.inr (hown hc.2))
          · have hlt := hleft d (hB e he) (ho.1 e hc).2 hb
            omega
          · exact Or.inl hc
        · exact Or.inr (Or.inl he)
        · exact Or.inr (Or.inr (hbest he))
      | false =>
        simp only [Bool.false_eq_true, if_false]
        cases r with
        | nil =>
          apply ihl ho.2.2.1 (hB.left ho hb) (fun f hf => hright f (hinl f hf)) hrst
          rcases he with he | he | he
          · rcases mem_node_entries.mp he with hc | hc | hc
            · exact Or.inr (Or.inr (hown hc.2))
            · exact Or.inl hc
            · simp [Trie.entries] at hc
          · exact Or.inr (Or.inl he)
          · exact Or.inr (Or.inr (hbest he))
        | node b k ring' l' r' =>
          apply ihl ho.2.2.1 (hB.left ho hb) (fun f hf => hright f (hinl f hf))
          · exact fun f hf => hright f (hinr f hf) d (hB f (hinr f hf)) hb (ho.2.1 f hf).2
          · exact Or.inr (Or.inl (by simp))

/-- While nothing is found, the subtree to go on with fits as a whole. -/
theorem descend_fits (ho : t.Ordered bit d) (hB : t.Below bit nb d)
    (hright : ∀ f ∈ t.entries, ∀ j, (∀ i < j, bit f.2 i = bit nb i) → bit nb j = false →
      bit f.2 j = true → nb ≤ f.2)
    (hrst : ∀ f ∈ rst.entries, nb ≤ f.2) (hnone : (t.descend bit nb d best rst).2 = none) :
    ∀ f ∈ (t.descend bit nb d best rst).1.entries, nb ≤ f.2 := by
  induction t generalizing best d rst with
  | nil => exact hrst
  | node a s ring l r ihl ihr =>
    have hinl : ∀ f ∈ l.entries, f ∈ (Trie.node a s ring l r).entries :=
      fun f hf => mem_node_entries.mpr (Or.inr (Or.inl hf))
    have hinr : ∀ f ∈ r.entries, f ∈ (Trie.node a s ring l r).entries :=
      fun f hf => mem_node_entries.mpr (Or.inr (Or.inr hf))
    unfold Trie.descend at hnone ⊢
    by_cases hs : s = nb
    · rw [if_pos hs] at hnone
      contradiction
    · rw [if_neg hs] at hnone ⊢
      cases hb : bit nb d with
      | true =>
        simp only [hb, if_true] at hnone ⊢
        exact ihr ho.2.2.2 (hB.right ho hb) (fun f hf => hright f (hinr f hf)) hrst hnone
      | false =>
        simp only [hb, Bool.false_eq_true, if_false] at hnone ⊢
        have hl : ∀ v : Trie, (∀ f ∈ v.entries, nb ≤ f.2) →
            (l.descend bit nb (d + 1) (take nb best (a, s)) v).2 = none →
            ∀ f ∈ (l.descend bit nb (d + 1) (take nb best (a, s)) v).1.entries, nb ≤ f.2 :=
          fun v hv => ihl ho.2.2.1 (hB.left ho hb) (fun f hf => hright f (hinl f hf)) hv
        cases r with
        | nil => exact hl rst hrst hnone
        | node b k ring' l' r' =>
          apply hl _ _ hnone
          exact fun f hf => hright f (hinr f hf) d (hB f (hinr f hf)) hb (ho.2.1 f hf).2

theorem take_ne_none_iff : take nb best e ≠ none ↔ best ≠ none ∨ nb ≤ e.2 := by
  constructor
  · intro h
    obtain ⟨b, hb⟩ := Option.ne_none_iff_exists'.mp h
    cases take_mem hb with
    | inl hc =>
      obtain ⟨rfl, hle⟩ := hc
      exact Or.inr hle
    | inr hc =>
      rw [hc]
      simp
  · rintro (h | h)
    · obtain ⟨k, hk⟩ := atMost_of_ne h
      exact (AtMost.take hk).ne_none
    · exact (take_key h).ne_none

/-- The leftmost path finds something exactly if an item on it fits. -/
theorem leftmost_ne_none_iff : t.leftmost nb best ≠ none ↔
    best ≠ none ∨ ∃ e ∈ t.leftPath, nb ≤ e.2 := by
  induction t generalizing best with
  | nil => simp [Trie.leftmost, Trie.leftPath]
  | node a s ring l r ihl ihr =>
    cases l with
    | nil =>
      show r.leftmost nb (take nb best (a, s)) ≠ none ↔ _
      rw [ihr, take_ne_none_iff, or_assoc]
      simp [Trie.leftPath]
    | node b k ring' l' r' =>
      show (Trie.node b k ring' l' r').leftmost nb (take nb best (a, s)) ≠ none ↔ _
      rw [ihl, take_ne_none_iff, or_assoc, show (Trie.node a s ring (.node b k ring' l' r') r).leftPath =
        (a, s) :: (Trie.node b k ring' l' r').leftPath from rfl]
      simp

/-- The descent finds something exactly if an item on its way fits. -/
theorem descend_ne_none_iff : (t.descend bit nb d best rst).2 ≠ none ↔
    best ≠ none ∨ ∃ e ∈ t.route bit nb d, nb ≤ e.2 := by
  induction t generalizing best d rst with
  | nil => simp [Trie.descend, Trie.route]
  | node a s ring l r ihl ihr =>
    unfold Trie.descend Trie.route
    by_cases hs : s = nb
    · rw [if_pos hs]
      simp [hs]
    · rw [if_neg hs]
      cases bit nb d with
      | true =>
        simp only [if_true, List.mem_cons, exists_eq_or_imp]
        rw [ihr, take_ne_none_iff, or_assoc]
      | false =>
        simp only [Bool.false_eq_true, if_false, List.mem_cons, exists_eq_or_imp]
        cases r with
        | nil => rw [ihl, take_ne_none_iff, or_assoc]
        | node => rw [ihl, take_ne_none_iff, or_assoc]

/-- Where it finds nothing it ends with the subtree beside its way. -/
theorem descend_beside (h : (t.descend bit nb d best rst).2 = none) :
    (t.descend bit nb d best rst).1 = t.beside bit nb d rst := by
  induction t generalizing best d rst with
  | nil => rfl
  | node a s ring l r ihl ihr =>
    unfold Trie.descend at h ⊢
    unfold Trie.beside
    by_cases hs : s = nb
    · rw [if_pos hs] at h
      contradiction
    · rw [if_neg hs] at h ⊢
      cases hb : bit nb d with
      | true =>
        simp only [hb, if_true] at h ⊢
        exact ihr h
      | false =>
        simp only [hb, Bool.false_eq_true, if_false] at h ⊢
        cases r with
        | nil => exact ihl h
        | node => exact ihl h

theorem leftPath_entries (h : e ∈ t.leftPath) : e ∈ t.entries := by
  induction t with
  | nil => contradiction
  | node a s ring l r ihl ihr =>
    have hroot : (a, s) ∈ (Trie.node a s ring l r).entries :=
      mem_node_entries.mpr (Or.inl ⟨by simp, rfl⟩)
    cases l with
    | nil =>
      rcases List.mem_cons.mp h with rfl | h
      · exact hroot
      · exact mem_node_entries.mpr (Or.inr (Or.inr (ihr h)))
    | node =>
      rcases List.mem_cons.mp h with rfl | h
      · exact hroot
      · exact mem_node_entries.mpr (Or.inr (Or.inl (ihl h)))

theorem route_entries (h : e ∈ t.route bit nb d) : e ∈ t.entries := by
  induction t generalizing d with
  | nil => contradiction
  | node a s ring l r ihl ihr =>
    unfold Trie.route at h
    rcases List.mem_cons.mp h with rfl | h
    · exact mem_node_entries.mpr (Or.inl ⟨by simp, rfl⟩)
    · split at h
      · exact mem_node_entries.mpr (Or.inr (Or.inr (ihr h)))
      · exact mem_node_entries.mpr (Or.inr (Or.inl (ihl h)))

theorem beside_entries (h : e ∈ (t.beside bit nb d rst).entries) :
    e ∈ t.entries ∨ e ∈ rst.entries := by
  induction t generalizing d rst with
  | nil => exact Or.inr h
  | node a s ring l r ihl ihr =>
    have hleft : e ∈ l.entries → e ∈ (Trie.node a s ring l r).entries :=
      fun he => mem_node_entries.mpr (Or.inr (Or.inl he))
    have hright : e ∈ r.entries → e ∈ (Trie.node a s ring l r).entries :=
      fun he => mem_node_entries.mpr (Or.inr (Or.inr he))
    unfold Trie.beside at h
    split at h
    · exact (ihr h).imp_left hright
    · split at h
      · exact (ihl h).imp_left hleft
      · rcases ihl h with he | he
        · exact Or.inl (hleft he)
        · exact Or.inl (hright he)

end

end Mmdata.Lib
