import Mathlib.Data.List.Perm.Subperm
import Mmdata.Proofs.TreeBins

namespace Mmdata.Proofs
open Lib Malloc

/-- The bit of a size that picks the child at depth `d` of tree `i`. -/
def sizeBit (i s d : Nat) : Bool := (shlSize s (leftshiftForTreeIndex i + d)).testBit 63

section

variable {D : Trap → Prop} {σ τ : State} {m lo hi i par a s x d k : Nat} {ring : List Nat}
  {t l r : Trie}

theorem top_bit (k : Nat) : (k >>> 63) &&& 1 = (k.testBit 63).toNat := by
  rw [Nat.and_one_is_mod, Nat.shiftRight_eq_div_pow, Nat.toNat_testBit]

theorem shlSize_succ (s j : Nat) : shlSize (shlSize s j) 1 = shlSize s (j + 1) := by
  simp only [shlSize, Nat.shiftLeft_eq, Nat.pow_succ]
  rw [Nat.mod_mul_mod, Nat.mul_assoc]

/-- The links of a fresh chunk `x` in the empty child slot of `a`. -/
theorem wp_attach {Q : Unit → State → Prop} {j : Nat} (s : Nat) (A : Arena σ m lo hi)
    (N : TreeNodes m hi (x :: a :: ring)) (hj : j = 32 ∨ j = 40)
    (hidx : σ.get 4 (x + 56) = some i) (hl : σ.getPtr (x + 32) = some 0)
    (hr : σ.getPtr (x + 40) = some 0)
    (hQ : ∀ τ, Frame (fun b => a + j ≤ b ∧ b < a + j + 8 ∨ Links 64 [x] b) σ τ →
      τ.getPtr (a + j) = some x → TreeAt τ i a (.node x s [] .nil .nil) → Q () τ) :
    wp D (storePtr (a + j) x) (fun _ τ => wp D (storePtr (x + 48) a) (fun _ τ =>
      wp D (storePtr (x + 24) x) (fun _ τ => wp D (storePtr (x + 16) x) Q τ) τ) τ) σ := by
  have hx := N.inside x (by simp)
  have ha := N.inside a (by simp)
  have hne : x ≠ a := fun he => (List.nodup_cons.mp N.nodup).1 (by simp [he])
  have hap := N.apart x (by simp) a (by simp)
  refine A.wp_storePtr rfl (by omega) (by omega) ?_
  refine A.wp_storePtr rfl (by omega) (by omega) ?_
  refine A.wp_storePtr rfl (by omega) (by omega) ?_
  refine A.wp_storePtr rfl (by omega) (by omega) ?_
  have hW := ((((Frame.refl (Words []) σ).word (a + j) x).word (x + 48) a).word (x + 24) x).word
    (x + 16) x
  refine hQ _ (hW.mono ?_) ?_ ⟨⟨⟨?_, ?_, ?_, ?_⟩, ⟨?_, ?_⟩, by simp⟩, trivial, trivial⟩
  · rintro c ⟨f, hf, h1, h2⟩
    simp only [List.mem_cons, List.not_mem_nil, or_false] at hf
    rcases hf with rfl | rfl | rfl | rfl
    · exact Or.inr ⟨x, by simp, by omega, by omega⟩
    · exact Or.inr ⟨x, by simp, by omega, by omega⟩
    · exact Or.inr ⟨x, by simp, by omega, by omega⟩
    · exact Or.inl ⟨h1, h2⟩
  · simp (disch := omega) only [Machine.getPtr_putPtr_ne]
    exact A.getPtr_self (by rfl) (by omega) (by omega) (by omega) (by omega) (by omega)
  · simp (disch := omega) only [Machine.get_putPtr_ne]
    exact hidx
  · simp (disch := omega) only [Machine.getPtr_putPtr_ne]
    exact A.getPtr_self (by rfl) (by omega) (by omega) (by omega) (by omega) (by omega)
  · simp (disch := omega) only [Machine.getPtr_putPtr_ne]
    exact hl
  · simp (disch := omega) only [Machine.getPtr_putPtr_ne]
    exact hr
  · exact A.getPtr_self (by rfl) (by omega) (by omega) (by omega) (by omega) (by omega)
  · simp only [bwd]
    simp (disch := omega) only [Machine.getPtr_putPtr_ne]
    exact A.getPtr_self (by rfl) (by omega) (by omega) (by omega) (by omega) (by omega)

/-- The links of a fresh chunk `x` on the ring of a node of its size. -/
theorem wp_joinRing {Q : Unit → State → Prop} {lr rr : Nat} (A : Arena σ m lo hi)
    (N : TreeNodes m hi (x :: a :: ring)) (hn : NodeAt σ i par a ring lr rr)
    (hidx : σ.get 4 (x + 56) = some i) (hl : σ.getPtr (x + 32) = some 0)
    (hr : σ.getPtr (x + 40) = some 0)
    (hQ : ∀ τ, Frame (fun b => Links 32 (a :: ring) b ∨ Links 64 [x] b) σ τ →
      NodeAt τ i par a (x :: ring) lr rr → Q () τ) :
    wp D (storePtr (firstNode a ring + 24) x) (fun _ τ => wp D (storePtr (a + 16) x) (fun _ τ =>
      wp D (storePtr (x + 16) (firstNode a ring)) (fun _ τ =>
        wp D (storePtr (x + 24) a) (fun _ τ => wp D (storePtr (x + 48) 0) Q τ) τ) τ) τ) σ := by
  have hfm : firstNode a ring ∈ a :: ring := firstNode_mem a ring
  have hx := N.inside x (by simp)
  have ha := N.inside a (by simp)
  have hxn := (List.nodup_cons.mp N.nodup).1
  have hf := N.inside _ (List.mem_cons_of_mem _ hfm)
  have hxa : x ≠ a := fun he => hxn (by simp [he])
  have hxf : x ≠ firstNode a ring := fun he => hxn (he ▸ hfm)
  have hap := N.apart x (by simp) a (by simp)
  have hapf := N.apart x (by simp) _ (List.mem_cons_of_mem _ hfm)
  have hafa := N.apart a (by simp) _ (List.mem_cons_of_mem _ hfm)
  have N' : Nodes m hi (a :: x :: ring) := by
    refine (N.sublist ?_ ?_).nodes
    · exact (List.Perm.swap a x ring).nodup_iff.mp N.nodup
    · intro y hy
      exact (List.Perm.swap a x ring).mem_iff.mpr hy
  refine A.wp_storePtr rfl (by omega) (by omega) ?_
  refine A.wp_storePtr rfl (by omega) (by omega) ?_
  refine A.wp_storePtr rfl (by omega) (by omega) ?_
  refine A.wp_storePtr rfl (by omega) (by omega) ?_
  refine A.wp_storePtr rfl (by omega) (by omega) ?_
  generalize hfe : firstNode a ring = f at *
  have hW4 := ((((Frame.refl (Words []) σ).word (f + 24) x).word (a + 16) x).word
    (x + 16) f).word (x + 24) a
  have hring : LinkRing (fwd (((((σ.putPtr (f + 24) x).putPtr (a + 16) x).putPtr
      (x + 16) f).putPtr (x + 24) a))) (bwd ((((σ.putPtr (f + 24) x).putPtr (a + 16) x).putPtr
      (x + 16) f).putPtr (x + 24) a)) a (x :: ring) := by
    refine ring_link N' (fun _ => hn.linked) ?_ ?_ ?_ ?_ ?_
    · rw [hfe]
      refine hW4.mono ?_
      rintro c ⟨g, hg, hc⟩
      refine ⟨g, ?_, hc⟩
      simp only [List.mem_cons, List.not_mem_nil, or_false] at hg ⊢
      rcases hg with rfl | rfl | rfl | rfl <;> simp
    · simp (disch := omega) only [Machine.getPtr_putPtr_ne]
      exact A.getPtr_self (by rfl) (by omega) (by omega) (by omega) (by omega) (by omega)
    · exact A.getPtr_self (by rfl) (by omega) (by omega) (by omega) (by omega) (by omega)
    · rw [hfe]
      simp (disch := omega) only [Machine.getPtr_putPtr_ne]
      exact A.getPtr_self (by rfl) (by omega) (by omega) (by omega) (by omega) (by omega)
    · rw [hfe]
      simp (disch := omega) only [Machine.getPtr_putPtr_ne]
      exact A.getPtr_self (by rfl) (by omega) (by omega) (by omega) (by omega) (by omega)
  have hW := hW4.word (x + 48) 0
  have hzone : Frame (fun b => Links 32 (a :: ring) b ∨ Links 64 [x] b) σ
      (((((σ.putPtr (f + 24) x).putPtr (a + 16) x).putPtr (x + 16) f).putPtr (x + 24) a).putPtr
        (x + 48) 0) := by
    refine hW.mono ?_
    rintro c ⟨g, hg, h1, h2⟩
    simp only [List.mem_cons, List.not_mem_nil, or_false] at hg
    rcases hg with rfl | rfl | rfl | rfl | rfl
    · exact Or.inr ⟨x, by simp, by omega, by omega⟩
    · exact Or.inr ⟨x, by simp, by omega, by omega⟩
    · exact Or.inr ⟨x, by simp, by omega, by omega⟩
    · exact Or.inl ⟨a, by simp, by omega, by omega⟩
    · exact Or.inl ⟨f, hfm, by omega, by omega⟩
  refine hQ _ hzone ⟨?_, ?_, ?_⟩
  · refine hn.fields.frame hzone ?_
    rintro b h1 h2 (⟨y, hy, h3, h4⟩ | ⟨y, hy, h3, h4⟩)
    · have hay := N.apart a (by simp) y (List.mem_cons_of_mem _ hy)
      omega
    · simp only [List.mem_singleton] at hy
      omega
  · refine ring_frame hring ((Frame.refl (Words []) _).word (x + 48) 0) ?_
    rintro b ⟨y, hy, h1, h2⟩ ⟨g, hg, h3, h4⟩
    simp only [List.mem_singleton] at hg
    rcases List.mem_cons.mp hy with rfl | hy
    · omega
    · rcases List.mem_cons.mp hy with rfl | hy
      · omega
      · have hxy := N.apart x (by simp) y (by simp [hy])
        omega
  · intro y hy
    rcases List.mem_cons.mp hy with rfl | hy
    · refine ⟨?_, ?_, ?_, ?_⟩
      · simp (disch := omega) only [Machine.get_putPtr_ne]
        exact hidx
      · exact A.getPtr_self (by rfl) (by omega) (by omega) (by omega) (by omega) (by omega)
      · simp (disch := omega) only [Machine.getPtr_putPtr_ne]
        exact hl
      · simp (disch := omega) only [Machine.getPtr_putPtr_ne]
        exact hr
    · refine (hn.member y hy).frame hzone ?_
      rintro b h1 h2 (⟨z, hz, h3, h4⟩ | ⟨z, hz, h3, h4⟩)
      · have hyz := N.apart y (by simp [hy]) z (List.mem_cons_of_mem _ hz)
        omega
      · have hyx := N.apart y (by simp [hy]) x (by simp)
        have hne : y ≠ x := fun he => hxn (by simp [← he, hy])
        simp only [List.mem_singleton] at hz
        omega

theorem height_pos (h : t ≠ .nil) : 0 < t.height := by
  cases t with
  | nil => contradiction
  | node a s ring l r => simp [Trie.height]

theorem root_ne_zero (N : TreeNodes m hi t.addrs) (h : t ≠ .nil) : t.root ≠ 0 := by
  cases t with
  | nil => contradiction
  | node a s ring l r =>
    have hin := N.inside a (mem_addrs_node.mpr (Or.inl (by simp)))
    simp only [Trie.root]
    omega

theorem root_eq_zero (N : TreeNodes m hi t.addrs) : t.root = 0 ↔ t = .nil := by
  constructor
  · intro h
    by_contra hne
    exact root_ne_zero N hne h
  · rintro rfl
    rfl

/-- Heads tell the sizes of the chunks of a tree. -/
def HeadsAt (σ : State) (es : List (Nat × Nat)) : Prop :=
  ∀ e ∈ es, σ.get 8 (e.1 + 8) = some (headWord e.2 true false) ∧ e.2 % 8 = 0

theorem HeadsAt.subset {es es' : List (Nat × Nat)} (h : HeadsAt σ es) (hs : ∀ e ∈ es', e ∈ es) :
    HeadsAt σ es' := fun e he => h e (hs e he)

/-- The loop goes down to the subtree the bit picks, or hangs `x` there. -/
theorem wp_insertLargeLoop {Q : Unit → State → Prop} {fuel : Nat} (A : Arena σ m lo hi)
    (hne : t ≠ .nil) (hfuel : t.height ≤ fuel) (N : TreeNodes m hi (x :: t.addrs))
    (hT : TreeAt σ i par t) (hH : HeadsAt σ t.entries) (hidx : σ.get 4 (x + 56) = some i)
    (hx0 : σ.getPtr (x + 32) = some 0) (hx1 : σ.getPtr (x + 40) = some 0)
    (hk : k = shlSize s (leftshiftForTreeIndex i + d))
    (hQ : ∀ τ, Frame (Links 64 (x :: t.addrs)) σ τ →
      TreeAt τ i par (t.insert (sizeBit i) x s d) → Q () τ) :
    wp D (insertLargeLoop m x s fuel t.root k) Q σ := by
  induction fuel generalizing t par d k Q with
  | zero =>
    have hpos := height_pos hne
    omega
  | succ fuel ih =>
    cases t with
    | nil => contradiction
    | node a key ring l r =>
      obtain ⟨hn, htl, htr⟩ := hT
      obtain ⟨hxn, hnd⟩ := List.nodup_cons.mp N.nodup
      obtain ⟨hd1, hd2, hd3, hd4, hd5, hd6⟩ := node_disjoint hnd
      have hsub : ∀ y ∈ a :: ring, y ∈ (Trie.node a key ring l r).addrs :=
        fun y hy => mem_addrs_node.mpr (Or.inl hy)
      have hsubl : ∀ y ∈ l.addrs, y ∈ (Trie.node a key ring l r).addrs :=
        fun y hy => mem_addrs_node.mpr (Or.inr (Or.inl hy))
      have hsubr : ∀ y ∈ r.addrs, y ∈ (Trie.node a key ring l r).addrs :=
        fun y hy => mem_addrs_node.mpr (Or.inr (Or.inr hy))
      have Nx : ∀ ys : List Nat, ys.Nodup → (∀ y ∈ ys, y ∈ (Trie.node a key ring l r).addrs) →
          TreeNodes m hi (x :: ys) := by
        intro ys hnd' hs
        refine N.sublist (List.nodup_cons.mpr ⟨fun hc => hxn (hs x hc), hnd'⟩) ?_
        intro y hy
        rcases List.mem_cons.mp hy with rfl | hy
        · exact List.mem_cons_self
        · exact List.mem_cons_of_mem _ (hs y hy)
      -- no two of the new chunk, the node and its subtrees share link bytes
      have hdisj : ∀ ys zs : List Nat, (∀ y ∈ ys, y ∈ x :: (Trie.node a key ring l r).addrs) →
          (∀ z ∈ zs, z ∈ x :: (Trie.node a key ring l r).addrs) → (∀ y ∈ ys, y ∉ zs) →
          ∀ b, Links 64 ys b → ¬ Links 64 zs b :=
        fun ys zs hy hz hd b hb => N.links_disjoint hy hz hd hb
      have Na := Nx (a :: ring) hd1 hsub
      have hina := N.inside a (List.mem_cons_of_mem _ (hsub a (by simp)))
      have hlow := A.low
      obtain ⟨hha, hk8⟩ := hH (a, key) (mem_node_entries.mpr (Or.inl ⟨by simp, rfl⟩))
      simp only [insertLargeLoop, Trie.root, wp_bind]
      rw [wp_chunksize hha hk8]
      by_cases hkey : key = s
      · rw [wp_if_neg (by simpa using hkey)]
        simp only [wp_bind, fd, bk, parent]
        rw [wp_loadPtr (show σ.getPtr (a + 16) = _ from hn.linked.next_head.1),
          wp_okAddress A.least (by omega), wp_check rfl]
        have hfin := N.inside _ (List.mem_cons_of_mem _ (hsub _ (firstNode_mem a ring)))
        rw [wp_okAddress A.least (by omega), wp_check rfl]
        refine wp_joinRing A Na hn hidx hx0 hx1 ?_
        intro τ hf hnode
        have hzone : ∀ b, Links 32 (a :: ring) b ∨ Links 64 [x] b → Links 64 (x :: a :: ring) b := by
          rintro b (⟨y, hy, h1, h2⟩ | hb)
          · exact ⟨y, List.mem_cons_of_mem _ hy, h1, by omega⟩
          · exact links_mono (by simp) hb
        have hf' := hf.mono hzone
        have hsubx : ∀ y ∈ x :: a :: ring, y ∈ x :: (Trie.node a key ring l r).addrs := by
          intro y hy
          rcases List.mem_cons.mp hy with rfl | hy
          · exact List.mem_cons_self
          · exact List.mem_cons_of_mem _ (hsub y hy)
        refine hQ τ (hf'.mono (fun b hb => links_mono hsubx hb)) ?_
        rw [Trie.insert, if_pos hkey]
        refine ⟨hnode, htl.frame hf' ?_, htr.frame hf' ?_⟩
        · refine hdisj _ _ (fun y hy => List.mem_cons_of_mem _ (hsubl y hy)) hsubx ?_
          intro y hy hc
          rcases List.mem_cons.mp hc with rfl | hc
          · exact hxn (hsubl y hy)
          · exact hd4 y hc hy
        · refine hdisj _ _ (fun y hy => List.mem_cons_of_mem _ (hsubr y hy)) hsubx ?_
          intro y hy hc
          rcases List.mem_cons.mp hc with rfl | hc
          · exact hxn (hsubr y hy)
          · exact hd5 y hc hy
      · have hbit : (k >>> 63) &&& 1 = (sizeBit i s d).toNat := by
          rw [top_bit, hk]
          rfl
        have hkn : shlSize k 1 = shlSize s (leftshiftForTreeIndex i + (d + 1)) := by
          rw [hk, shlSize_succ, Nat.add_assoc]
        have hins : ∀ {b : Bool}, sizeBit i s d = b →
            (Trie.node a key ring l r).insert (sizeBit i) x s d =
              if b then .node a key ring l (r.insert (sizeBit i) x s (d + 1))
              else .node a key ring (l.insert (sizeBit i) x s (d + 1)) r := by
          intro b hb
          rw [Trie.insert, if_neg hkey, hb]
        have hxa : x ∉ a :: ring := fun hc => hxn (hsub x hc)
        have hslot : ∀ j, (j = 32 ∨ j = 40) → ∀ b, (a + j ≤ b ∧ b < a + j + 8 ∨ Links 64 [x] b) →
            Links 64 (x :: a :: ring) b := by
          rintro j hj b (⟨h1, h2⟩ | hb)
          · exact ⟨a, by simp, by omega, by omega⟩
          · exact links_mono (by simp) hb
        have hrelink : ∀ j, (j = 32 ∨ j = 40) → ∀ b,
            (a + j ≤ b ∧ b < a + j + 8 ∨ Links 64 [x] b) → Links 64 (a :: ring) b →
              a + j ≤ b ∧ b < a + j + 8 := by
          rintro j hj b (hb | hb) hl
          · exact hb
          · refine absurd hl (hdisj [x] (a :: ring) (by simp) ?_ ?_ b hb)
            · exact fun y hy => List.mem_cons_of_mem _ (hsub y hy)
            · intro y hy hc
              rw [List.mem_singleton.mp hy] at hc
              exact hxa hc
        have Nax : TreeNodes m hi (x :: a :: ring) := Na
        have hsubx : ∀ y ∈ x :: a :: ring, y ∈ x :: (Trie.node a key ring l r).addrs := by
          intro y hy
          rcases List.mem_cons.mp hy with rfl | hy
          · exact List.mem_cons_self
          · exact List.mem_cons_of_mem _ (hsub y hy)
        have hother : ∀ u : Trie, (∀ y ∈ u.addrs, y ∈ (Trie.node a key ring l r).addrs) →
            (∀ y ∈ a :: ring, y ∉ u.addrs) → ∀ b, Links 64 u.addrs b →
              ¬ Links 64 (x :: a :: ring) b := by
          intro u hu hd
          refine hdisj _ _ (fun y hy => List.mem_cons_of_mem _ (hu y hy)) hsubx ?_
          intro y hy hc
          rcases List.mem_cons.mp hc with rfl | hc
          · exact hxn (hu y hy)
          · exact hd y hc hy
        have hself : ∀ u : Trie, (∀ y ∈ u.addrs, y ∈ (Trie.node a key ring l r).addrs) →
            (∀ y ∈ a :: ring, y ∉ u.addrs) → ∀ b, Links 64 (a :: ring) b →
              ¬ Links 64 (x :: u.addrs) b := by
          intro u hu hd
          refine hdisj _ _ (fun y hy => List.mem_cons_of_mem _ (hsub y hy)) ?_ ?_
          · intro y hy
            rcases List.mem_cons.mp hy with rfl | hy
            · exact List.mem_cons_self
            · exact List.mem_cons_of_mem _ (hu y hy)
          · intro y hy hc
            rcases List.mem_cons.mp hc with rfl | hc
            · exact hxa hy
            · exact hd y hy hc
        have hlr : ∀ u v : Trie, (∀ y ∈ u.addrs, y ∈ (Trie.node a key ring l r).addrs) →
            (∀ y ∈ v.addrs, y ∈ (Trie.node a key ring l r).addrs) → (∀ y ∈ u.addrs, y ∉ v.addrs) →
            ∀ b, Links 64 u.addrs b → ¬ Links 64 (x :: v.addrs) b := by
          intro u v hu hv hd
          refine hdisj _ _ (fun y hy => List.mem_cons_of_mem _ (hu y hy)) ?_ ?_
          · intro y hy
            rcases List.mem_cons.mp hy with rfl | hy
            · exact List.mem_cons_self
            · exact List.mem_cons_of_mem _ (hv y hy)
          · intro y hy hc
            rcases List.mem_cons.mp hc with rfl | hc
            · exact hxn (hu y hy)
            · exact hd y hy hc
        have hdeep : ∀ u : Trie, (∀ y ∈ u.addrs, y ∈ (Trie.node a key ring l r).addrs) →
            ∀ b, Links 64 (x :: u.addrs) b → Links 64 (x :: (Trie.node a key ring l r).addrs) b := by
          intro u hu b hb
          refine links_mono ?_ hb
          intro y hy
          rcases List.mem_cons.mp hy with rfl | hy
          · exact List.mem_cons_self
          · exact List.mem_cons_of_mem _ (hu y hy)
        rw [wp_if_pos (by simpa using hkey)]
        simp only [wp_bind, hbit]
        cases hb : sizeBit i s d with
        | true =>
          simp only [child, Bool.toNat_true]
          rw [wp_loadPtr (show σ.getPtr (a + 32 + 8 * 1) = _ from hn.fields.right)]
          by_cases hr0 : r = .nil
          · subst hr0
            rw [wp_if_neg (by simp [Trie.root])]
            simp only [wp_bind, fd, bk, parent]
            rw [wp_okAddress A.least (by omega), wp_check rfl]
            refine wp_attach s A Nax (Or.inr rfl) hidx hx0 hx1 ?_
            intro τ hf hslotx hleaf
            have hf' := hf.mono (hslot 40 (Or.inr rfl))
            refine hQ τ (hf'.mono (fun b hb => links_mono hsubx hb)) ?_
            rw [hins hb, if_pos rfl]
            refine ⟨hn.relink (Na.sublist hd1 (by simp_all)) hf (Or.inr rfl)
              (hrelink 40 (Or.inr rfl)) ?_ hslotx, htl.frame hf' (hother l hsubl hd4), hleaf⟩
            rw [hf.getPtr]
            · exact hn.fields.left
            · rintro b h1 h2 (h3 | ⟨y, hy, h3, h4⟩)
              · omega
              · have hap := Na.apart x (by simp) a (by simp)
                have hxne : x ≠ a := fun he => hxa (by simp [he])
                simp only [List.mem_singleton] at hy
                omega
          · have hrn := N.sublist hd3 (fun y hy => List.mem_cons_of_mem _ (hsubr y hy))
            rw [wp_if_pos (root_ne_zero hrn hr0)]
            refine ih hr0 ?_ (Nx _ hd3 hsubr) htr ?_ hkn ?_
            · simp only [Trie.height] at hfuel
              omega
            · exact hH.subset (fun e he => mem_node_entries.mpr (Or.inr (Or.inr he)))
            · intro τ hf htree
              refine hQ τ (hf.mono (hdeep r hsubr)) ?_
              rw [hins hb, if_pos rfl]
              refine ⟨?_, htl.frame hf (hlr l r hsubl hsubr hd6), htree⟩
              rw [insert_root x hr0]
              exact hn.frame hf (hself r hsubr hd5)
        | false =>
          simp only [child, Bool.toNat_false]
          rw [wp_loadPtr (show σ.getPtr (a + 32 + 8 * 0) = _ from hn.fields.left)]
          by_cases hl0 : l = .nil
          · subst hl0
            rw [wp_if_neg (by simp [Trie.root])]
            simp only [wp_bind, fd, bk, parent]
            rw [wp_okAddress A.least (by omega), wp_check rfl]
            refine wp_attach s A Nax (Or.inl rfl) hidx hx0 hx1 ?_
            intro τ hf hslotx hleaf
            have hf' := hf.mono (hslot 32 (Or.inl rfl))
            refine hQ τ (hf'.mono (fun b hb => links_mono hsubx hb)) ?_
            rw [hins hb, if_neg (by simp)]
            refine ⟨hn.relink (Na.sublist hd1 (by simp_all)) hf (Or.inl rfl)
              (hrelink 32 (Or.inl rfl)) hslotx ?_, hleaf, htr.frame hf' (hother r hsubr hd5)⟩
            rw [hf.getPtr]
            · exact hn.fields.right
            · rintro b h1 h2 (h3 | ⟨y, hy, h3, h4⟩)
              · omega
              · have hap := Na.apart x (by simp) a (by simp)
                have hxne : x ≠ a := fun he => hxa (by simp [he])
                simp only [List.mem_singleton] at hy
                omega
          · have hln := N.sublist hd2 (fun y hy => List.mem_cons_of_mem _ (hsubl y hy))
            rw [wp_if_pos (root_ne_zero hln hl0)]
            refine ih hl0 ?_ (Nx _ hd2 hsubl) htl ?_ hkn ?_
            · simp only [Trie.height] at hfuel
              omega
            · exact hH.subset (fun e he => mem_node_entries.mpr (Or.inr (Or.inl he)))
            · intro τ hf htree
              refine hQ τ (hf.mono (hdeep l hsubl)) ?_
              rw [hins hb, if_neg (by simp)]
              refine ⟨?_, htree, htr.frame hf (hlr r l hsubr hsubl ?_)⟩
              · rw [insert_root x hl0]
                exact hn.frame hf (hself l hsubl hd4)
              · exact fun y hy hc => hd6 y hc hy

theorem addrs_length_lt (hi64 : hi ≤ 2 ^ 64) (N : TreeNodes m hi t.addrs) :
    t.addrs.length < 2 ^ 64 := by
  have hsub : t.addrs.length ≤ (List.range' 1 (2 ^ 64 - 1)).length := by
    refine (List.subperm_of_subset N.nodup ?_).length_le
    intro y hy
    have hin := N.inside y hy
    rw [List.mem_range'_1]
    omega
  rw [List.length_range'] at hsub
  omega

theorem height_le_fuel (hi64 : hi ≤ 2 ^ 64) (N : TreeNodes m hi t.addrs) :
    t.height ≤ loopFuel := by
  have hh := height_le_entries t
  have hl := addrs_length_lt hi64 N
  simp only [Trie.addrs, List.length_map] at hl
  simp only [loopFuel]
  omega

theorem wp_treemapIsMarked {w : Nat} {Q : Bool → State → Prop} (h : σ.get 4 (m + 4) = some w)
    (hi32 : i < 32) : wp D (treemapIsMarked m i) Q σ ↔ Q (w.testBit i) σ := by
  rw [treemapIsMarked, wp_bind]
  simp only [treemap]
  rw [wp_load h, wp_pure, marked_eq hi32]

theorem wp_insertLargeChunk {T : Nat → Trie} {Q : Unit → State → Prop} (A : Arena σ m lo hi)
    (hs : computeTreeIndex s = i) (hi32 : i < 32) (hmap : MapAt σ (m + 4) (fun j => T j ≠ .nil))
    (N : TreeNodes m hi (x :: (T i).addrs)) (hT : TreeBin σ m hi i (T i))
    (hH : HeadsAt σ (T i).entries)
    (hQ : ∀ τ, Frame (TreeZone m i (x :: (T i).addrs)) σ τ →
      MapAt τ (m + 4) (fun j =>
        Function.update T i ((T i).insert (sizeBit i) x s 0) j ≠ .nil) →
      TreeBin τ m hi i ((T i).insert (sizeBit i) x s 0) → Q () τ) :
    wp D (insertLargeChunk m x s) Q σ := by
  have hx := N.inside x (by simp)
  have hb := treebin_bounds (m := m) hi32
  have hal := A.align
  have hhigh := A.high
  have hword := A.word
  have hlow := A.low
  have hb8 : treebinAt m i % 8 = 0 := by
    simp only [treebinAt]
    omega
  obtain ⟨hxn, hnd⟩ := List.nodup_cons.mp N.nodup
  have NT := N.sublist hnd (fun y hy => List.mem_cons_of_mem _ hy)
  obtain ⟨w, hw, hbits⟩ := hmap
  obtain ⟨hroot, par, hpar, htree⟩ := hT
  unfold insertLargeChunk
  simp only [hs, wp_bind, index, child]
  refine A.wp_store rfl (by omega) (by omega) ?_
  refine A.wp_storePtr rfl (by omega) (by omega) ?_
  refine A.wp_storePtr rfl (by omega) (by omega) ?_
  have hf : Frame (Links 64 [x]) σ
      (((σ.put 4 (x + 56) i).putPtr (x + 32 + 8 * 1) 0).putPtr (x + 32 + 8 * 0) 0) := by
    refine Frame.putPtr (Frame.putPtr (Frame.put (Frame.refl _ σ) ?_) ?_) ?_
    · exact fun b h1 h2 => ⟨x, by simp, by omega, by omega⟩
    · exact fun b h1 h2 => ⟨x, by simp, by omega, by omega⟩
    · exact fun b h1 h2 => ⟨x, by simp, by omega, by omega⟩
  have hidx : (((σ.put 4 (x + 56) i).putPtr (x + 32 + 8 * 1) 0).putPtr
      (x + 32 + 8 * 0) 0).get 4 (x + 56) = some i := by
    simp (disch := omega) only [Machine.get_putPtr_ne]
    exact Machine.get_put_same (A.covers (by omega) (by omega)) (by omega)
  have hx1 : (((σ.put 4 (x + 56) i).putPtr (x + 32 + 8 * 1) 0).putPtr
      (x + 32 + 8 * 0) 0).getPtr (x + 40) = some 0 := by
    simp (disch := omega) only [Machine.getPtr_putPtr_ne]
    exact A.getPtr_self (by rfl) (by omega) (by omega) (by omega) (by omega) (by omega)
  have hx0 : (((σ.put 4 (x + 56) i).putPtr (x + 32 + 8 * 1) 0).putPtr
      (x + 32 + 8 * 0) 0).getPtr (x + 32) = some 0 :=
    A.getPtr_self (by rfl) (by omega) (by omega) (by omega) (by omega) (by omega)
  generalize (((σ.put 4 (x + 56) i).putPtr (x + 32 + 8 * 1) 0).putPtr (x + 32 + 8 * 0) 0) = υ at *
  have hxl : ∀ b, Links 64 [x] b → x + 16 ≤ b ∧ b < x + 64 := by
    rintro b ⟨y, hy, h1, h2⟩
    rw [List.mem_singleton] at hy
    omega
  have Aυ : Arena υ m lo hi := A.frame hf (fun b h1 h2 hc => by
    have hl := hxl b hc
    omega)
  have hwυ : υ.get 4 (m + 4) = some w := by
    rw [hf.get (fun b h1 h2 hc => by
      have hl := hxl b hc
      omega)]
    exact hw
  have hxT : ∀ b, Links 64 (T i).addrs b → ¬ Links 64 [x] b := by
    intro b hb
    refine N.links_disjoint (fun y hy => List.mem_cons_of_mem _ hy) (by simp) ?_ hb
    intro y hy hc
    rw [List.mem_singleton.mp hc] at hy
    exact hxn hy
  have hT' : TreeBin υ m hi i (T i) := by
    refine TreeBin.frame ⟨hroot, par, hpar, htree⟩ hf ?_ hxT
    intro b h1 h2 hc
    have hl := hxl b hc
    omega
  have hHυ : HeadsAt υ (T i).entries := by
    intro e he
    refine ⟨?_, (hH e he).2⟩
    rw [hf.get (fun b h1 h2 hc => ?_)]
    · exact (hH e he).1
    · have hl := hxl b hc
      have hem : e.1 ∈ (T i).addrs := List.mem_map_of_mem he
      have hap := N.apart x (by simp) e.1 (List.mem_cons_of_mem _ hem)
      have hne : x ≠ e.1 := fun hc => hxn (hc ▸ hem)
      omega
  have hzone : ∀ {σ₁ σ₂ : State}, Frame (Links 64 (x :: (T i).addrs)) σ₁ σ₂ →
      Frame (TreeZone m i (x :: (T i).addrs)) σ₁ σ₂ :=
    fun h => h.mono (fun b hb => Or.inr (Or.inr hb))
  have hfz : Frame (TreeZone m i (x :: (T i).addrs)) σ υ :=
    hzone (hf.mono (fun b hb => links_mono (by simp) hb))
  obtain ⟨hroot', par', hpar', htree'⟩ := hT'
  rw [wp_treemapIsMarked hwυ hi32]
  by_cases hbit : w.testBit i = true
  · have hne : T i ≠ .nil := (hbits i hi32).mp hbit
    rw [wp_if_pos hbit]
    simp only [wp_bind]
    rw [wp_loadPtr hroot']
    have hk : shlSize s (leftshiftForTreeIndex i) = shlSize s (leftshiftForTreeIndex i + 0) := rfl
    refine wp_insertLargeLoop Aυ hne (height_le_fuel hword NT) N htree' hHυ hidx hx0 hx1 hk ?_
    intro τ hfτ hins
    refine hQ τ (hfz.trans (hzone hfτ)) ?_ ⟨?_, par', hpar', hins⟩
    · refine (MapAt.frame ⟨w, hwυ, hbits⟩ hfτ ?_).congr ?_
      · intro b h1 h2 hc
        have hl := N.links_high hc
        omega
      · intro j _
        by_cases hj : j = i
        · subst hj
          simp [hne, insert_ne_nil]
        · simp [hj]
    · rw [hfτ.getPtr (fun b h1 h2 hc => ?_), hroot', insert_root x hne]
      have hl := N.links_high hc
      omega
  · have hnil : T i = .nil := by
      by_contra hne
      exact hbit ((hbits i hi32).mpr hne)
    rw [wp_if_neg hbit]
    simp only [markTreemap, treemap, wp_bind, parent, bk, fd]
    rw [wp_update hwυ]
    refine Aυ.wp_storePtr rfl (by omega) (by omega) ?_
    have hself : ((υ.put 4 (m + 4) (w ||| idx2bit i)).putPtr (treebinAt m i) x).getPtr
        (treebinAt m i) = some x :=
      Aυ.getPtr_self (by rfl) (by omega) (by omega) (by omega) (by omega) (by omega)
    rw [wp_loadPtr hself]
    refine Aυ.wp_storePtr rfl (by omega) (by omega) ?_
    refine Aυ.wp_storePtr rfl (by omega) (by omega) ?_
    refine Aυ.wp_storePtr rfl (by omega) (by omega) ?_
    have hmark : MapAt (υ.put 4 (m + 4) (w ||| idx2bit i)) (m + 4)
        (fun j => j = i ∨ T j ≠ .nil) := MapAt.mark hwυ hbits hi32
    have hput : Frame (TreeZone m i (x :: (T i).addrs)) υ (υ.put 4 (m + 4) (w ||| idx2bit i)) :=
      (Frame.refl _ υ).put (fun b h1 h2 => Or.inl ⟨h1, by omega⟩)
    have hW := ((((Frame.refl (Words []) (υ.put 4 (m + 4) (w ||| idx2bit i))).word
      (treebinAt m i) x).word (x + 48) x).word (x + 24) x).word (x + 16) x
    have hWz : Frame (TreeZone m i (x :: (T i).addrs)) (υ.put 4 (m + 4) (w ||| idx2bit i)) _ :=
      hW.mono (by
        rintro b ⟨f, hf, h1, h2⟩
        simp only [List.mem_cons, List.not_mem_nil, or_false] at hf
        rcases hf with rfl | rfl | rfl | rfl
        · exact Or.inr (Or.inr ⟨x, by simp, by omega, by omega⟩)
        · exact Or.inr (Or.inr ⟨x, by simp, by omega, by omega⟩)
        · exact Or.inr (Or.inr ⟨x, by simp, by omega, by omega⟩)
        · exact Or.inr (Or.inl ⟨h1, h2⟩))
    refine hQ _ ((hfz.trans hput).trans hWz) ?_ ?_
    · refine (hmark.frame hW ?_).congr ?_
      · rintro b h1 h2 ⟨f, hf, h3, h4⟩
        simp only [List.mem_cons, List.not_mem_nil, or_false] at hf
        rcases hf with rfl | rfl | rfl | rfl <;> omega
      · intro j _
        by_cases hj : j = i
        · simp [hj, insert_ne_nil]
        · simp [hj]
    · rw [hnil]
      refine ⟨?_, x, by omega, ⟨⟨?_, ?_, ?_, ?_⟩, ⟨?_, ?_⟩, by simp⟩, trivial, trivial⟩
      · simp (disch := omega) only [Machine.getPtr_putPtr_ne]
        exact hself
      · simp (disch := omega) only [Machine.get_putPtr_ne, Machine.get_put_ne]
        exact hidx
      · simp (disch := omega) only [Machine.getPtr_putPtr_ne]
        exact Aυ.getPtr_self (by rfl) (by omega) (by omega) (by omega) (by omega) (by omega)
      · simp (disch := omega) only [Machine.getPtr_putPtr_ne, Machine.getPtr_put_ne]
        exact hx0
      · simp (disch := omega) only [Machine.getPtr_putPtr_ne, Machine.getPtr_put_ne]
        exact hx1
      · exact Aυ.getPtr_self (by rfl) (by omega) (by omega) (by omega) (by omega) (by omega)
      · simp only [bwd]
        simp (disch := omega) only [Machine.getPtr_putPtr_ne]
        exact Aυ.getPtr_self (by rfl) (by omega) (by omega) (by omega) (by omega) (by omega)

end

end Mmdata.Proofs
