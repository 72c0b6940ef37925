import Mmdata.Lib.Ring
import Mmdata.Proofs.Heads

namespace Mmdata.Proofs
open Lib Malloc

/-- The memory of a heap: its malloc_state at `m`, its chunks between `m + 920`
and `hi`, and the least address its checks let pass. -/
structure Arena (σ : State) (m lo hi : Nat) : Prop where
  align : m % 8 = 0
  pos : 0 < lo
  low : lo ≤ m
  high : m + 920 ≤ hi
  word : hi ≤ 2 ^ 64
  mapped : ∃ r ∈ σ.maps, r.1 ≤ m ∧ hi ≤ r.2
  least : σ.getPtr (m + 24) = some lo

/-- The bytes of the links that the nodes `xs` hold, `n` bytes into each at most. -/
def Links (n : Nat) (xs : List Nat) (b : Nat) : Prop := ∃ x ∈ xs, x + 16 ≤ b ∧ b < x + n

/-- Nodes of linked lists that keep their links apart. -/
structure Nodes (m hi : Nat) (xs : List Nat) : Prop where
  nodup : xs.Nodup
  inside : ∀ x ∈ xs, x % 8 = 0 ∧ m + 72 ≤ x ∧ x + 32 ≤ hi
  apart : ∀ x ∈ xs, ∀ y ∈ xs, x = y ∨ x + 32 ≤ y ∨ y + 32 ≤ x

def fwd (σ : State) (x : Nat) : Option Nat := σ.getPtr (x + 16)

def bwd (σ : State) (x : Nat) : Option Nat := σ.getPtr (x + 24)

section

variable {σ τ : State} {m lo hi : Nat}

theorem Arena.covers (A : Arena σ m lo hi) {a n : Nat} (ha : m ≤ a) (hn : a + n ≤ hi) :
    σ.mapped a n = true := by
  obtain ⟨r, hr, hl, hh⟩ := A.mapped
  exact Machine.mapped_of_mem hr (Nat.le_trans hl ha) (Nat.le_trans hn hh)

theorem Arena.frame {W : Nat → Prop} (A : Arena σ m lo hi) (h : Frame W σ τ)
    (hw : ∀ b, m + 24 ≤ b → b < m + 32 → ¬ W b) : Arena τ m lo hi := by
  refine ⟨A.align, A.pos, A.low, A.high, A.word, ?_, ?_⟩
  · rw [h.maps]
    exact A.mapped
  · rw [h.getPtr (fun b hb hb' => hw b hb (by omega))]
    exact A.least

theorem Arena.wp_storePtr {D : Trap → Prop} {Q : Unit → State → Prop} {a t : Nat}
    (A : Arena σ m lo hi) (hmaps : τ.maps = σ.maps) (ha : m ≤ a) (hn : a + 8 ≤ hi)
    (hQ : Q () (τ.putPtr a t)) : wp D (storePtr a t) Q τ := by
  rw [Lib.wp_storePtr (by rw [Machine.mapped_congr hmaps]; exact A.covers ha hn)]
  exact hQ

theorem Arena.wp_store {D : Trap → Prop} {Q : Unit → State → Prop} {n a v : Nat}
    (A : Arena σ m lo hi) (hmaps : τ.maps = σ.maps) (ha : m ≤ a) (hn : a + n ≤ hi)
    (hQ : Q () (τ.put n a v)) : wp D (store n a v) Q τ := by
  rw [Lib.wp_store (by rw [Machine.mapped_congr hmaps]; exact A.covers ha hn)]
  exact hQ

/-- A pointer stored in the arena reads back. -/
theorem Arena.getPtr_self (A : Arena σ m lo hi) (hmaps : τ.maps = σ.maps) {f t : Nat}
    (hf : m ≤ f) (hf' : f + 8 ≤ hi) (hf8 : f % 8 = 0) (ht : t = 0 ∨ m ≤ t ∧ t < hi)
    (ht8 : t % 8 = 0) : (τ.putPtr f t).getPtr f = some t := by
  have hword := A.word
  have hm : ∀ a n, τ.mapped a n = σ.mapped a n := Machine.mapped_congr hmaps
  have ht' : t = 0 ∨ τ.mapped t 1 = true := by
    rcases ht with ht | ⟨ht, ht'⟩
    · exact Or.inl ht
    · exact Or.inr (by rw [hm]; exact A.covers ht (by omega))
  have hlt : t < 2 ^ 64 := by
    rcases ht with ht | ⟨_, ht⟩
    · omega
    · omega
  exact Machine.getPtr_putPtr_same (by rw [hm]; exact A.covers hf hf') ht' (by omega) hlt hf8 ht8

variable {xs l : List Nat} {h p x y j k : Nat}

theorem Nodes.links_apart (N : Nodes m hi xs) (hx : x ∈ xs) (hy : y ∈ xs) (hne : x ≠ y)
    (hj : 16 ≤ j ∧ j ≤ 24) (hk : 16 ≤ k ∧ k ≤ 24) : x + j + 8 ≤ y + k ∨ y + k + 8 ≤ x + j := by
  rcases N.apart x hx y hy with he | ha | ha
  · exact absurd he hne
  · omega
  · omega

/-- Four words link `p` in after the head of a ring. -/
theorem ring_link (N : Nodes m hi (h :: p :: l))
    (hr : l ≠ [] → LinkRing (fwd σ) (bwd σ) h l)
    (hW : Frame (Words [p + 24, p + 16, firstNode h l + 24, h + 16]) σ τ)
    (h1 : τ.getPtr (h + 16) = some p) (h2 : τ.getPtr (p + 24) = some h)
    (h3 : τ.getPtr (p + 16) = some (firstNode h l))
    (h4 : τ.getPtr (firstNode h l + 24) = some p) : LinkRing (fwd τ) (bwd τ) h (p :: l) := by
  obtain ⟨hh, hnd⟩ := List.nodup_cons.mp N.nodup
  obtain ⟨hp, hnd'⟩ := List.nodup_cons.mp hnd
  have hph : p ≠ h := fun he => hh (he ▸ List.mem_cons_self)
  have hmem : ∀ u ∈ h :: l, u ∈ h :: p :: l := by
    intro u hu
    rcases List.mem_cons.mp hu with rfl | hu
    · exact List.mem_cons_self
    · exact List.mem_cons_of_mem _ (List.mem_cons_of_mem _ hu)
  have hpm : p ∈ h :: p :: l := by simp
  have hup : ∀ u ∈ h :: l, u ≠ p := by
    intro u hu he
    rcases List.mem_cons.mp hu with rfl | hu
    · exact hph he.symm
    · exact hp (he ▸ hu)
  refine LinkRing.insert hr ?_ ?_ h1 h2 h3 h4 ?_ ?_
  · exact List.nodup_cons.mpr ⟨fun hc => hh (List.mem_cons_of_mem _ hc), hnd'⟩
  · exact fun hc => hup p hc rfl
  · intro u hu
    have hul : u ∈ h :: l := List.mem_cons_of_mem _ hu
    have huh : u ≠ h := fun he => hh (by rw [← he]; exact List.mem_cons_of_mem _ hu)
    refine hW.getPtr_words ?_
    intro f hf
    simp only [List.mem_cons, List.not_mem_nil, or_false] at hf
    rcases hf with rfl | rfl | rfl | rfl
    · exact N.links_apart (hmem u hul) hpm (hup u hul) (by omega) (by omega)
    · exact N.links_apart (hmem u hul) hpm (hup u hul) (by omega) (by omega)
    · by_cases he : u = firstNode h l
      · omega
      · exact N.links_apart (hmem u hul) (hmem _ (firstNode_mem h l)) he (by omega) (by omega)
    · exact N.links_apart (hmem u hul) List.mem_cons_self huh (by omega) (by omega)
  · intro v hv hvf
    refine hW.getPtr_words ?_
    intro f hf
    simp only [List.mem_cons, List.not_mem_nil, or_false] at hf
    rcases hf with rfl | rfl | rfl | rfl
    · exact N.links_apart (hmem v hv) hpm (hup v hv) (by omega) (by omega)
    · exact N.links_apart (hmem v hv) hpm (hup v hv) (by omega) (by omega)
    · exact N.links_apart (hmem v hv) (hmem _ (firstNode_mem h l)) hvf (by omega) (by omega)
    · by_cases he : v = h
      · omega
      · exact N.links_apart (hmem v hv) List.mem_cons_self he (by omega) (by omega)

/-- Two words take `p` out of a ring. -/
theorem ring_unlink {l₁ l₂ : List Nat} (N : Nodes m hi (h :: (l₁ ++ p :: l₂)))
    (hr : LinkRing (fwd σ) (bwd σ) h (l₁ ++ p :: l₂))
    (hW : Frame (Words [lastNode h l₁ + 16, firstNode h l₂ + 24]) σ τ)
    (hf : τ.getPtr (lastNode h l₁ + 16) = some (firstNode h l₂))
    (hb : τ.getPtr (firstNode h l₂ + 24) = some (lastNode h l₁)) :
    LinkRing (fwd τ) (bwd τ) h (l₁ ++ l₂) := by
  have hmem : ∀ u ∈ h :: (l₁ ++ l₂), u ∈ h :: (l₁ ++ p :: l₂) := by
    intro u hu
    simp only [List.mem_cons, List.mem_append] at hu ⊢
    rcases hu with hu | hu | hu
    · exact Or.inl hu
    · exact Or.inr (Or.inl hu)
    · exact Or.inr (Or.inr (Or.inr hu))
  have hlast : lastNode h l₁ ∈ h :: (l₁ ++ l₂) := by
    rcases List.mem_cons.mp (lastNode_mem h l₁) with he | hm
    · rw [he]
      exact List.mem_cons_self
    · exact List.mem_cons_of_mem _ (List.mem_append_left _ hm)
  have hfirst : firstNode h l₂ ∈ h :: (l₁ ++ l₂) := by
    rcases List.mem_cons.mp (firstNode_mem h l₂) with he | hm
    · rw [he]
      exact List.mem_cons_self
    · exact List.mem_cons_of_mem _ (List.mem_append_right _ hm)
  refine LinkRing.remove hr N.nodup hf hb ?_ ?_
  · intro u hu hul
    refine hW.getPtr_words ?_
    intro f hf
    simp only [List.mem_cons, List.not_mem_nil, or_false] at hf
    rcases hf with rfl | rfl
    · exact N.links_apart (hmem u hu) (hmem _ hlast) hul (by omega) (by omega)
    · by_cases he : u = firstNode h l₂
      · omega
      · exact N.links_apart (hmem u hu) (hmem _ hfirst) he (by omega) (by omega)
  · intro v hv hvf
    refine hW.getPtr_words ?_
    intro f hf
    simp only [List.mem_cons, List.not_mem_nil, or_false] at hf
    rcases hf with rfl | rfl
    · by_cases he : v = lastNode h l₁
      · omega
      · exact N.links_apart (hmem v hv) (hmem _ hlast) he (by omega) (by omega)
    · exact N.links_apart (hmem v hv) (hmem _ hfirst) hvf (by omega) (by omega)

end

end Mmdata.Proofs
