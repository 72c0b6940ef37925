import Mmdata.Lib.Ring
import Mmdata.Lib.Trie

namespace Mmdata.Lib

/-! Linked structures whose nodes have other names. -/

/-- The tree with other items and the same keys. -/
def Trie.rename (f : Nat → Nat) : Trie → Trie
  | .nil => .nil
  | .node a s ring l r => .node (f a) s (ring.map f) (l.rename f) (r.rename f)

section

variable {next prev next' prev' : Nat → Option Nat} {a b h d : Nat} {l : List Nat} {f : Nat → Nat}
  {bit : Nat → Nat → Bool}

theorem Dll.rename (hd : Dll next prev a l b)
    (hn : ∀ u ∈ a :: l, ∀ v, next u = some v → next' (f u) = some (f v))
    (hp : ∀ u ∈ l ++ [b], ∀ v, prev u = some v → prev' (f u) = some (f v)) :
    Dll next' prev' (f a) (l.map f) (f b) := by
  induction l generalizing a with
  | nil => exact ⟨hn a (by simp) b hd.1, hp b (by simp) a hd.2⟩
  | cons x l ih =>
    obtain ⟨h1, h2, h3⟩ := hd
    refine ⟨hn a (by simp) x h1, hp x (by simp) a h2, ih h3 ?_ ?_⟩
    · intro u hu
      exact hn u (List.mem_cons_of_mem _ hu)
    · intro u hu
      exact hp u (List.mem_cons_of_mem _ hu)

theorem LinkRing.rename (hr : LinkRing next prev h l)
    (hn : ∀ u ∈ h :: l, ∀ v, next u = some v → next' (f u) = some (f v))
    (hp : ∀ u ∈ h :: l, ∀ v, prev u = some v → prev' (f u) = some (f v)) :
    LinkRing next' prev' (f h) (l.map f) := by
  apply Dll.rename hr hn
  intro u hu
  exact hp u (by simpa [or_comm] using hu)

namespace Trie

variable (t : Trie)

@[simp] theorem rename_root (h0 : f 0 = 0) : (t.rename f).root = f t.root := by
  cases t with
  | nil => exact h0.symm
  | node => rfl

@[simp] theorem rename_entries :
    (t.rename f).entries = t.entries.map fun e => (f e.1, e.2) := by
  induction t with
  | nil => rfl
  | node a s ring l r ihl ihr =>
    simp only [rename, entries, ihl, ihr, List.map_append, List.map_map, List.map_cons]
    rfl

@[simp] theorem rename_addrs : (t.rename f).addrs = t.addrs.map f := by
  simp only [addrs, rename_entries, List.map_map]
  rfl

@[simp] theorem rename_eq_nil : t.rename f = .nil ↔ t = .nil := by
  cases t with
  | nil => exact Iff.rfl
  | node => simp [rename]

/-- Only the keys tell where an item belongs. -/
theorem rename_ordered : (t.rename f).Ordered bit d ↔ t.Ordered bit d := by
  induction t generalizing d with
  | nil => exact Iff.rfl
  | node a s ring l r ihl ihr =>
    simp only [rename, Ordered, ihl, ihr, rename_entries, List.forall_mem_map]

end Trie

end

end Mmdata.Lib
