import Mathlib.Data.List.Forall2
import Mathlib.Order.Lattice

namespace Mmdata.Lib

/-- Pairs with different keys, in the order of an iteration. -/
structure HashMap (K V : Type) where
  entries : List (K × V)
  unique : entries.Pairwise fun e f => e.1 ≠ f.1

/-- Pairs in the order of their keys. -/
structure Map (K V : Type) [LinearOrder K] where
  entries : List (K × V)
  sorted : entries.Pairwise fun e f => e.1 < f.1

/-- A container of pairs that takes a pair in unless the key is there. -/
structure Associative (M K V : Type) where
  entries : M → List (K × V)
  empty : M
  insert : M → K → V → M
  unique : ∀ m, (entries m).Pairwise fun e f => e.1 ≠ f.1
  entries_empty : entries empty = []
  mem_insert : ∀ m k v e, e ∈ entries (insert m k v) ↔
    e ∈ entries m ∨ (e = (k, v) ∧ ∀ f ∈ entries m, f.1 ≠ k)

/-- Where a new pair goes is not known. -/
def HashMap.insert {K V : Type} [DecidableEq K] (m : HashMap K V) (k : K) (v : V) : HashMap K V :=
  if h : ∀ f ∈ m.entries, f.1 ≠ k then
    ⟨(k, v) :: m.entries, List.pairwise_cons.mpr ⟨fun f hf => (h f hf).symm, m.unique⟩⟩
  else m

theorem HashMap.unique_nil {K V : Type} :
    ([] : List (K × V)).Pairwise fun e f => e.1 ≠ f.1 := .nil

def HashMap.associative (K V : Type) [DecidableEq K] : Associative (HashMap K V) K V where
  entries := HashMap.entries
  empty := ⟨[], HashMap.unique_nil⟩
  insert := HashMap.insert
  unique := HashMap.unique
  entries_empty := rfl
  mem_insert := by
    intro m k v e
    unfold HashMap.insert
    split
    · rename_i h
      rw [List.mem_cons]
      constructor
      · intro he
        cases he with
        | inl he => exact Or.inr ⟨he, h⟩
        | inr he => exact Or.inl he
      · intro he
        cases he with
        | inl he => exact Or.inr he
        | inr he => exact Or.inl he.1
    · rename_i h
      constructor
      · exact Or.inl
      · intro he
        cases he with
        | inl he => exact he
        | inr he => exact absurd he.2 h

def insertSorted {K V : Type} [LinearOrder K] (k : K) (v : V) : List (K × V) → List (K × V)
  | [] => [(k, v)]
  | e :: entries =>
    if k < e.1 then (k, v) :: e :: entries
    else if e.1 < k then e :: insertSorted k v entries
    else e :: entries

section

variable {K V : Type} [LinearOrder K] {k : K} {v : V} {entries : List (K × V)} {e : K × V}

theorem mem_insertSorted (hs : entries.Pairwise fun e f => e.1 < f.1) :
    e ∈ insertSorted k v entries ↔ e ∈ entries ∨ (e = (k, v) ∧ ∀ f ∈ entries, f.1 ≠ k) := by
  induction entries with
  | nil => simp [insertSorted]
  | cons f entries ih =>
    obtain ⟨hf, hs'⟩ := List.pairwise_cons.mp hs
    unfold insertSorted
    by_cases hlt : k < f.1
    · have hall : ∀ g ∈ f :: entries, g.1 ≠ k := by
        intro g hg
        cases hg with
        | head => exact ne_of_gt hlt
        | tail _ hg => exact ne_of_gt (lt_trans hlt (hf g hg))
      rw [if_pos hlt, List.mem_cons]
      constructor
      · intro he
        cases he with
        | inl he => exact Or.inr ⟨he, hall⟩
        | inr he => exact Or.inl he
      · intro he
        cases he with
        | inl he => exact Or.inr he
        | inr he => exact Or.inl he.1
    · rw [if_neg hlt]
      by_cases hgt : f.1 < k
      · rw [if_pos hgt, List.mem_cons, ih hs', List.mem_cons, List.forall_mem_cons]
        have hne : f.1 ≠ k := ne_of_lt hgt
        constructor
        · rintro (he | he | ⟨he, hall⟩)
          · exact Or.inl (Or.inl he)
          · exact Or.inl (Or.inr he)
          · exact Or.inr ⟨he, hne, hall⟩
        · rintro ((he | he) | ⟨he, _, hall⟩)
          · exact Or.inl he
          · exact Or.inr (Or.inl he)
          · exact Or.inr (Or.inr ⟨he, hall⟩)
      · rw [if_neg hgt]
        have heq : f.1 = k := le_antisymm (not_lt.mp hlt) (not_lt.mp hgt)
        constructor
        · exact Or.inl
        · intro he
          cases he with
          | inl he => exact he
          | inr he => exact absurd heq (he.2 f List.mem_cons_self)

theorem sorted_insertSorted (hs : entries.Pairwise fun e f => e.1 < f.1) :
    (insertSorted k v entries).Pairwise fun e f => e.1 < f.1 := by
  induction entries with
  | nil => exact List.pairwise_singleton _ _
  | cons f entries ih =>
    obtain ⟨hf, hs'⟩ := List.pairwise_cons.mp hs
    unfold insertSorted
    by_cases hlt : k < f.1
    · rw [if_pos hlt]
      refine List.pairwise_cons.mpr ⟨?_, hs⟩
      intro g hg
      cases hg with
      | head => exact hlt
      | tail _ hg => exact lt_trans hlt (hf g hg)
    · rw [if_neg hlt]
      by_cases hgt : f.1 < k
      · rw [if_pos hgt]
        refine List.pairwise_cons.mpr ⟨?_, ih hs'⟩
        intro g hg
        cases (mem_insertSorted hs').mp hg with
        | inl hg => exact hf g hg
        | inr hg =>
          rw [hg.1]
          exact hgt
      · rw [if_neg hgt]
        exact hs

end

def Map.insert {K V : Type} [LinearOrder K] (m : Map K V) (k : K) (v : V) : Map K V :=
  ⟨insertSorted k v m.entries, sorted_insertSorted m.sorted⟩

theorem Map.sorted_nil {K V : Type} [LinearOrder K] :
    ([] : List (K × V)).Pairwise fun e f => e.1 < f.1 := .nil

def Map.associative (K V : Type) [LinearOrder K] : Associative (Map K V) K V where
  entries := Map.entries
  empty := ⟨[], Map.sorted_nil⟩
  insert := Map.insert
  unique := fun m => m.sorted.imp ne_of_lt
  entries_empty := rfl
  mem_insert := fun m _ _ _ => mem_insertSorted m.sorted

/-- What stands opposite to an element. -/
theorem opposite_right {α β : Type} {R : α → β → Prop} {l : List α} {l' : List β}
    (h : List.Forall₂ R l l') {a : α} (ha : a ∈ l) : ∃ b ∈ l', R a b := by
  induction h with
  | nil => cases ha
  | cons hab _ ih =>
    cases ha with
    | head => exact ⟨_, List.mem_cons_self, hab⟩
    | tail _ ha =>
      obtain ⟨b, hb, hr⟩ := ih ha
      exact ⟨b, List.mem_cons_of_mem _ hb, hr⟩

theorem opposite_left {α β : Type} {R : α → β → Prop} {l : List α} {l' : List β}
    (h : List.Forall₂ R l l') {b : β} (hb : b ∈ l') : ∃ a ∈ l, R a b := by
  induction h with
  | nil => cases hb
  | cons hab _ ih =>
    cases hb with
    | head => exact ⟨_, List.mem_cons_self, hab⟩
    | tail _ hb =>
      obtain ⟨a, ha, hr⟩ := ih hb
      exact ⟨a, List.mem_cons_of_mem _ ha, hr⟩

end Mmdata.Lib
