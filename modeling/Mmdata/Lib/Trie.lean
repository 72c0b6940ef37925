import Mathlib.Data.List.Perm.Basic
import Mathlib.Data.List.Nodup
import Mmdata.Lib.Ring

namespace Mmdata.Lib

/-- A digital tree whose nodes hold a key and the ring of items with that key:
`a` is the item in the tree, `ring` the others. -/
inductive Trie
  | nil
  | node (a s : Nat) (ring : List Nat) (l r : Trie)

/-- A tree with a hole, from the hole outwards. -/
inductive TrieCtx
  | hole
  | left (a s : Nat) (ring : List Nat) (r : Trie) (up : TrieCtx)
  | right (a s : Nat) (ring : List Nat) (l : Trie) (up : TrieCtx)

namespace Trie

def root : Trie → Nat
  | nil => 0
  | node a _ _ _ _ => a

/-- Every item with its key. -/
def entries : Trie → List (Nat × Nat)
  | nil => []
  | node a s ring l r => (a :: ring).map (fun x => (x, s)) ++ (l.entries ++ r.entries)

def addrs (t : Trie) : List Nat := t.entries.map Prod.fst

def height : Trie → Nat
  | nil => 0
  | node _ _ _ l r => max l.height r.height + 1

/-- Add the item `x` with key `s` below depth `d`, going where the bits of `s` lead. -/
def insert (bit : Nat → Nat → Bool) (x s : Nat) : Nat → Trie → Trie
  | _, nil => node x s [] nil nil
  | d, node a k ring l r =>
    if k = s then node a k (x :: ring) l r
    else if bit s d then node a k ring l (r.insert bit x s (d + 1))
    else node a k ring (l.insert bit x s (d + 1)) r

/-- Below a node at depth `d`, the keys on the left have bit `d` clear, those
on the right have it set, and none is the key of the node. -/
def Ordered (bit : Nat → Nat → Bool) : Nat → Trie → Prop
  | _, nil => True
  | d, node _ s _ l r =>
    (∀ e ∈ l.entries, e.2 ≠ s ∧ bit e.2 d = false) ∧
    (∀ e ∈ r.entries, e.2 ≠ s ∧ bit e.2 d = true) ∧
    Ordered bit (d + 1) l ∧ Ordered bit (d + 1) r

end Trie

/-- `t` without the item `x` of key `s`, in the same order. -/
def Without (bit : Nat → Nat → Bool) (x s : Nat) (t u : Trie) : Prop :=
  t.entries.Perm ((x, s) :: u.entries) ∧ ∀ d, t.Ordered bit d → u.Ordered bit d

namespace TrieCtx

def plug : TrieCtx → Trie → Trie
  | hole, t => t
  | left a s ring r up, t => up.plug (.node a s ring t r)
  | right a s ring l up, t => up.plug (.node a s ring l t)

def entries : TrieCtx → List (Nat × Nat)
  | hole => []
  | left a s ring r up => (a :: ring).map (fun x => (x, s)) ++ (r.entries ++ up.entries)
  | right a s ring l up => (a :: ring).map (fun x => (x, s)) ++ (l.entries ++ up.entries)

def addrs (c : TrieCtx) : List Nat := c.entries.map Prod.fst

/-- The node the hole hangs from; `par` at the top. -/
def holeParent (par : Nat) : TrieCtx → Nat
  | hole => par
  | left a _ _ _ _ => a
  | right a _ _ _ _ => a

def depth : TrieCtx → Nat
  | hole => 0
  | left _ _ _ _ up => up.depth + 1
  | right _ _ _ _ up => up.depth + 1

/-- The context `c` inside the hole of `o`. -/
def under : TrieCtx → TrieCtx → TrieCtx
  | hole, o => o
  | left a s ring r up, o => left a s ring r (up.under o)
  | right a s ring l up, o => right a s ring l (up.under o)

/-- The directions to the hole are those of the bits of `s`, and no node on
the way has the key `s`. -/
def Accepts (bit : Nat → Nat → Bool) : TrieCtx → Nat → Prop
  | hole, _ => True
  | left _ t _ _ up, s => s ≠ t ∧ bit s up.depth = false ∧ up.Accepts bit s
  | right _ t _ _ up, s => s ≠ t ∧ bit s up.depth = true ∧ up.Accepts bit s

def Ordered (bit : Nat → Nat → Bool) : TrieCtx → Prop
  | hole => True
  | left _ t _ r up =>
    (∀ e ∈ r.entries, e.2 ≠ t ∧ bit e.2 up.depth = true) ∧ r.Ordered bit (up.depth + 1) ∧
    up.Accepts bit t ∧ (∀ e ∈ r.entries, up.Accepts bit e.2) ∧ up.Ordered bit
  | right _ t _ l up =>
    (∀ e ∈ l.entries, e.2 ≠ t ∧ bit e.2 up.depth = false) ∧ l.Ordered bit (up.depth + 1) ∧
    up.Accepts bit t ∧ (∀ e ∈ l.entries, up.Accepts bit e.2) ∧ up.Ordered bit

end TrieCtx

section

variable {bit : Nat → Nat → Bool} {a s d : Nat} {ring : List Nat} {l r t u : Trie} {c o : TrieCtx}

theorem plug_under (c o : TrieCtx) (t : Trie) : (c.under o).plug t = o.plug (c.plug t) := by
  induction c generalizing t with
  | hole => rfl
  | left a s ring r up ih => exact ih _
  | right a s ring l up ih => exact ih _

theorem mem_node_entries {e : Nat × Nat} : e ∈ (Trie.node a s ring l r).entries ↔
    (e.1 ∈ a :: ring ∧ e.2 = s) ∨ e ∈ l.entries ∨ e ∈ r.entries := by
  obtain ⟨x, k⟩ := e
  simp only [Trie.entries, List.mem_append, List.mem_map, Prod.mk.injEq]
  constructor
  · rintro (⟨y, hy, rfl, rfl⟩ | h)
    · exact Or.inl ⟨hy, rfl⟩
    · exact Or.inr h
  · rintro (⟨hx, rfl⟩ | h)
    · exact Or.inl ⟨x, hx, rfl, rfl⟩
    · exact Or.inr h

/-- The entries of a plugged tree are those of the context and of the tree. -/
theorem plug_entries (c : TrieCtx) (t : Trie) :
    (c.plug t).entries.Perm (c.entries ++ t.entries) := by
  induction c generalizing t with
  | hole => exact List.Perm.refl _
  | left a s ring r up ih =>
    refine (ih _).trans ?_
    simp only [TrieCtx.entries, Trie.entries, List.append_assoc]
    refine List.perm_append_comm.trans ?_
    simp only [List.append_assoc]
    refine List.Perm.append_left _ ?_
    exact List.perm_append_comm.trans (by simp)
  | right a s ring l up ih =>
    refine (ih _).trans ?_
    simp only [TrieCtx.entries, Trie.entries, List.append_assoc]
    refine List.perm_append_comm.trans ?_
    simp only [List.append_assoc]
    refine List.Perm.append_left _ ?_
    refine List.Perm.append_left _ ?_
    exact List.perm_append_comm

theorem mem_plug_entries {e : Nat × Nat} :
    e ∈ (c.plug t).entries ↔ e ∈ c.entries ∨ e ∈ t.entries := by
  rw [(plug_entries c t).mem_iff, List.mem_append]

theorem forall_node_entries {P : Nat → Prop} :
    (∀ e ∈ (Trie.node a s ring l r).entries, P e.2) ↔
      P s ∧ (∀ e ∈ l.entries, P e.2) ∧ ∀ e ∈ r.entries, P e.2 := by
  constructor
  · intro h
    refine ⟨h (a, s) (mem_node_entries.mpr (Or.inl ⟨by simp, rfl⟩)), ?_, ?_⟩
    · exact fun e he => h e (mem_node_entries.mpr (Or.inr (Or.inl he)))
    · exact fun e he => h e (mem_node_entries.mpr (Or.inr (Or.inr he)))
  · rintro ⟨hs, hl, hr⟩ e he
    rcases mem_node_entries.mp he with ⟨_, rfl⟩ | h | h
    · exact hs
    · exact hl e h
    · exact hr e h

theorem ordered_plug : (c.plug t).Ordered bit 0 ↔
    c.Ordered bit ∧ (∀ e ∈ t.entries, c.Accepts bit e.2) ∧ t.Ordered bit c.depth := by
  induction c generalizing t with
  | hole => simp [TrieCtx.plug, TrieCtx.Ordered, TrieCtx.Accepts, TrieCtx.depth]
  | left a s ring r up ih =>
    simp only [TrieCtx.plug, ih, forall_node_entries (P := up.Accepts bit), Trie.Ordered, TrieCtx.Ordered,
      TrieCtx.Accepts, TrieCtx.depth]
    constructor
    · rintro ⟨hu, ⟨hs, ht, hr⟩, hl, hr', hot, hor⟩
      exact ⟨⟨hr', hor, hs, hr, hu⟩, fun e he => ⟨(hl e he).1, (hl e he).2, ht e he⟩, hot⟩
    · rintro ⟨⟨hr', hor, hs, hr, hu⟩, hl, hot⟩
      exact ⟨hu, ⟨hs, fun e he => (hl e he).2.2, hr⟩,
        fun e he => ⟨(hl e he).1, (hl e he).2.1⟩, hr', hot, hor⟩
  | right a s ring l up ih =>
    simp only [TrieCtx.plug, ih, forall_node_entries (P := up.Accepts bit), Trie.Ordered, TrieCtx.Ordered,
      TrieCtx.Accepts, TrieCtx.depth]
    constructor
    · rintro ⟨hu, ⟨hs, hl, ht⟩, hl', hr, hol, hot⟩
      exact ⟨⟨hl', hol, hs, hl, hu⟩, fun e he => ⟨(hr e he).1, (hr e he).2, ht e he⟩, hot⟩
    · rintro ⟨⟨hl', hol, hs, hl, hu⟩, hr, hot⟩
      exact ⟨hu, ⟨hs, hl, fun e he => (hr e he).2.2⟩, hl',
        fun e he => ⟨(hr e he).1, (hr e he).2.1⟩, hol, hot⟩

/-- No entry around the hole has a key the hole accepts. -/
theorem accepts_ne (hc : c.Ordered bit) (ha : c.Accepts bit s) :
    ∀ e ∈ c.entries, e.2 ≠ s := by
  induction c with
  | hole => simp [TrieCtx.entries]
  | left a t ring r up ih =>
    obtain ⟨hr, _, _, _, hu⟩ := hc
    obtain ⟨hst, hb, hup⟩ := ha
    intro e he
    simp only [TrieCtx.entries, List.mem_append, List.mem_map] at he
    rcases he with ⟨x, _, rfl⟩ | he | he
    · exact fun h => hst h.symm
    · intro h
      have hbit := (hr e he).2
      rw [h, hb] at hbit
      contradiction
    · exact ih hu hup e he
  | right a t ring l up ih =>
    obtain ⟨hl, _, _, _, hu⟩ := hc
    obtain ⟨hst, hb, hup⟩ := ha
    intro e he
    simp only [TrieCtx.entries, List.mem_append, List.mem_map] at he
    rcases he with ⟨x, _, rfl⟩ | he | he
    · exact fun h => hst h.symm
    · intro h
      have hbit := (hl e he).2
      rw [h, hb] at hbit
      contradiction
    · exact ih hu hup e he

/-- Every entry sits in the ring of some node. -/
theorem exists_ctx {x : Nat} (h : (x, s) ∈ t.entries) :
    ∃ c a ring l r, t = TrieCtx.plug c (.node a s ring l r) ∧ x ∈ a :: ring := by
  induction t with
  | nil => simp [Trie.entries] at h
  | node a k ring l r ihl ihr =>
    rcases mem_node_entries.mp h with ⟨hx, rfl⟩ | hl | hr
    · exact ⟨.hole, a, ring, l, r, rfl, hx⟩
    · obtain ⟨c, b, ring', l', r', he, hx⟩ := ihl hl
      refine ⟨c.under (.left a k ring r .hole), b, ring', l', r', ?_, hx⟩
      rw [plug_under, ← he]
      rfl
    · obtain ⟨c, b, ring', l', r', he, hx⟩ := ihr hr
      refine ⟨c.under (.right a k ring l .hole), b, ring', l', r', ?_, hx⟩
      rw [plug_under, ← he]
      rfl

theorem height_le_entries (t : Trie) : t.height ≤ t.entries.length := by
  induction t with
  | nil => simp [Trie.height]
  | node a s ring l r ihl ihr =>
    simp only [Trie.height, Trie.entries, List.length_append, List.length_map, List.length_cons]
    omega

theorem root_mem (h : t ≠ .nil) : ∃ s, (t.root, s) ∈ t.entries := by
  cases t with
  | nil => contradiction
  | node a s ring l r => exact ⟨s, mem_node_entries.mpr (Or.inl ⟨by simp [Trie.root], rfl⟩)⟩

theorem ordered_shift (t : Trie) (d b : Nat) :
    t.Ordered bit (d + b) ↔ t.Ordered (fun s k => bit s (k + b)) d := by
  induction t generalizing d with
  | nil => exact Iff.rfl
  | node a s ring l r ihl ihr =>
    have hd : d + b + 1 = d + 1 + b := by omega
    simp only [Trie.Ordered, hd, ihl, ihr]

/-- Taking a leaf off keeps the order, and no other node has its key. -/
theorem Trie.Ordered.detach {b k : Nat}
    (h : (o.plug (.node b k ring .nil .nil)).Ordered bit d) :
    (o.plug .nil).Ordered bit d ∧ ∀ e ∈ o.entries, e.2 ≠ k := by
  have hs := (ordered_shift (o.plug (.node b k ring .nil .nil)) 0 d).mp (by simpa using h)
  obtain ⟨ho, hacc, _⟩ := ordered_plug.mp hs
  have hk := hacc (b, k) (mem_node_entries.mpr (Or.inl ⟨by simp, rfl⟩))
  have hn : (o.plug .nil).Ordered (fun s k => bit s (k + d)) 0 :=
    ordered_plug.mpr ⟨ho, by simp [Trie.entries], trivial⟩
  exact ⟨by simpa using (ordered_shift (o.plug .nil) 0 d).mpr hn, accepts_ne ho hk⟩

/-- A node is replaced by a leaf from its right subtree. -/
theorem Trie.Ordered.replace_right {b k : Nat} {ring' : List Nat}
    (h : (Trie.node a s ring l (o.plug (.node b k ring' .nil .nil))).Ordered bit d) :
    (Trie.node b k ring' l (o.plug .nil)).Ordered bit d := by
  obtain ⟨h1, h2, h3, h4⟩ := h
  obtain ⟨hnil, hne⟩ := h4.detach
  have hk := (h2 (b, k) (mem_plug_entries.mpr (Or.inr (by simp [Trie.entries])))).2
  refine ⟨?_, ?_, h3, hnil⟩
  · intro e he
    refine ⟨fun hek => ?_, (h1 e he).2⟩
    have hb := (h1 e he).2
    rw [hek, hk] at hb
    contradiction
  · intro e he
    have heo : e ∈ o.entries := by simpa [mem_plug_entries, Trie.entries] using he
    exact ⟨hne e heo, (h2 e (mem_plug_entries.mpr (Or.inl heo))).2⟩

/-- A node without right subtree is replaced by a leaf from its left subtree. -/
theorem Trie.Ordered.replace_left {b k : Nat} {ring' : List Nat}
    (h : (Trie.node a s ring (o.plug (.node b k ring' .nil .nil)) .nil).Ordered bit d) :
    (Trie.node b k ring' (o.plug .nil) .nil).Ordered bit d := by
  obtain ⟨h1, h2, h3, h4⟩ := h
  obtain ⟨hnil, hne⟩ := h3.detach
  refine ⟨?_, by simp [Trie.entries], hnil, h4⟩
  intro e he
  have heo : e ∈ o.entries := by simpa [mem_plug_entries, Trie.entries] using he
  exact ⟨hne e heo, (h1 e (mem_plug_entries.mpr (Or.inl heo))).2⟩

theorem insert_ne_nil (x : Nat) : t.insert bit x s d ≠ .nil := by
  cases t with
  | nil => simp [Trie.insert]
  | node a k ring l r =>
    simp only [Trie.insert]
    split
    · simp
    · split <;> simp

theorem insert_root (x : Nat) (h : t ≠ .nil) : (t.insert bit x s d).root = t.root := by
  cases t with
  | nil => contradiction
  | node a k ring l r =>
    simp only [Trie.insert]
    split
    · rfl
    · split <;> rfl

theorem insert_entries (x : Nat) (t : Trie) (d : Nat) :
    (t.insert bit x s d).entries.Perm ((x, s) :: t.entries) := by
  induction t generalizing d with
  | nil => simp [Trie.insert, Trie.entries]
  | node a k ring l r ihl ihr =>
    simp only [Trie.insert]
    by_cases hk : k = s
    · subst hk
      rw [if_pos rfl]
      simp only [Trie.entries, List.map_cons, List.cons_append]
      exact List.Perm.swap _ _ _
    · rw [if_neg hk]
      by_cases hb : bit s d = true
      · rw [if_pos hb]
        simp only [Trie.entries]
        rw [← List.append_assoc, ← List.append_assoc]
        exact ((ihr (d + 1)).append_left _).trans List.perm_middle
      · rw [if_neg hb]
        simp only [Trie.entries]
        have h := ((ihl (d + 1)).append_right r.entries).append_left
          ((a :: ring).map fun x => (x, k))
        exact h.trans List.perm_middle

theorem insert_ordered {x : Nat} (h : t.Ordered bit d) :
    (t.insert bit x s d).Ordered bit d := by
  induction t generalizing d with
  | nil => simp [Trie.insert, Trie.Ordered, Trie.entries]
  | node a k ring l r ihl ihr =>
    obtain ⟨h1, h2, h3, h4⟩ := h
    simp only [Trie.insert]
    by_cases hk : k = s
    · rw [if_pos hk]
      exact ⟨h1, h2, h3, h4⟩
    · rw [if_neg hk]
      by_cases hb : bit s d = true
      · rw [if_pos hb]
        refine ⟨h1, ?_, h3, ihr h4⟩
        intro e he
        rcases List.mem_cons.mp ((insert_entries x r (d + 1)).mem_iff.mp he) with rfl | he
        · exact ⟨fun hc => hk hc.symm, hb⟩
        · exact h2 e he
      · rw [if_neg hb]
        refine ⟨?_, h2, ihl h3, h4⟩
        intro e he
        rcases List.mem_cons.mp ((insert_entries x l (d + 1)).mem_iff.mp he) with rfl | he
        · exact ⟨fun hc => hk hc.symm, by simpa using hb⟩
        · exact h1 e he

/-- Taking an item out of a subtree takes it out of the tree. -/
theorem Without.plug {x : Nat} (h : Without bit x s t u) (ho : (c.plug t).Ordered bit 0) :
    (c.plug u).Ordered bit 0 := by
  obtain ⟨h1, h2, h3⟩ := ordered_plug.mp ho
  refine ordered_plug.mpr ⟨h1, ?_, h.2 _ h3⟩
  intro e he
  exact h2 e (h.1.mem_iff.mpr (List.mem_cons_of_mem _ he))

theorem Without.plug_entries {x : Nat} (h : Without bit x s t u) (c : TrieCtx) :
    (c.plug t).entries.Perm ((x, s) :: (c.plug u).entries) := by
  refine (Lib.plug_entries c t).trans ((h.1.append_left c.entries).trans ?_)
  exact List.perm_middle.trans ((Lib.plug_entries c u).symm.cons _)

/-- The last of a ring takes the place of its head. -/
theorem without_head {b x : Nat} :
    Without bit x s (.node x s (ring ++ [b]) l r) (.node b s ring l r) := by
  refine ⟨?_, fun d h => h⟩
  simp only [Trie.entries, List.map_cons, List.map_append, List.map_nil, List.cons_append,
    List.append_assoc, List.nil_append]
  exact List.Perm.cons _ (List.perm_middle)

/-- A member of a ring leaves it. -/
theorem without_member {x : Nat} {l₁ l₂ : List Nat} :
    Without bit x s (.node a s (l₁ ++ x :: l₂) l r) (.node a s (l₁ ++ l₂) l r) := by
  refine ⟨?_, fun d h => h⟩
  simp only [Trie.entries, List.map_cons, List.map_append, List.cons_append, List.append_assoc]
  exact (List.perm_middle.cons _).trans (List.Perm.swap _ _ _)

theorem without_leaf {x : Nat} : Without bit x s (.node x s [] .nil .nil) .nil :=
  ⟨by simp [Trie.entries], fun _ _ => trivial⟩

/-- A leaf from the right subtree takes the place of a node. -/
theorem without_right {b k x : Nat} {ring' : List Nat} :
    Without bit x s (.node x s [] l (o.plug (.node b k ring' .nil .nil)))
      (.node b k ring' l (o.plug .nil)) := by
  refine ⟨?_, fun d h => h.replace_right⟩
  simp only [Trie.entries, List.map_cons, List.map_nil, List.cons_append, List.nil_append]
  refine List.Perm.cons _ ?_
  refine ((Lib.plug_entries o _).append_left l.entries).trans ?_
  have hnil : (o.plug .nil).entries.Perm o.entries := by
    simpa [Trie.entries] using Lib.plug_entries o .nil
  refine List.Perm.trans ?_ (((hnil.symm.append_left l.entries).append_left _).cons _)
  simp only [Trie.entries, List.map_cons, List.append_nil]
  rw [← List.append_assoc]
  exact List.perm_append_comm

theorem without_left {b k x : Nat} {ring' : List Nat} :
    Without bit x s (.node x s [] (o.plug (.node b k ring' .nil .nil)) .nil)
      (.node b k ring' (o.plug .nil) .nil) := by
  refine ⟨?_, fun d h => h.replace_left⟩
  simp only [Trie.entries, List.map_cons, List.map_nil, List.cons_append, List.nil_append,
    List.append_nil]
  refine List.Perm.cons _ ?_
  refine (Lib.plug_entries o _).trans ?_
  have hnil : (o.plug .nil).entries.Perm o.entries := by
    simpa [Trie.entries] using Lib.plug_entries o .nil
  refine List.Perm.trans ?_ ((hnil.symm.append_left _).cons _)
  simp only [Trie.entries, List.map_cons, List.append_nil]
  exact List.perm_append_comm

end

end Mmdata.Lib
