import Mmdata.Lib.Machine

namespace Mmdata.Lib

/-- From `a` through the nodes of the list to `b`, linked both ways. -/
def Dll (next prev : Nat → Option Nat) : Nat → List Nat → Nat → Prop
  | a, [], b => next a = some b ∧ prev b = some a
  | a, x :: l, b => next a = some x ∧ prev x = some a ∧ Dll next prev x l b

/-- The circular list with head `h`. -/
def LinkRing (next prev : Nat → Option Nat) (h : Nat) (l : List Nat) : Prop := Dll next prev h l h

section

variable {next prev next' prev' : Nat → Option Nat} {a b h x y : Nat} {l l₁ l₂ : List Nat}

theorem dll_append :
    Dll next prev a (l₁ ++ x :: l₂) b ↔ Dll next prev a l₁ x ∧ Dll next prev x l₂ b := by
  induction l₁ generalizing a with
  | nil => simp [Dll, and_assoc]
  | cons y l₁ ih => simp only [List.cons_append, Dll, ih, and_assoc]

theorem Dll.congr (hd : Dll next prev a l b) (hn : ∀ u ∈ a :: l, next' u = next u)
    (hp : ∀ v ∈ l ++ [b], prev' v = prev v) : Dll next' prev' a l b := by
  induction l generalizing a with
  | nil =>
    obtain ⟨h1, h2⟩ := hd
    exact ⟨(hn a (by simp)).trans h1, (hp b (by simp)).trans h2⟩
  | cons y l ih =>
    obtain ⟨h1, h2, h3⟩ := hd
    refine ⟨(hn a (by simp)).trans h1, (hp y (by simp)).trans h2, ih h3 ?_ ?_⟩
    · intro u hu
      exact hn u (List.mem_cons_of_mem _ hu)
    · intro v hv
      exact hp v (List.mem_cons_of_mem _ hv)

/-- The last node before the end of the chain. -/
def lastNode (a : Nat) : List Nat → Nat
  | [] => a
  | x :: l => lastNode x l

theorem lastNode_mem (a : Nat) (l : List Nat) : lastNode a l ∈ a :: l := by
  induction l generalizing a with
  | nil => simp [lastNode]
  | cons x l ih => exact List.mem_cons_of_mem _ (ih x)

theorem lastNode_append (a x : Nat) (l : List Nat) : lastNode a (l ++ [x]) = x := by
  induction l generalizing a with
  | nil => rfl
  | cons y l ih => exact ih y

theorem Dll.last (hd : Dll next prev a l b) :
    next (lastNode a l) = some b ∧ prev b = some (lastNode a l) := by
  induction l generalizing a with
  | nil => exact hd
  | cons y l ih => exact ih hd.2.2

/-- Redirecting the last link of a chain. -/
theorem Dll.retarget (hd : Dll next prev a l b) (hnd : (a :: l).Nodup)
    (hn : ∀ u ∈ a :: l, u ≠ lastNode a l → next' u = next u)
    (hp : ∀ v ∈ l, prev' v = prev v)
    (hny : next' (lastNode a l) = some y) (hpy : prev' y = some (lastNode a l)) :
    Dll next' prev' a l y := by
  induction l generalizing a with
  | nil => exact ⟨hny, hpy⟩
  | cons x l ih =>
    obtain ⟨h1, h2, h3⟩ := hd
    obtain ⟨ha, hnd'⟩ := List.nodup_cons.mp hnd
    have hne : a ≠ lastNode x l := fun he => ha (he ▸ lastNode_mem x l)
    refine ⟨(hn a (by simp) hne).trans h1, (hp x (by simp)).trans h2, ih h3 hnd' ?_ ?_ hny hpy⟩
    · intro u hu hul
      exact hn u (List.mem_cons_of_mem _ hu) hul
    · intro v hv
      exact hp v (List.mem_cons_of_mem _ hv)

/-- The first node after the head, or the head itself. -/
def firstNode (h : Nat) (l : List Nat) : Nat := l.headD h

theorem firstNode_nil (h : Nat) : firstNode h [] = h := rfl

theorem firstNode_cons (h y : Nat) (l : List Nat) : firstNode h (y :: l) = y := rfl

theorem firstNode_mem (h : Nat) (l : List Nat) : firstNode h l ∈ h :: l := by
  cases l <;> simp [firstNode]

theorem LinkRing.next_head (hr : LinkRing next prev h l) :
    next h = some (firstNode h l) ∧ prev (firstNode h l) = some h := by
  cases l with
  | nil => exact hr
  | cons x l => exact ⟨hr.1, hr.2.1⟩

/-- Link `x` in right after the head. The links of an empty ring do not matter. -/
theorem LinkRing.insert (hr : l ≠ [] → LinkRing next prev h l) (hnd : (h :: l).Nodup) (hx : x ∉ h :: l)
    (h1 : next' h = some x) (h2 : prev' x = some h)
    (h3 : next' x = some (firstNode h l)) (h4 : prev' (firstNode h l) = some x)
    (hn : ∀ u ∈ l, next' u = next u)
    (hp : ∀ v ∈ h :: l, v ≠ firstNode h l → prev' v = prev v) :
    LinkRing next' prev' h (x :: l) := by
  refine ⟨h1, h2, ?_⟩
  cases l with
  | nil => exact ⟨h3, h4⟩
  | cons y l =>
    obtain ⟨_, _, ht⟩ := hr (by simp)
    refine ⟨h3, h4, ht.congr (fun u hu => hn u hu) ?_⟩
    intro v hv
    obtain ⟨hh, hnd'⟩ := List.nodup_cons.mp hnd
    have hyl : y ∉ l := (List.nodup_cons.mp hnd').1
    rw [firstNode_cons] at hp
    rcases List.mem_append.mp hv with hv | hv
    · exact hp v (by simp [hv]) (fun he => hyl (he ▸ hv))
    · rw [List.mem_singleton.mp hv]
      exact hp h (by simp) (fun he => hh (he ▸ List.mem_cons_self))

/-- What a node sees around it. -/
theorem LinkRing.around (hr : LinkRing next prev h (l₁ ++ x :: l₂)) :
    next x = some (firstNode h l₂) ∧ prev x = some (lastNode h l₁) := by
  obtain ⟨hb, hf⟩ := dll_append.mp hr
  refine ⟨?_, hb.last.2⟩
  cases l₂ with
  | nil => exact hf.1
  | cons y l => exact hf.1

/-- Unlink `x`: its neighbours are linked with each other. -/
theorem LinkRing.remove (hr : LinkRing next prev h (l₁ ++ x :: l₂)) (hnd : (h :: (l₁ ++ x :: l₂)).Nodup)
    (hf : next' (lastNode h l₁) = some (firstNode h l₂))
    (hb : prev' (firstNode h l₂) = some (lastNode h l₁))
    (hn : ∀ u ∈ h :: (l₁ ++ l₂), u ≠ lastNode h l₁ → next' u = next u)
    (hp : ∀ v ∈ h :: (l₁ ++ l₂), v ≠ firstNode h l₂ → prev' v = prev v) :
    LinkRing next' prev' h (l₁ ++ l₂) := by
  obtain ⟨h1, h2⟩ := dll_append.mp hr
  obtain ⟨hh, hnd'⟩ := List.nodup_cons.mp hnd
  obtain ⟨hl1, hxl, hdis⟩ := List.nodup_append.mp hnd'
  have hnd1 : (h :: l₁).Nodup := List.nodup_cons.mpr ⟨fun hc => hh (by simp [hc]), hl1⟩
  have hfirst : ∀ v ∈ l₁, v ≠ firstNode h l₂ := by
    intro v hv he
    cases l₂ with
    | nil => rw [firstNode_nil] at he; exact hh (List.mem_append_left _ (he ▸ hv))
    | cons y l => exact hdis v hv y (by simp) he
  have hpre : Dll next' prev' h l₁ (firstNode h l₂) := by
    apply h1.retarget hnd1 _ _ hf hb
    · intro u hu hul
      refine hn u ?_ hul
      rcases List.mem_cons.mp hu with rfl | hu
      · simp
      · simp [hu]
    · intro v hv
      exact hp v (by simp [hv]) (hfirst v hv)
  cases l₂ with
  | nil => simpa [LinkRing, firstNode] using hpre
  | cons y l =>
    obtain ⟨_, _, ht⟩ := h2
    have hlast : ∀ u ∈ y :: l, u ≠ lastNode h l₁ := by
      intro u hu he
      rcases List.mem_cons.mp (lastNode_mem h l₁) with hc | hc
      · exact hh (by rw [← hc, ← he]; simp [List.mem_cons.mp hu])
      · exact hdis _ hc u (List.mem_cons_of_mem _ hu) he.symm
    refine dll_append.mpr ⟨hpre, ht.congr ?_ ?_⟩
    · intro u hu
      exact hn u (by simp [List.mem_cons.mp hu]) (hlast u hu)
    · intro v hv
      rw [firstNode_cons] at hp
      have hyl : y ∉ l := (List.nodup_cons.mp (List.nodup_cons.mp hxl).2).1
      rcases List.mem_append.mp hv with hv | hv
      · exact hp v (by simp [hv]) (fun he => hyl (he ▸ hv))
      · rw [List.mem_singleton.mp hv]
        exact hp h (by simp) (fun he => hh (he ▸ by simp))

/-- A ring may be read from any of its nodes. -/
theorem ring_rotate : LinkRing next prev h (l ++ [x]) ↔ LinkRing next prev x (h :: l) := by
  unfold LinkRing
  rw [dll_append]
  simp only [Dll]
  constructor
  · rintro ⟨hd, h1, h2⟩
    exact ⟨h1, h2, hd⟩
  · rintro ⟨h1, h2, hd⟩
    exact ⟨hd, h1, h2⟩

theorem LinkRing.congr (hr : LinkRing next prev h l) (hn : ∀ u ∈ h :: l, next' u = next u)
    (hp : ∀ v ∈ h :: l, prev' v = prev v) : LinkRing next' prev' h l := by
  apply Dll.congr hr hn
  intro v hv
  exact hp v (by simpa [or_comm] using hv)

end

end Mmdata.Lib
