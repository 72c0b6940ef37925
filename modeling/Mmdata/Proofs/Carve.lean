import Mmdata.Proofs.Loose

namespace Mmdata.Proofs
open Lib Malloc

/-- The chunk `p` is in use, and so is the one before it, if any. -/
def Heap.Fronted (h : Heap) (p s : Nat) : Prop :=
  ∃ l₁ l₂, h.chunks = l₁ ++ ⟨p, s, true⟩ :: l₂ ∧ ∀ c ∈ l₁.getLast?, c.used = true

/-- The heap `h` has given the chunk `p` of size `s` to a client, and is `h'` now. -/
structure Gives (σ : State) (m lo hi : Nat) (h : Heap) (p s : Nat) (τ : State) (h' : Heap) :
    Prop where
  ok : Ok τ m lo hi h'
  live : h'.live.Perm ((p, s) :: h.live)
  exts : h'.exts = h.exts
  frame : Frame (Quiet m hi (Payload h.chunks)) σ τ
  front : h'.Fronted p s

section

variable {D : Trap → Prop} {σ τ υ : State} {m lo hi i v s p nb rs : Nat} {h h' : Heap}
  {l₁ l₂ : List Chunk}

/-- Before a place with a chunk in use before it. -/
theorem Tiled.last_used {pu : Bool} {q : Nat} (ht : Tiled σ pu q l₁ true p) :
    ∀ c ∈ l₁.getLast?, c.used = true := by
  intro c hc
  obtain ⟨l₀, rfl⟩ := List.getLast?_eq_some_iff.mp hc
  exact ht.last.1.symm

theorem live_append (h : Heap) (hcs : h.chunks = l₁ ++ l₂) : h.live =
    (l₁.filter (·.used)).map (fun c => (c.addr, c.size)) ++
      (l₂.filter (·.used)).map (fun c => (c.addr, c.size)) := by
  rw [Heap.live, hcs, List.filter_append, List.map_append]

theorem mem_live {a t : Nat} : (a, t) ∈ h.live ↔ ⟨a, t, true⟩ ∈ h.chunks := by
  simp only [Heap.live, List.mem_map, List.mem_filter, Prod.mk.injEq]
  constructor
  · rintro ⟨⟨a, t, u⟩, ⟨hm, hu⟩, rfl, rfl⟩
    simp only at hu
    exact hu ▸ hm
  · intro hm
    exact ⟨⟨a, t, true⟩, ⟨hm, rfl⟩, rfl, rfl⟩

theorem Payload.live {b : Nat} :
    Payload h.chunks b ↔ ∃ a t, (a, t) ∈ h.live ∧ a + 16 ≤ b ∧ b < a + t + 8 := by
  constructor
  · rintro ⟨⟨a, t, u⟩, hm, hu, h1, h2⟩
    simp only at hu h1 h2
    subst hu
    exact ⟨a, t, mem_live.mpr hm, h1, h2⟩
  · rintro ⟨a, t, hm, h1, h2⟩
    exact ⟨_, mem_live.mp hm, rfl, h1, h2⟩

/-- The more chunks are live, the less belongs to the allocator. -/
theorem own_mono (hl : ∀ e ∈ h.live, e ∈ h'.live) :
    ∀ b, Own m hi (Payload h'.chunks) b → Own m hi (Payload h.chunks) b := by
  rintro b ⟨h1, h2, h3⟩
  refine ⟨h1, h2, fun hp => h3 ?_⟩
  obtain ⟨a, t, hm, hb⟩ := Payload.live.mp hp
  exact Payload.live.mpr ⟨a, t, hl _ hm, hb⟩

theorem quiet_mono (hl : ∀ e ∈ h.live, e ∈ h'.live) :
    ∀ b, Quiet m hi (Payload h'.chunks) b → Quiet m hi (Payload h.chunks) b :=
  fun b hb => ⟨own_mono hl b hb.1, hb.2⟩

theorem Loose.split (L : Loose σ m lo hi h v s) :
    ∃ l₁ l₂, h.chunks = l₁ ++ ⟨v, s, false⟩ :: l₂ := List.append_of_mem L.mem

/-- The free chunks other than `v`. -/
theorem Core.others {F : Nat → Nat → Prop} {u : Bool} (C : Core σ m lo hi h F)
    (hcs : h.chunks = l₁ ++ ⟨v, s, u⟩ :: l₂) (a t : Nat) :
    ((⟨a, t, false⟩ : Chunk) ∈ h.chunks ∧ a ≠ v) ↔ (⟨a, t, false⟩ : Chunk) ∈ l₁ ++ l₂ := by
  have ht := C.tiled
  rw [hcs] at ht ⊢
  constructor
  · rintro ⟨hm, hne⟩
    simp only [List.mem_append, List.mem_cons, Chunk.mk.injEq] at hm ⊢
    rcases hm with hm | ⟨he, _⟩ | hm
    · exact Or.inl hm
    · exact absurd he hne
    · exact Or.inr hm
  · intro hm
    refine ⟨?_, ht.others_ne hm⟩
    simp only [List.mem_append, List.mem_cons] at hm ⊢
    rcases hm with hm | hm
    · exact Or.inl hm
    · exact Or.inr (Or.inr hm)

theorem Loose.dv_mem (L : Loose σ m lo hi h v s) (hcs : h.chunks = l₁ ++ ⟨v, s, false⟩ :: l₂) :
    h.dv = 0 ∧ h.dvsize = 0 ∨ (⟨h.dv, h.dvsize, false⟩ : Chunk) ∈ l₁ ++ l₂ := by
  rcases L.dvOk with hd | hd
  · exact Or.inl hd
  · exact Or.inr ((L.core.others hcs _ _).mp ⟨hd, fun he => L.ne he.symm⟩)

/-- A loose chunk goes to a client as it is. -/
theorem Loose.wp_takeWhole {Q : Unit → State → Prop} (L : Loose σ m lo hi h v s)
    (hQ : ∀ τ h', Gives σ m lo hi h v s τ h' → Q () τ) :
    wp D (setInuseAndPinuse v s) Q σ := by
  obtain ⟨l₁, l₂, hcs⟩ := L.split
  refine L.core.wp_takeWhole (fun a t ha => ha.1.1) hcs (fun t ht => ht.2 rfl) ?_
  intro τ C hf
  refine hQ τ { h with chunks := l₁ ++ ⟨v, s, true⟩ :: l₂ } ⟨⟨C.congr (fun a t => ?_), ?_⟩, ?_,
    rfl, hf, l₁, l₂, rfl, (L.core.around_free hcs).1.last_used⟩
  · have hold := L.core.others hcs a t
    have hnew := C.others rfl a t
    simp only [Heap.inBins]
    constructor
    · rintro ⟨⟨h1, h2⟩, h3⟩
      exact ⟨(hnew.mpr (hold.mp ⟨h1, h3⟩)).1, h2⟩
    · rintro ⟨h1, h2⟩
      have hne : a ≠ v := by
        rintro rfl
        have hm : (⟨a, s, true⟩ : Chunk) ∈ l₁ ++ ⟨a, s, true⟩ :: l₂ := by simp
        have hb := (C.free_unique h1 hm).2
        contradiction
      obtain ⟨h3, h4⟩ := hold.mpr (hnew.mp ⟨h1, hne⟩)
      exact ⟨⟨h3, h2⟩, h4⟩
  · rcases L.dv_mem hcs with hd | hd
    · exact Or.inl hd
    · refine Or.inr ?_
      simp only [List.mem_append, List.mem_cons] at hd ⊢
      rcases hd with hd | hd
      · exact Or.inl hd
      · exact Or.inr (Or.inr hd)
  · rw [live_append h hcs, live_append { h with chunks := l₁ ++ ⟨v, s, true⟩ :: l₂ } rfl]
    simp

/-- A loose chunk is split: the front goes to a client, the rest is loose. -/
theorem Loose.carve (L : Loose σ m lo hi h v s) (hcs : h.chunks = l₁ ++ ⟨v, s, false⟩ :: l₂)
    (hrs : 32 ≤ rs) (hnb : 32 ≤ nb) (hs : nb + rs = s)
    (C : Core τ m lo hi
      { h with chunks := l₁ ++ ⟨v, nb, true⟩ :: ⟨v + nb, rs, false⟩ :: l₂ }
      (fun a t => h.inBins a t ∧ a ≠ v)) :
    Loose τ m lo hi { h with chunks := l₁ ++ ⟨v, nb, true⟩ :: ⟨v + nb, rs, false⟩ :: l₂ }
        (v + nb) rs ∧
      ({ h with chunks := l₁ ++ ⟨v, nb, true⟩ :: ⟨v + nb, rs, false⟩ :: l₂ } : Heap).live.Perm
        ((v, nb) :: h.live) := by
  have hassoc : l₁ ++ ⟨v, nb, true⟩ :: ⟨v + nb, rs, false⟩ :: l₂ =
      (l₁ ++ [⟨v, nb, true⟩]) ++ ⟨v + nb, rs, false⟩ :: l₂ := by simp
  have hvb := L.core.chunk_bounds L.mem
  simp only at hvb
  refine ⟨⟨C.congr (fun a t => ?_), ?_, by simp, ?_⟩, ?_⟩
  · have hold := L.core.others hcs a t
    have hnew := C.others hassoc a t
    have hmem : (⟨a, t, false⟩ : Chunk) ∈ (l₁ ++ [⟨v, nb, true⟩]) ++ l₂ ↔
        (⟨a, t, false⟩ : Chunk) ∈ l₁ ++ l₂ := by simp
    rw [hmem, ← hold] at hnew
    simp only [Heap.inBins]
    constructor
    · rintro ⟨⟨h1, h2⟩, h3⟩
      obtain ⟨h4, h5⟩ := hnew.mpr ⟨h1, h3⟩
      exact ⟨⟨h4, h2⟩, h5⟩
    · rintro ⟨⟨h1, h2⟩, h3⟩
      obtain ⟨h4, h5⟩ := hnew.mp ⟨h1, h3⟩
      exact ⟨⟨h4, h2⟩, h5⟩
  · rcases L.dv_mem hcs with hd | hd
    · exact Or.inl hd
    · refine Or.inr ?_
      simp only [List.mem_append, List.mem_cons] at hd ⊢
      rcases hd with hd | hd
      · exact Or.inl hd
      · exact Or.inr (Or.inr (Or.inr hd))
  · simp only
    intro he
    rcases L.dv_mem hcs with ⟨hd, _⟩ | hd
    · omega
    · obtain ⟨hdm, hdv⟩ := (L.core.others hcs _ _).mpr hd
      have hdl := L.core.chunk_bounds hdm
      simp only at hdl
      rcases L.core.tiled.apart hdm L.mem with hap | hap | hap
      · simp only [Chunk.mk.injEq] at hap
        exact hdv hap.1
      · simp only at hap
        omega
      · simp only at hap
        omega
  · rw [live_append h hcs, live_append { h with
      chunks := l₁ ++ ⟨v, nb, true⟩ :: ⟨v + nb, rs, false⟩ :: l₂ } rfl]
    simp

/-- The two head words of a split, whatever is then done with the rest. -/
theorem Loose.wp_carve {R : Unit → State → Prop} (L : Loose σ m lo hi h v s)
    (hs : nb + rs = s) (hnb : 32 ≤ nb) (hnb8 : nb % 8 = 0) (hrs : 32 ≤ rs)
    (hK : ∀ τ h', Loose τ m lo hi h' (v + nb) rs → h'.dvsize = h.dvsize →
      (∀ υ h'', Ok υ m lo hi h'' → h''.chunks = h'.chunks → h''.exts = h'.exts →
        Frame (Quiet m hi (Payload h'.chunks)) τ υ → Gives σ m lo hi h v nb υ h'') →
      R () τ) :
    wp D (setSizeAndPinuseOfInuseChunk v nb) (fun _ τ =>
      wp D (setSizeAndPinuseOfFreeChunk (v + nb) rs) R τ) σ := by
  obtain ⟨l₁, l₂, hcs⟩ := L.split
  refine (L.core.wp_takeSplit (fun a t ha => ha.1.1) hcs (fun t ht => ht.2 rfl) hs hnb hnb8 hrs
    ?_).1
  intro τ C hf
  obtain ⟨L', hlive⟩ := L.carve hcs hrs hnb hs C
  refine hK τ _ L' rfl ?_
  intro υ h'' hO hc he hfr
  have hl : h''.live = _ := congrArg (fun cs => (cs.filter (·.used)).map fun c => (c.addr, c.size)) hc
  refine ⟨hO, hl ▸ hlive, he, hf.trans (hfr.mono ?_), l₁, _, hc, ?_⟩
  · exact quiet_mono (fun e hm => hlive.mem_iff.mpr (List.mem_cons_of_mem _ hm))
  · exact (L.core.around_free hcs).1.last_used

end

end Mmdata.Proofs
