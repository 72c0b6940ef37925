import Mmdata.Proofs.Runs
import Mmdata.Malloc.Interface

namespace Mmdata.Proofs
open Lib Malloc

/-- A property of states that no store ends. -/
structure Stored (K : State → Prop) : Prop where
  put : ∀ {σ : State} (n a v : Nat), K σ → K (σ.put n a v)
  setLow : ∀ {σ : State} (a : Nat), K σ → K (σ.setLow a)
  fill : ∀ {σ : State} (a n : Nat) (v : UInt8), K σ → K (σ.fill a n v)

/-- Nor do `mspace_malloc` and `mspace_free`. -/
structure Lasting (D : Trap → Prop) (m lo hi : Nat) (K : State → Prop) : Prop where
  stored : Stored K
  malloc : ∀ {σ : State} {h : Heap} (n : Nat), Ok σ m lo hi h → K σ →
    wp D (mspaceMalloc m n) (fun _ τ => K τ) σ
  free : ∀ {σ : State} {h : Heap} {p s : Nat}, Ok σ m lo hi h → TrimOk D σ m hi →
    (p, s) ∈ h.live → K σ → wp D (mspaceFree m (p + 16)) (fun _ τ => K τ) σ

/-- The heap `h` has given the chunks of `L` to a client, with nothing written to the
chunks in use before, and is `h'` now. `K` lasts. -/
structure Grants (K : State → Prop) (σ : State) (m lo hi : Nat) (h : Heap)
    (L : List (Nat × Nat)) (τ : State) (h' : Heap) : Prop where
  ok : Ok τ m lo hi h'
  live : h'.live.Perm (L ++ h.live)
  exts : h'.exts = (h.exts + (L.map Prod.snd).sum) % 2 ^ 64
  frame : Frame (Own m hi (Payload h.chunks)) σ τ
  lasts : K τ

/-- Nothing is found for a request of `bytes` bytes. -/
def Heap.Refuses (h : Heap) (bytes : Nat) : Prop :=
  bytes < maxRequest → ¬ h.Finds (request2size bytes)

/-- Chunks as clients know them. -/
def pairs (cs : List Chunk) : List (Nat × Nat) := cs.map fun c => (c.addr, c.size)

section

variable {K : State → Prop} {D : Trap → Prop} {σ τ υ : State} {W : Nat → Prop} {m lo hi p q s v a b bytes : Nat}
  {h h' h₁ : Heap} {L L' : List (Nat × Nat)} {F : Nat → Nat → Prop} {pu : Bool}
  {cs l₁ l₂ : List Chunk}

/-! A chunk in use becomes several. -/

/-- Chunks that tile a range add up to it. -/
theorem Tiled.sum {pu' : Bool} (ht : Tiled σ pu p cs pu' q) :
    p + ((pairs cs).map Prod.snd).sum = q := by
  induction cs generalizing pu p with
  | nil => exact ht.2.symm
  | cons c cs ih =>
    have hrest := ih ht.2.2
    simp only [pairs, List.map_cons, List.sum_cons] at hrest ⊢
    omega

theorem Core.splitUsed (C : Core σ m lo hi h F) (hsub : ∀ a t, F a t → ⟨a, t, false⟩ ∈ h.chunks)
    (hcs : h.chunks = l₁ ++ ⟨p, s, true⟩ :: l₂) (hpu : Tiled σ true (m + 920) l₁ pu p)
    (hf : Frame W σ τ) (hW : ∀ b, W b → p + 8 ≤ b ∧ b < p + s + 8)
    (ht : Tiled τ pu p cs true (p + s)) :
    Core τ m lo hi { h with chunks := l₁ ++ cs ++ l₂ } F := by
  obtain ⟨_, _, _, hback⟩ := C.around_used hcs
  have hpm : (⟨p, s, true⟩ : Chunk) ∈ h.chunks := by simp [hcs]
  have hb := C.chunk_bounds hpm
  have htop := (C.tiled.mem hpm).2.1
  simp only at hb htop
  apply C.retile (C.spread hsub) hf
  · intro b hb
    have hw := hW b hb
    omega
  · rintro b (hb | hb | ⟨a, t, ha, h1, h2⟩) hc
    · have hw := hW b hc
      omega
    · have hw := hW b hc
      omega
    · have hw := hW b hc
      rcases C.tiled.apart (hsub a t ha) hpm with he | hap | hap
      · simp only [Chunk.mk.injEq] at he
        exact absurd he.2.2 (by simp)
      · simp only at hap
        omega
      · simp only at hap
        omega
  · have hfront : Tiled τ true (m + 920) l₁ pu p := hpu.frame_outside hf fun b h1 h2 hb => by
      have hw := hW b hb
      omega
    have hrest : Tiled τ true (p + s) l₂ true h.top := hback.frame_outside hf fun b h1 h2 hb => by
      have hw := hW b hb
      omega
    apply tiled_append.mpr
    exact ⟨true, p + s, tiled_append.mpr ⟨pu, p, hfront, ht⟩, hrest⟩
  · rw [hf.get fun b h1 h2 hb => by have hw := hW b hb; omega]
    exact C.topHead

theorem Ok.splitUsed (O : Ok σ m lo hi h) (hcs : h.chunks = l₁ ++ ⟨p, s, true⟩ :: l₂)
    (hpu : Tiled σ true (m + 920) l₁ pu p) (hf : Frame W σ τ)
    (hW : ∀ b, W b → p + 8 ≤ b ∧ b < p + s + 8) (ht : Tiled τ pu p cs true (p + s))
    (hu : ∀ c ∈ cs, c.used = true) : Ok τ m lo hi { h with chunks := l₁ ++ cs ++ l₂ } := by
  have hfree : ∀ a t, (⟨a, t, false⟩ : Chunk) ∈ l₁ ++ cs ++ l₂ ↔ ⟨a, t, false⟩ ∈ h.chunks := by
    intro a t
    have hno : (⟨a, t, false⟩ : Chunk) ∉ cs := fun hc => by
      have hused := hu _ hc
      contradiction
    simp [hcs, hno]
  refine ⟨(O.core.splitUsed inBins_free hcs hpu hf hW ht).congr ?_, ?_⟩
  · intro a t
    simp only [Heap.inBins, hfree]
  · cases O.dvOk with
    | inl hd => exact Or.inl hd
    | inr hd => exact Or.inr ((hfree _ _).mpr hd)

theorem live_of_used (hu : ∀ c ∈ cs, c.used = true) :
    (cs.filter (·.used)).map (fun c => (c.addr, c.size)) = pairs cs := by
  rw [List.filter_eq_self.mpr hu]
  rfl

/-! What has been granted belongs to no other client. -/

theorem Ok.own_of_granted (O : Ok τ m lo hi h₁) (hl : h₁.live.Perm ((p, s) :: L ++ h.live))
    (h1 : p + 8 ≤ b) (h2 : b < p + s + 8) : Own m hi (Payload h.chunks) b := by
  have hp : (p, s) ∈ h₁.live := hl.mem_iff.mpr List.mem_cons_self
  have hb := O.core.chunk_bounds (mem_live.mp hp)
  simp only at hb
  refine ⟨by omega, by omega, ?_⟩
  intro hc
  obtain ⟨a, t, hm, h3, h4⟩ := Payload.live.mp hc
  have hap := O.apart_of_perm hl (a, t) (List.mem_append_right _ hm)
  cases hap with
  | inl hap =>
    simp only at hap
    omega
  | inr hap =>
    simp only at hap
    omega

theorem Grants.nothing (O : Ok σ m lo hi h) (hK : K σ) : Grants K σ m lo hi h [] σ h := by
  have he := O.exts_lt
  refine ⟨O, List.Perm.refl _, ?_, Frame.refl _ σ, hK⟩
  rw [List.map_nil, List.sum_nil, Nat.add_zero, Nat.mod_eq_of_lt he]

theorem Grants.mem (G : Grants K σ m lo hi h L τ h') (hp : (p, s) ∈ L) : (p, s) ∈ h'.live :=
  G.live.mem_iff.mpr (List.mem_append_left _ hp)

theorem Grants.keeps (G : Grants K σ m lo hi h L τ h') : ∀ e ∈ h.live, e ∈ h'.live :=
  fun _ he => G.live.mem_iff.mpr (List.mem_append_right _ he)

theorem Grants.perm (G : Grants K σ m lo hi h L τ h') (hL : L.Perm L') :
    Grants K σ m lo hi h L' τ h' := by
  refine ⟨G.ok, G.live.trans (hL.append_right _), ?_, G.frame, G.lasts⟩
  rw [← (hL.map Prod.snd).sum_nat]
  exact G.exts

/-- The client writes to what it has been given. -/
theorem Grants.write (G : Grants K σ m lo hi h L τ h') (hf : Frame W τ υ) (hK : K υ)
    (hW : ∀ b, W b → ∃ p s, (p, s) ∈ L ∧ p + 16 ≤ b ∧ b < p + s + 8) :
    Grants K σ m lo hi h L υ h' := by
  refine ⟨G.ok.payload_frame hf ?_, G.live, G.exts, G.frame.trans (hf.mono ?_), hK⟩
  · intro b hb
    obtain ⟨p, s, hp, h1, h2⟩ := hW b hb
    exact Payload.live.mpr ⟨p, s, G.mem hp, h1, h2⟩
  · intro b hb
    obtain ⟨p, s, hp, h1, h2⟩ := hW b hb
    exact (G.perm (List.perm_cons_erase hp)).ok.own_of_granted
      (G.perm (List.perm_cons_erase hp)).live (by omega) h2

/-- One of the granted chunks becomes several. -/
theorem Grants.split (G : Grants K σ m lo hi h ((p, s) :: L) τ h') (cs : List Chunk)
    (hf : Frame W τ υ) (hK : K υ)
    (hW : ∀ b, W b → p + 8 ≤ b ∧ b < p + s + 8)
    (ht : ∀ pu, τ.get 8 (p + 8) = some (headWord s pu true) → Tiled υ pu p cs true (p + s))
    (hu : ∀ c ∈ cs, c.used = true) : ∃ h₁, Grants K σ m lo hi h (pairs cs ++ L) υ h₁ := by
  have hpm := mem_live.mp (G.mem List.mem_cons_self)
  obtain ⟨l₁, l₂, hcs⟩ := List.append_of_mem hpm
  obtain ⟨pu, hfront, hc, _⟩ := G.ok.core.around_used hcs
  have htile := ht pu hc.head
  have hlive : h'.live = (l₁.filter (·.used)).map (fun c => (c.addr, c.size)) ++
      (p, s) :: (l₂.filter (·.used)).map (fun c => (c.addr, c.size)) := by
    rw [live_append h' hcs]
    simp
  have hlive' : ({ h' with chunks := l₁ ++ cs ++ l₂ } : Heap).live =
      (l₁.filter (·.used)).map (fun c => (c.addr, c.size)) ++ pairs cs ++
        (l₂.filter (·.used)).map (fun c => (c.addr, c.size)) := by
    rw [← live_of_used hu]
    simp [Heap.live]
  refine ⟨{ h' with chunks := l₁ ++ cs ++ l₂ }, G.ok.splitUsed hcs hfront hf hW htile hu, ?_, ?_,
    G.frame.trans (hf.mono fun b hb => ?_), hK⟩
  · have hrest := G.live
    rw [hlive] at hrest
    have hothers := (List.perm_middle.symm.trans hrest).cons_inv
    rw [hlive', List.append_assoc, List.append_assoc]
    exact (List.perm_append_comm_assoc _ _ _).trans (hothers.append_left _)
  · have hsum := htile.sum
    have he := G.exts
    simp only [List.map_cons, List.sum_cons] at he
    show h'.exts = _
    rw [he, List.map_append, List.sum_append]
    congr 1
    omega
  · obtain ⟨h1, h2⟩ := hW b hb
    exact G.ok.own_of_granted G.live h1 h2

/-- The client gives one of the granted chunks back. -/
theorem Grants.wp_free {Q : Unit → State → Prop} (G : Grants K σ m lo hi h ((p, s) :: L) τ h')
    (T : TrimOk D σ m hi) (hK : Lasting D m lo hi K)
    (hQ : ∀ υ h₁, Grants K σ m lo hi h L υ h₁ → Q () υ) :
    wp D (mspaceFree m (p + 16)) Q τ := by
  have hp := G.mem List.mem_cons_self
  have hb := G.ok.core.chunk_bounds (mem_live.mp hp)
  have hword := G.ok.core.arena.word
  simp only at hb
  have hfree : wp D (mspaceFree m (p + 16)) (fun _ υ => ∃ h₁, Ok υ m lo hi h₁ ∧
      h'.live.Perm ((p, s) :: h₁.live) ∧ h₁.exts = subSize h'.exts s ∧
      Frame (Own m hi (Payload h₁.chunks)) τ υ) τ := by
    apply G.ok.wp_mspaceFree (fun _ => T.frame G.frame) hp
    intro υ h₁ O₁ hl he hf _
    exact ⟨h₁, O₁, hl, he, hf⟩
  apply wp_mono (wp_and hfree (hK.free G.ok (T.frame G.frame) hp G.lasts))
  intro _ υ hend
  obtain ⟨⟨h₁, O₁, hl, he, hf⟩, hlasts⟩ := hend
  have hlive : h₁.live.Perm (L ++ h.live) := (hl.symm.trans G.live).cons_inv
  refine hQ υ h₁ ⟨O₁, hlive, ?_, G.frame.trans (hf.mono (own_mono fun e he => ?_)), hlasts⟩
  · have hex := G.exts
    simp only [List.map_cons, List.sum_cons] at hex
    rw [he, hex]
    simp only [subSize]
    omega
  · exact hlive.mem_iff.mpr (List.mem_append_right _ he)

/-! A refusal goes for all larger requests. -/

theorem request2size_near (hb : bytes < maxRequest) : request2size bytes ≤ bytes + 32 := by
  unfold request2size
  by_cases hmin : bytes < minRequest
  · rw [if_pos hmin]
    simp only [minChunkSize]
    omega
  · rw [if_neg hmin]
    have hp := (padRequest_spec hb).2.2
    omega

/-- `mspace_malloc`: null, or one chunk, whose head says that the one before is in use. -/
theorem Ok.wp_grant {Q : Nat → State → Prop} (O : Ok σ m lo hi h) (hK : Lasting D m lo hi K)
    (hσ : K σ) (h0 : h.Refuses bytes → Q 0 σ)
    (hQ : ∀ v s τ h', Grants K σ m lo hi h [(v, s)] τ h' → bytes + 8 ≤ s →
      τ.get 8 (v + 8) = some (headWord s true true) → Q (v + 16) τ) :
    wp D (mspaceMalloc m bytes) Q σ := by
  have hgive : wp D (mspaceMalloc m bytes) (fun r τ => r = 0 ∧ τ = σ ∧ h.Refuses bytes ∨
      ∃ v s h', r = v + 16 ∧
      Ok τ m lo hi h' ∧ h'.Fronted v s ∧ h'.live.Perm ((v, s) :: h.live) ∧ bytes + 8 ≤ s ∧
      h'.exts = addSize h.exts s ∧ Frame (Quiet m hi (Payload h.chunks)) σ τ) σ := by
    apply wp_mspaceMallocFront O
    · exact fun hno => Or.inl ⟨rfl, rfl, hno⟩
    · intro _ v τ h' s O' hfront hl hs he hf
      exact Or.inr ⟨v, s, h', rfl, O', hfront, hl, hs, he, hf⟩
  apply wp_mono (wp_and hgive (hK.malloc bytes O hσ))
  intro r τ hend
  obtain ⟨⟨rfl, rfl, hno⟩ | ⟨v, s, h', rfl, O', hfront, hl, hs, he, hf⟩, hlasts⟩ := hend
  · exact h0 hno
  · obtain ⟨l₁, l₂, hcs, hlast⟩ := hfront
    obtain ⟨pu, htl, hc, _⟩ := O'.core.around_used hcs
    have hpu : pu = true := by
      rcases List.eq_nil_or_concat l₁ with rfl | ⟨l₀, c, rfl⟩
      · exact htl.1
      · rw [List.concat_eq_append] at htl hlast
        exact htl.last.1.trans (hlast c (by simp))
    subst hpu
    refine hQ v s τ h' ⟨O', hl, ?_, own_of_quiet hf, hlasts⟩ hs hc.head
    simp [he, addSize]

end

end Mmdata.Proofs
