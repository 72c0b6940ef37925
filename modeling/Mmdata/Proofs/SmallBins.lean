import Mathlib.Logic.Function.Basic
import Mmdata.Malloc.Bins
import Mmdata.Proofs.Arena

namespace Mmdata.Proofs
open Lib Malloc

/-- The bin map at `a` has the bits of the bins in `P`. -/
def MapAt (σ : State) (a : Nat) (P : Nat → Prop) : Prop :=
  ∃ w, σ.get 4 a = some w ∧ ∀ i < 32, (w.testBit i = true ↔ P i)

/-- What an operation on small bin `i` with the chunks `l` may write. -/
def SmallZone (m i : Nat) (l : List Nat) (b : Nat) : Prop :=
  m ≤ b ∧ b < m + 4 ∨ Links 32 (smallbinAt m i :: l) b

section

variable {D : Trap → Prop} {σ τ : State} {m lo hi i p s w : Nat} {l l₁ l₂ : List Nat}
  {P : Nat → Prop}

theorem wp_smallmapIsMarked {Q : Bool → State → Prop} (h : σ.get 4 m = some w) (hi : i < 32) :
    wp D (smallmapIsMarked m i) Q σ ↔ Q (w.testBit i) σ := by
  rw [smallmapIsMarked, wp_bind]
  simp only [smallmap]
  rw [wp_load h, wp_pure, marked_eq hi]

theorem MapAt.mapped {a : Nat} (h : MapAt σ a P) : σ.mapped a 4 = true := by
  obtain ⟨w, hw, _⟩ := h
  exact Machine.mapped_of_get hw

theorem MapAt.frame {a : Nat} {W : Nat → Prop} (h : MapAt σ a P) (hf : Frame W σ τ)
    (hw : ∀ b, a ≤ b → b < a + 4 → ¬ W b) : MapAt τ a P := by
  obtain ⟨w, hg, hb⟩ := h
  exact ⟨w, by rw [hf.get hw]; exact hg, hb⟩

/-- Setting a bit of a bin map. -/
theorem MapAt.mark {a : Nat} (hm : σ.get 4 a = some w) (h : ∀ j < 32, (w.testBit j = true ↔ P j))
    (hi : i < 32) : MapAt (σ.put 4 a (w ||| idx2bit i)) a (fun j => j = i ∨ P j) := by
  have hlt : w < 2 ^ 32 := Machine.get_lt hm
  refine ⟨_, Machine.get_put_same (Machine.mapped_of_get hm) (mark_lt hlt hi), ?_⟩
  intro j hj
  rw [mark_testBit hi, Bool.or_eq_true, h j hj, decide_eq_true_iff]
  constructor
  · rintro (hP | rfl)
    · exact Or.inr hP
    · exact Or.inl rfl
  · rintro (rfl | hP)
    · exact Or.inr rfl
    · exact Or.inl hP

theorem MapAt.clear {a : Nat} (hm : σ.get 4 a = some w) (h : ∀ j < 32, (w.testBit j = true ↔ P j))
    (hi : i < 32) : MapAt (σ.put 4 a (clearBits w (idx2bit i))) a (fun j => j ≠ i ∧ P j) := by
  have hlt : w < 2 ^ 32 := Machine.get_lt hm
  refine ⟨_, Machine.get_put_same (Machine.mapped_of_get hm) (clear_lt hlt), ?_⟩
  intro j hj
  rw [clear_testBit hi, Bool.and_eq_true, h j hj, decide_eq_true_iff]
  constructor
  · rintro ⟨hP, hne⟩
    exact ⟨fun he => hne he.symm, hP⟩
  · rintro ⟨hne, hP⟩
    exact ⟨hP, fun he => hne he.symm⟩

/-- The state in which `insertSmallChunk` starts to link, the map marked. -/
theorem wp_linkSmall {Q : Unit → State → Prop} (A : Arena σ m lo hi)
    (N : Nodes m hi (smallbinAt m i :: p :: l))
    (hr : l ≠ [] → LinkRing (fwd σ) (bwd σ) (smallbinAt m i) l)
    (hQ : ∀ τ, Frame (Links 32 (smallbinAt m i :: p :: l)) σ τ →
      LinkRing (fwd τ) (bwd τ) (smallbinAt m i) (p :: l) → Q () τ) :
    wp D (storePtr (fd (smallbinAt m i)) p) (fun _ τ =>
      wp D (storePtr (bk (firstNode (smallbinAt m i) l)) p) (fun _ τ =>
        wp D (storePtr (fd p) (firstNode (smallbinAt m i) l)) (fun _ τ =>
          wp D (storePtr (bk p) (smallbinAt m i)) Q τ) τ) τ) σ := by
  generalize hb : smallbinAt m i = b at *
  have hnb := N.inside b (by simp)
  have hnp := N.inside p (by simp)
  have hfm : firstNode b l ∈ b :: p :: l := by
    rcases List.mem_cons.mp (firstNode_mem b l) with he | hm
    · rw [he]
      exact List.mem_cons_self
    · exact List.mem_cons_of_mem _ (List.mem_cons_of_mem _ hm)
  have hnf := N.inside _ hfm
  have hbp : b ≠ p := by
    intro he
    have hnd := (List.nodup_cons.mp N.nodup).1
    exact hnd (he ▸ List.mem_cons_self)
  have hfp : firstNode b l ≠ p := by
    intro he
    obtain ⟨_, hnd⟩ := List.nodup_cons.mp N.nodup
    rcases List.mem_cons.mp (firstNode_mem b l) with hc | hc
    · exact hbp (hc.symm.trans he)
    · exact (List.nodup_cons.mp hnd).1 (he ▸ hc)
  have hap := N.apart b (by simp) p (by simp)
  have hfa := N.apart _ hfm p (by simp)
  have hfb := N.apart _ hfm b (by simp)
  simp only [fd, bk]
  refine A.wp_storePtr rfl (by omega) (by omega) ?_
  refine A.wp_storePtr rfl (by omega) (by omega) ?_
  refine A.wp_storePtr rfl (by omega) (by omega) ?_
  refine A.wp_storePtr rfl (by omega) (by omega) ?_
  apply hQ
  · refine Frame.mono ((((Frame.refl (Words []) σ).word _ _).word _ _).word _ _ |>.word _ _) ?_
    rintro c ⟨f, hf, h1, h2⟩
    simp only [List.mem_cons, List.not_mem_nil, or_false] at hf
    rcases hf with rfl | rfl | rfl | rfl
    · exact ⟨p, by simp, by omega, by omega⟩
    · exact ⟨p, by simp, by omega, by omega⟩
    · exact ⟨_, hfm, by omega, by omega⟩
    · exact ⟨b, by simp, by omega, by omega⟩
  · refine ring_link N hr ((((Frame.refl (Words []) σ).word _ _).word _ _).word _ _ |>.word _ _)
      ?_ ?_ ?_ ?_
    · simp (disch := omega) only [Machine.getPtr_putPtr_ne]
      exact A.getPtr_self (by rfl) (by omega) (by omega) (by omega) (by omega) (by omega)
    · exact A.getPtr_self (by rfl) (by omega) (by omega) (by omega) (by omega) (by omega)
    · simp (disch := omega) only [Machine.getPtr_putPtr_ne]
      exact A.getPtr_self (by rfl) (by omega) (by omega) (by omega) (by omega) (by omega)
    · simp (disch := omega) only [Machine.getPtr_putPtr_ne]
      exact A.getPtr_self (by rfl) (by omega) (by omega) (by omega) (by omega) (by omega)

theorem MapAt.congr {a : Nat} {P' : Nat → Prop} (h : MapAt σ a P) (hP : ∀ i < 32, (P i ↔ P' i)) :
    MapAt σ a P' := by
  obtain ⟨w, hw, hb⟩ := h
  exact ⟨w, hw, fun i hi => (hb i hi).trans (hP i hi)⟩

/-- The links of a bin's nodes lie behind the bin maps. -/
theorem Nodes.links_high {n b : Nat} {xs : List Nat} (N : Nodes m hi xs) (h : Links n xs b) :
    m + 88 ≤ b := by
  obtain ⟨x, hx, h1, _⟩ := h
  have hin := N.inside x hx
  omega

theorem wp_insertSmallChunk {S : Nat → List Nat} {Q : Unit → State → Prop} (A : Arena σ m lo hi)
    (hs : smallIndex s = i) (hi32 : i < 32) (hmap : MapAt σ m (fun j => S j ≠ []))
    (N : Nodes m hi (smallbinAt m i :: p :: S i))
    (hr : S i ≠ [] → LinkRing (fwd σ) (bwd σ) (smallbinAt m i) (S i))
    (hQ : ∀ τ, Frame (SmallZone m i (p :: S i)) σ τ →
      MapAt τ m (fun j => Function.update S i (p :: S i) j ≠ []) →
      LinkRing (fwd τ) (bwd τ) (smallbinAt m i) (p :: S i) → Q () τ) :
    wp D (insertSmallChunk m p s) Q σ := by
  obtain ⟨w, hw, hbits⟩ := hmap
  have hlink : ∀ {υ τ : State}, Frame (Links 32 (smallbinAt m i :: p :: S i)) υ τ →
      Frame (SmallZone m i (p :: S i)) υ τ := fun h => h.mono (fun b hb => Or.inr hb)
  have hup : ∀ {υ τ : State}, Frame (Links 32 (smallbinAt m i :: p :: S i)) υ τ →
      MapAt υ m (fun j => j = i ∨ S j ≠ []) →
      MapAt τ m (fun j => Function.update S i (p :: S i) j ≠ []) := by
    intro υ τ hf hm
    refine (hm.frame hf ?_).congr ?_
    · intro b _ hb hc
      have hhigh := N.links_high hc
      omega
    · intro j _
      by_cases hj : j = i
      · simp [hj]
      · simp [hj]
  unfold insertSmallChunk
  simp only [hs, wp_bind]
  rw [wp_smallmapIsMarked hw hi32]
  by_cases hbit : w.testBit i = true
  · have hne : S i ≠ [] := (hbits i hi32).mp hbit
    have hring := hr hne
    rw [wp_if_pos hbit]
    simp only [wp_bind, fd]
    rw [wp_loadPtr (show σ.getPtr (smallbinAt m i + 16) = _ from hring.next_head.1)]
    have hlo : lo ≤ firstNode (smallbinAt m i) (S i) := by
      have hl := A.low
      have hb := N.inside (smallbinAt m i) (by simp)
      rcases List.mem_cons.mp (firstNode_mem (smallbinAt m i) (S i)) with he | hm
      · omega
      · have hin := N.inside _ (List.mem_cons_of_mem _ (List.mem_cons_of_mem _ hm))
        omega
    rw [wp_okAddress A.least hlo, wp_check rfl, wp_pure]
    refine wp_linkSmall A N hr ?_
    intro τ hf hτ
    refine hQ τ (hlink hf) (hup hf ⟨w, hw, fun j hj => ?_⟩) hτ
    constructor
    · intro h
      exact Or.inr ((hbits j hj).mp h)
    · rintro (rfl | h)
      · exact hbit
      · exact (hbits j hj).mpr h
  · have hnil : S i = [] := by
      by_contra hne
      exact hbit ((hbits i hi32).mpr hne)
    rw [wp_if_neg hbit]
    simp only [wp_bind, markSmallmap, smallmap]
    rw [wp_update hw, wp_pure]
    have hmark : Frame (fun b => m ≤ b ∧ b < m + 4) σ (σ.put 4 m (w ||| idx2bit i)) :=
      (Frame.refl _ σ).put (fun b hb hb' => ⟨hb, hb'⟩)
    have hfirst : smallbinAt m i = firstNode (smallbinAt m i) (S i) := by
      rw [hnil, firstNode_nil]
    have A' : Arena (σ.put 4 m (w ||| idx2bit i)) m lo hi :=
      A.frame hmark (fun b hb _ hc => by omega)
    have hrun := wp_linkSmall (D := D) (Q := Q) A' N (fun hne => absurd hnil hne) (by
      intro τ hf hτ
      refine hQ τ ?_ (hup hf (MapAt.mark hw hbits hi32)) hτ
      exact (hmark.mono (fun b hb => Or.inl hb)).trans (hlink hf))
    rw [← hfirst] at hrun
    exact hrun

theorem wp_okLink {f : Nat} {Q : Bool → State → Prop} (A : Arena σ m lo hi) (hf : lo ≤ f) :
    wp D (okLink m i f) Q σ ↔ Q true σ := by
  unfold okLink
  by_cases h : f = smallbinAt m i
  · rw [if_pos h]
    exact wp_pure
  · rw [if_neg h]
    exact wp_okAddress A.least hf

/-- Taking a chunk out of a bin of several: two links change. -/
theorem wp_bridge {Q : Unit → State → Prop} (A : Arena σ m lo hi) {h : Nat}
    (N : Nodes m hi (h :: (l₁ ++ p :: l₂)))
    (hr : LinkRing (fwd σ) (bwd σ) h (l₁ ++ p :: l₂))
    (hQ : ∀ τ, Frame (Links 32 (h :: (l₁ ++ p :: l₂))) σ τ →
      LinkRing (fwd τ) (bwd τ) h (l₁ ++ l₂) → Q () τ) :
    wp D (storePtr (firstNode h l₂ + 24) (lastNode h l₁)) (fun _ τ =>
      wp D (storePtr (lastNode h l₁ + 16) (firstNode h l₂)) Q τ) σ ∧
    wp D (storePtr (lastNode h l₁ + 16) (firstNode h l₂)) (fun _ τ =>
      wp D (storePtr (firstNode h l₂ + 24) (lastNode h l₁)) Q τ) σ := by
  have hlast : lastNode h l₁ ∈ h :: (l₁ ++ p :: l₂) := by
    rcases List.mem_cons.mp (lastNode_mem h l₁) with he | hm
    · rw [he]
      exact List.mem_cons_self
    · exact List.mem_cons_of_mem _ (List.mem_append_left _ hm)
  have hfirst : firstNode h l₂ ∈ h :: (l₁ ++ p :: l₂) := by
    rcases List.mem_cons.mp (firstNode_mem h l₂) with he | hm
    · rw [he]
      exact List.mem_cons_self
    · exact List.mem_cons_of_mem _ (List.mem_append_right _ (List.mem_cons_of_mem _ hm))
  have hnl := N.inside _ hlast
  have hnf := N.inside _ hfirst
  have hap := N.apart _ hlast _ hfirst
  generalize hb : lastNode h l₁ = b at *
  generalize hf : firstNode h l₂ = f at *
  have hzone : ∀ c, Words [b + 16, f + 24] c → Links 32 (h :: (l₁ ++ p :: l₂)) c := by
    rintro c ⟨g, hg, h1, h2⟩
    simp only [List.mem_cons, List.not_mem_nil, or_false] at hg
    rcases hg with rfl | rfl
    · exact ⟨b, hlast, by omega, by omega⟩
    · exact ⟨f, hfirst, by omega, by omega⟩
  have hfin : ∀ τ, Frame (Words [b + 16, f + 24]) σ τ → τ.getPtr (b + 16) = some f →
      τ.getPtr (f + 24) = some b → Q () τ := by
    intro τ hW h1 h2
    refine hQ τ (hW.mono hzone) ?_
    refine ring_unlink N hr ?_ ?_ ?_
    · rw [hb, hf]
      exact hW
    · rw [hb, hf]
      exact h1
    · rw [hb, hf]
      exact h2
  have hswap : ∀ c, Words [f + 24, b + 16] c → Words [b + 16, f + 24] c := by
    rintro c ⟨g, hg, hc⟩
    exact ⟨g, by simpa [or_comm] using hg, hc⟩
  constructor
  · refine A.wp_storePtr rfl (by omega) (by omega) ?_
    refine A.wp_storePtr rfl (by omega) (by omega) ?_
    refine hfin _ (((Frame.refl (Words []) σ).word _ _).word _ _) ?_ ?_
    · exact A.getPtr_self (by rfl) (by omega) (by omega) (by omega) (by omega) (by omega)
    · simp (disch := omega) only [Machine.getPtr_putPtr_ne]
      exact A.getPtr_self (by rfl) (by omega) (by omega) (by omega) (by omega) (by omega)
  · refine A.wp_storePtr rfl (by omega) (by omega) ?_
    refine A.wp_storePtr rfl (by omega) (by omega) ?_
    refine hfin _ ((((Frame.refl (Words []) σ).word _ _).word _ _).mono hswap) ?_ ?_
    · simp (disch := omega) only [Machine.getPtr_putPtr_ne]
      exact A.getPtr_self (by rfl) (by omega) (by omega) (by omega) (by omega) (by omega)
    · exact A.getPtr_self (by rfl) (by omega) (by omega) (by omega) (by omega) (by omega)

/-- In a ring without repetition, only a lone node has one neighbour twice. -/
theorem neighbours_eq {h : Nat} (hnd : (h :: (l₁ ++ p :: l₂)).Nodup) :
    firstNode h l₂ = lastNode h l₁ ↔ l₁ = [] ∧ l₂ = [] := by
  obtain ⟨hh, hnd'⟩ := List.nodup_cons.mp hnd
  obtain ⟨_, _, hdis⟩ := List.nodup_append.mp hnd'
  constructor
  · intro he
    rcases List.mem_cons.mp (lastNode_mem h l₁) with hl | hl
    · cases l₁ with
      | nil =>
        cases l₂ with
        | nil => exact ⟨rfl, rfl⟩
        | cons y l =>
          rw [firstNode_cons] at he
          exact absurd (by simp [he, lastNode]) hh
      | cons x l =>
        have hm : lastNode h (x :: l) ∈ x :: l := lastNode_mem x l
        rw [hl] at hm
        exact absurd (List.mem_append_left _ hm) hh
    · rcases List.mem_cons.mp (firstNode_mem h l₂) with hf | hf
      · rw [← he, hf] at hl
        exact absurd (List.mem_append_left _ hl) hh
      · exact absurd he.symm (hdis _ hl _ (List.mem_cons_of_mem _ hf))
  · rintro ⟨rfl, rfl⟩
    rfl

/-- A bin after one of its chunks has left. -/
structure SmallUnlinked (m i : Nat) (S : Nat → List Nat) (l : List Nat) (σ τ : State) :
    Prop where
  frame : Frame (SmallZone m i (S i)) σ τ
  map : MapAt τ m (fun j => Function.update S i l j ≠ [])
  ring : l ≠ [] → LinkRing (fwd τ) (bwd τ) (smallbinAt m i) l

theorem SmallUnlinked.of_bridge {S : Nat → List Nat} (hmap : MapAt σ m (fun j => S j ≠ []))
    (N : Nodes m hi (smallbinAt m i :: S i)) (hne : S i ≠ []) (hl : l ≠ [])
    (hf : Frame (Links 32 (smallbinAt m i :: S i)) σ τ)
    (hr : LinkRing (fwd τ) (bwd τ) (smallbinAt m i) l) : SmallUnlinked m i S l σ τ := by
  refine ⟨hf.mono (fun b hb => Or.inr hb), (hmap.frame hf ?_).congr ?_, fun _ => hr⟩
  · intro b _ hb hc
    have hhigh := N.links_high hc
    omega
  · intro j _
    by_cases hj : j = i
    · subst hj
      simp [hne, hl]
    · simp [hj]

theorem wp_clearSmallmap {S : Nat → List Nat} {Q : Unit → State → Prop} (hi32 : i < 32)
    (hmap : MapAt σ m (fun j => S j ≠ [])) (hQ : ∀ τ, SmallUnlinked m i S [] σ τ → Q () τ) :
    wp D (clearSmallmap m i) Q σ := by
  obtain ⟨w, hw, hbits⟩ := hmap
  simp only [clearSmallmap, smallmap]
  rw [wp_update hw]
  refine hQ _ ⟨?_, (MapAt.clear hw hbits hi32).congr ?_, fun h => absurd rfl h⟩
  · exact (Frame.refl _ σ).put (fun b hb hb' => Or.inl ⟨hb, hb'⟩)
  · intro j _
    by_cases hj : j = i
    · simp [hj]
    · simp [hj]

theorem wp_unlinkSmallChunk {S : Nat → List Nat} {Q : Unit → State → Prop} (A : Arena σ m lo hi)
    (hs : smallIndex s = i) (hi32 : i < 32) (hmap : MapAt σ m (fun j => S j ≠ []))
    (N : Nodes m hi (smallbinAt m i :: S i)) (hS : S i = l₁ ++ p :: l₂)
    (hr : LinkRing (fwd σ) (bwd σ) (smallbinAt m i) (S i))
    (hQ : ∀ τ, SmallUnlinked m i S (l₁ ++ l₂) σ τ → Q () τ) :
    wp D (unlinkSmallChunk m p s) Q σ := by
  have hr' := hr
  have N' := N
  rw [hS] at hr' N'
  obtain ⟨hf, hb⟩ := hr'.around
  have hlow : ∀ x ∈ smallbinAt m i :: (l₁ ++ p :: l₂), lo ≤ x := by
    intro x hx
    have hin := N'.inside x hx
    have hl := A.low
    omega
  have hlast : lastNode (smallbinAt m i) l₁ ∈ smallbinAt m i :: (l₁ ++ p :: l₂) := by
    rcases List.mem_cons.mp (lastNode_mem (smallbinAt m i) l₁) with he | hm
    · simp [he]
    · simp [hm]
  have hfirst : firstNode (smallbinAt m i) l₂ ∈ smallbinAt m i :: (l₁ ++ p :: l₂) := by
    rcases List.mem_cons.mp (firstNode_mem (smallbinAt m i) l₂) with he | hm
    · simp [he]
    · simp [hm]
  unfold unlinkSmallChunk
  simp only [hs, wp_bind, fd, bk]
  rw [wp_loadPtr (show σ.getPtr (p + 16) = _ from hf),
    wp_loadPtr (show σ.getPtr (p + 24) = _ from hb)]
  by_cases he : firstNode (smallbinAt m i) l₂ = lastNode (smallbinAt m i) l₁
  · obtain ⟨rfl, rfl⟩ := (neighbours_eq N'.nodup).mp he
    rw [wp_if_pos he]
    exact wp_clearSmallmap hi32 hmap hQ
  · have hne : l₁ ++ l₂ ≠ [] := by
      intro hc
      exact he ((neighbours_eq N'.nodup).mpr (List.append_eq_nil_iff.mp hc))
    rw [wp_if_neg he]
    simp only [wp_bind]
    rw [wp_okLink A (hlow _ hfirst), wp_check rfl, wp_okLink A (hlow _ hlast), wp_check rfl]
    refine (wp_bridge A N' hr' ?_).1
    intro τ hfr hring
    refine hQ τ (SmallUnlinked.of_bridge hmap N (by simp [hS]) hne ?_ hring)
    rw [hS]
    exact hfr

theorem wp_unlinkFirstSmallChunk {S : Nat → List Nat} {Q : Unit → State → Prop}
    (A : Arena σ m lo hi) (hi32 : i < 32) (hmap : MapAt σ m (fun j => S j ≠ []))
    (N : Nodes m hi (smallbinAt m i :: S i)) (hS : S i = p :: l)
    (hr : LinkRing (fwd σ) (bwd σ) (smallbinAt m i) (S i))
    (hQ : ∀ τ, SmallUnlinked m i S l σ τ → Q () τ) :
    wp D (unlinkFirstSmallChunk m (smallbinAt m i) p i) Q σ := by
  have hr' : LinkRing (fwd σ) (bwd σ) (smallbinAt m i) ([] ++ p :: l) := by
    rw [← List.nil_append (p :: l)] at hS
    rw [← hS]
    exact hr
  have N' : Nodes m hi (smallbinAt m i :: ([] ++ p :: l)) := by
    rw [List.nil_append, ← hS]
    exact N
  obtain ⟨hf, _⟩ := hr'.around
  unfold unlinkFirstSmallChunk
  simp only [wp_bind, fd, bk]
  rw [wp_loadPtr (show σ.getPtr (p + 16) = _ from hf)]
  have hlast : smallbinAt m i = lastNode (smallbinAt m i) [] := rfl
  by_cases he : smallbinAt m i = firstNode (smallbinAt m i) l
  · obtain ⟨_, rfl⟩ := (neighbours_eq N'.nodup).mp he.symm
    rw [wp_if_pos he]
    exact wp_clearSmallmap hi32 hmap hQ
  · have hne : l ≠ [] := by
      rintro rfl
      exact he rfl
    have hlo : lo ≤ firstNode (smallbinAt m i) l := by
      have hl := A.low
      rcases List.mem_cons.mp (firstNode_mem (smallbinAt m i) l) with hc | hc
      · exact absurd hc.symm he
      · have hin := N'.inside _ (List.mem_cons_of_mem _ (List.mem_cons_of_mem _ hc))
        omega
    rw [wp_if_neg he]
    simp only [wp_bind]
    rw [wp_okAddress A.least hlo, wp_check rfl]
    have hrun := (wp_bridge (D := D) (Q := Q) A N' hr' (by
      intro τ hfr hring
      refine hQ τ (SmallUnlinked.of_bridge hmap N (by simp [hS]) hne ?_ hring)
      rw [hS]
      exact hfr)).2
    rw [← hlast] at hrun
    exact hrun

end

end Mmdata.Proofs
