import Mmdata.Proofs.AlikeCalls
import Mmdata.Proofs.AlikeCreate
import Mmdata.Proofs.RealHeap

namespace Mmdata.Proofs
open Lib Malloc Image Relocation

/-- The mspace at `ms'` of a process and the blocks `live'`, as a process has them that maps
nothing but the image, and in which the invariant holds. -/
structure Shadow (L : Relocation Globals) (cap ms' : Nat) (live live' : List Nat) (σ τ : State) :
    Prop where
  view : L.Match σ τ
  mspace : L.Moves (L.src + 64) ms'
  blocks : LiveMoves L live live'
  heap : ∃ h, Held σ L.src cap live h
  trim : TrimOk Leftover σ (L.src + 64) (L.src + cap)

section

variable {L : Relocation Globals} {cap ms' base' : Nat} {live live' : List Nat} {σ τ υ : State}
  {locked : Nat}

theorem leftover_loud (hx : L.exact) {e : Trap} (he : Leftover e) : L.Loud e := by
  cases he with
  | inl h =>
    subst h
    exact ⟨by decide, by decide, fun _ => hx⟩
  | inr h =>
    subst h
    exact ⟨by decide, by decide, fun h => absurd h (by decide)⟩

/-- What the process without other memory does, the other does too. -/
theorem Shadow.follow {r : Nat × List Nat} {σ' : State} (S : Shadow L cap ms' live live' σ τ)
    (hG : ParamsMove L) {c : Call} (hr : perform (L.src + 64) live c σ = .ok (r, σ')) :
    ∃ r' τ', perform ms' live' c τ = .ok (r', τ') ∧ StepMoves L r r' ∧
      Shadow L cap ms' r.2 r'.2 σ' τ' ∧ L.Inside τ τ' := by
  obtain ⟨h, H⟩ := S.heap
  obtain ⟨h', hR⟩ := wp_ok (H.ok.wp_perform H.blocks fun _ => S.trim) hr
  have hstep := alike_perform hG S.mspace S.blocks c σ τ S.view
  rw [hr] at hstep
  obtain ⟨r', τ', hy, hm, M, hI⟩ := hstep
  exact ⟨r', τ', hy, hm, ⟨M, S.mspace, hm.2, ⟨h', H.outcome hR⟩, S.trim.within (hR.frame H.ok)⟩, hI⟩

/-- A call that returns in the other process returns in this one. -/
theorem Shadow.lead {r' : Nat × List Nat} {τ' : State} (S : Shadow L cap ms' live live' σ τ)
    (hG : ParamsMove L) (hx : L.exact) {c : Call}
    (hr : perform ms' live' c τ = .ok (r', τ')) :
    ∃ r σ', perform (L.src + 64) live c σ = .ok (r, σ') := by
  obtain ⟨h, H⟩ := S.heap
  cases hσ : perform (L.src + 64) live c σ with
  | ok p => exact ⟨p.1, p.2, rfl⟩
  | error e =>
    have he := wp_error (H.ok.wp_perform H.blocks fun _ => S.trim) hσ
    have hstep := alike_perform hG S.mspace S.blocks c σ τ S.view
    rw [hσ] at hstep
    rw [hstep (leftover_loud hx he)] at hr
    contradiction

/-- An mspace is created in both. -/
theorem wp_createShadow (M : L.Match σ τ) (hG : ParamsMove L) (hA : AimsMove L) (hx : L.exact)
    (hb : L.Moves L.src base') (B : Buffer Leftover σ L.src cap) :
    wp Leftover (createMspaceWithBase base' cap locked 1) (fun ms' τ' => L.Inside τ τ' ∧
      (ms' ≠ 0 → ∃ σ', Shadow L cap ms' [] [] σ' τ')) τ := by
  have hrun : wp Leftover (createMspaceWithBase L.src cap locked 1) (fun ms σ' => ms ≠ 0 →
      ms = L.src + 64 ∧ TrimOk Leftover σ' (L.src + 64) (L.src + cap) ∧
        ∃ h, Held σ' L.src cap [] h) σ := by
    apply B.wp_createMspaceWithBase (by decide)
    · intro _ _ _ h0
      exact absurd rfl h0
    · intro σ' O hown _ T _ _
      exact ⟨rfl, T, _, O, List.Perm.refl _, hown⟩
  apply wp_mono ((alike_createMspaceWithBase hG hA hb).wp M hrun fun _ => leftover_loud hx)
  intro ms' τ' hend
  obtain ⟨ms, σ', hms, hP, M', hI⟩ := hend
  refine ⟨hI, fun h0 => ?_⟩
  have hne : ms ≠ 0 := fun hz => h0 (hP.zero_iff.mp hz)
  obtain ⟨rfl, T, H⟩ := hms hne
  exact ⟨σ', M', hP.moves hne, List.Forall₂.nil, H, T⟩

end

/-! A process as it is, with the same memory mapped and without any other. -/

section

variable {L : Relocation Globals} {v v' : Nat} {live live' : List Nat}

theorem mem_still (hL : L.dst = L.src) (h : MemMoves L v v') : v' = v := by
  cases h with
  | inl h => rw [h.1, h.2]
  | inr h =>
    obtain ⟨p, p', hp, rfl, rfl⟩ := h
    have he := hp.2
    rw [show p' = p by omega]

theorem live_still (hL : L.dst = L.src) (h : LiveMoves L live live') : live' = live := by
  induction h with
  | nil => rfl
  | cons hv _ ih => rw [mem_still hL (Or.inr hv), ih]

end

theorem known_stays (b : UInt8) : Cell.known b = Cell.known b := rfl

theorem align_self (lo : Nat) : lo % 8 = lo % 8 := rfl

theorem pos_of_low {lo : Nat} (low : 64 ≤ lo) : 0 < lo := by
  omega

/-- The stretch stays where it is. -/
def stay (lo n : Nat) (low : 64 ≤ lo) (word : lo + n ≤ 2 ^ 64) : Relocation Globals where
  src := lo
  dst := lo
  size := n
  cell := Eq
  glob := Eq
  exact := True
  low := low
  pos := pos_of_low low
  srcWord := word
  dstWord := word
  align := align_self lo
  known := known_stays
  get := fun h hc => h ▸ hc
  lowBit := fun h hc => h ▸ hc
  setLow := fun h => h ▸ rfl
  exactGet := fun _ h hc => h ▸ hc
  exactLow := fun _ h hc => h ▸ hc

/-- A process that maps the stretch only. -/
def confine (σ : State) (lo n : Nat) : State := { σ with maps := [(lo, lo + n)] }

section

variable {lo n cap ms : Nat} {low : 64 ≤ lo} {word : lo + n ≤ 2 ^ 64} {live : List Nat}
  {σ τ υ : State} {W : Nat → Prop}

theorem stay_moves {a b : Nat} : (stay lo n low word).Moves a b ↔ lo ≤ a ∧ b = a := by
  simp only [Moves, stay]
  omega

theorem stay_params : ParamsMove (stay lo n low word) := by
  intro g g' hg
  cases (show g = g' from hg)
  exact ⟨rfl, fun o _ hle => stay_moves.mpr ⟨hle, rfl⟩⟩

theorem stay_aims : AimsMove (stay lo n low word) := by
  intro g g' p p' hg hp
  cases (show g = g' from hg)
  cases (stay_moves.mp hp).2
  exact rfl

theorem stay_view (hm : ∃ r ∈ τ.maps, r.1 ≤ lo ∧ lo + n ≤ r.2) :
    (stay lo n low word).Match (confine τ lo n) τ := ⟨rfl, hm, fun _ _ => rfl, rfl⟩

/-- What is written elsewhere is not seen. -/
theorem Shadow.elsewhere (S : Shadow (stay lo n low word) cap ms live live σ τ)
    (hf : Frame W τ υ) (hW : ∀ b, W b → b < lo ∨ lo + n ≤ b) :
    Shadow (stay lo n low word) cap ms live live σ υ := by
  refine ⟨⟨S.view.only, ?_, ?_, ?_⟩, S.mspace, S.blocks, S.heap, S.trim⟩
  · rw [hf.maps]
    exact S.view.mapped
  · intro i hi
    have hc := S.view.cells i hi
    have hout : ¬ W (lo + i) := fun hb => by
      have hw := hW _ hb
      have hn : i < n := hi
      omega
    have he : υ.byte (lo + i) = τ.byte (lo + i) := hf.byte _ hout
    exact Eq.trans (show σ.byte (lo + i) = τ.byte (lo + i) from hc) he.symm
  · rw [hf.glob]
    exact S.view.glob

end

end Mmdata.Proofs
