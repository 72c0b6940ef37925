import Mmdata.Proofs.AlikeFree
import Mmdata.Malloc.Client

namespace Mmdata.Proofs
open Lib Malloc Relocation

/-- The live blocks, one by one. -/
def LiveMoves (L : Relocation Globals) (live live' : List Nat) : Prop :=
  List.Forall₂ (BlockMoves L) live live'

/-- A result, and the live blocks after it. -/
def StepMoves (L : Relocation Globals) (r r' : Nat × List Nat) : Prop :=
  MemMoves L r.1 r'.1 ∧ LiveMoves L r.2 r'.2

section

variable {L : Relocation Globals} {m m' v v' : Nat}

theorem LiveMoves.get {live live' : List Nat} (h : LiveMoves L live live') (k : Nat) :
    live[k]? = none ∧ live'[k]? = none ∨
      ∃ v v', live[k]? = some v ∧ live'[k]? = some v' ∧ BlockMoves L v v' := by
  induction h generalizing k with
  | nil => exact Or.inl ⟨rfl, rfl⟩
  | cons hv _ ih =>
    cases k with
    | zero => exact Or.inr ⟨_, _, rfl, rfl, hv⟩
    | succ k => exact ih k

theorem LiveMoves.erase {live live' : List Nat} (h : LiveMoves L live live') (k : Nat) :
    LiveMoves L (live.eraseIdx k) (live'.eraseIdx k) := by
  induction h generalizing k with
  | nil => exact List.Forall₂.nil
  | cons hv h ih =>
    cases k with
    | zero => exact h
    | succ k => exact List.Forall₂.cons hv (ih k)

theorem LiveMoves.set {live live' : List Nat} (h : LiveMoves L live live')
    (hb : BlockMoves L v v') (k : Nat) : LiveMoves L (live.set k v) (live'.set k v') := by
  induction h generalizing k with
  | nil => exact List.Forall₂.nil
  | cons hv h ih =>
    cases k with
    | zero => exact List.Forall₂.cons hb h
    | succ k => exact List.Forall₂.cons hv (ih k)

theorem alike_perform (hG : ParamsMove L) (hm : L.Moves m m') {live live' : List Nat}
    (hl : LiveMoves L live live') (c : Call) :
    L.Alike (perform m live c) (perform m' live' c) (StepMoves L) := by
  cases c with
  | malloc bytes =>
    apply alike_bind (alike_mspaceMalloc hm)
    intro v v' hv
    apply alike_pure
    refine ⟨hv, ?_⟩
    cases hv with
    | inl h0 =>
      obtain ⟨rfl, rfl⟩ := h0
      exact hl
    | inr hb =>
      obtain ⟨p, p', hp, rfl, rfl⟩ := hb
      exact List.Forall₂.cons ⟨p, p', hp, rfl, rfl⟩ hl
  | free k =>
    cases hl.get k with
    | inl h =>
      simp only [perform, h.1, h.2]
      exact alike_pure ⟨memMoves_null, hl⟩
    | inr h =>
      obtain ⟨v, v', h1, h2, hb⟩ := h
      simp only [perform, h1, h2]
      apply alike_bind (alike_mspaceFree hG hm (Or.inr hb))
      intro _ _ _
      exact alike_pure ⟨memMoves_null, hl.erase k⟩
  | realloc k bytes =>
    cases hl.get k with
    | inl h =>
      simp only [perform, h.1, h.2]
      exact alike_pure ⟨memMoves_null, hl⟩
    | inr h =>
      obtain ⟨v, v', h1, h2, hb⟩ := h
      simp only [perform, h1, h2]
      apply alike_bind (alike_mspaceRealloc hG hm hb)
      intro w w' hw
      apply alike_pure
      refine ⟨hw, ?_⟩
      cases hw with
      | inl h0 =>
        obtain ⟨rfl, rfl⟩ := h0
        exact hl
      | inr hb =>
        obtain ⟨p, p', hp, rfl, rfl⟩ := hb
        exact hl.set ⟨p, p', hp, rfl, rfl⟩ k
  | write k i b =>
    cases hl.get k with
    | inl h =>
      simp only [perform, h.1, h.2]
      exact alike_pure ⟨memMoves_null, hl⟩
    | inr h =>
      obtain ⟨v, v', h1, h2, hb⟩ := h
      simp only [perform, h1, h2]
      apply alike_bind (alike_mspaceUsableSize hb)
      intro u u' hu
      cases hu
      apply alike_if Iff.rfl
      · intro _
        obtain ⟨p, p', hp, rfl, rfl⟩ := hb
        apply alike_bind (alike_store ((hp.add 16).add i).aims)
        intro _ _ _
        exact alike_pure ⟨memMoves_null, hl⟩
      · intro _
        exact alike_pure ⟨memMoves_null, hl⟩

end

end Mmdata.Proofs
