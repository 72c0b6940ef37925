import Mathlib.Init

namespace Mmdata.Lib

/-- A run of `x` from `s` ends in `Q`, or it throws and what it leaves is in `E`. -/
def ends {ε σ α : Type} (x : EStateM ε σ α) (Q : α → σ → Prop) (E : ε → σ → Prop) (s : σ) : Prop :=
  match x s with
  | .ok r s' => Q r s'
  | .error e s' => E e s'

/-- An object of a scope: it is made, used, and destroyed at the end of the scope, also
where the scope is left by an exception. -/
def inScope {ε σ α β : Type} (make : EStateM ε σ β) (destroy : β → EStateM ε σ Unit)
    (body : β → EStateM ε σ α) : EStateM ε σ α := do
  let b ← make
  try body b finally destroy b

section Rules

variable {ε σ α β : Type} {s : σ} {Q : α → σ → Prop} {E : ε → σ → Prop}

theorem ends_pure {r : α} : ends (pure r : EStateM ε σ α) Q E s ↔ Q r s := Iff.rfl

theorem ends_get {Q : σ → σ → Prop} : ends (get : EStateM ε σ σ) Q E s ↔ Q s s := Iff.rfl

theorem ends_modify {f : σ → σ} {Q : PUnit → σ → Prop} :
    ends (modify f : EStateM ε σ PUnit) Q E s ↔ Q ⟨⟩ (f s) := Iff.rfl

theorem ends_bind {x : EStateM ε σ β} {f : β → EStateM ε σ α} :
    ends (x >>= f) Q E s ↔ ends x (fun r s' => ends (f r) Q E s') E s := by
  simp only [ends, bind, EStateM.bind]
  cases x s with
  | ok r s' => exact Iff.rfl
  | error e s' => exact Iff.rfl

theorem ends_if_pos {c : Prop} [Decidable c] {x y : EStateM ε σ α} (h : c) :
    ends (if c then x else y) Q E s ↔ ends x Q E s := by
  rw [if_pos h]

theorem ends_if_neg {c : Prop} [Decidable c] {x y : EStateM ε σ α} (h : ¬ c) :
    ends (if c then x else y) Q E s ↔ ends y Q E s := by
  rw [if_neg h]

theorem ends_mono {x : EStateM ε σ α} {Q' : α → σ → Prop} {E' : ε → σ → Prop}
    (h : ends x Q' E' s) (hq : ∀ r s', Q' r s' → Q r s') (he : ∀ e s', E' e s' → E e s') :
    ends x Q E s := by
  simp only [ends] at h ⊢
  split at h
  · exact hq _ _ h
  · exact he _ _ h

theorem ends_ok {x : EStateM ε σ α} {r : α} {s' : σ} (h : ends x Q E s)
    (hx : x s = .ok r s') : Q r s' := by
  simpa only [ends, hx] using h

theorem ends_error {x : EStateM ε σ α} {e : ε} {s' : σ} (h : ends x Q E s)
    (hx : x s = .error e s') : E e s' := by
  simpa only [ends, hx] using h

/-- What does not throw returns. -/
theorem returns_of_ends {x : EStateM ε σ α} (h : ends x Q (fun _ _ => False) s) :
    ∃ r s', x s = .ok r s' ∧ Q r s' := by
  unfold ends at h
  cases hx : x s with
  | ok r s' =>
    rw [hx] at h
    exact ⟨r, s', rfl, h⟩
  | error e s' =>
    rw [hx] at h
    exact h.elim

/-- A run of two parts is a run of each. -/
theorem run_of_bind {x : EStateM ε σ β} {f : β → EStateM ε σ α} {r : α} {s' : σ}
    (h : (x >>= f) s = .ok r s') : ∃ a s₁, x s = .ok a s₁ ∧ f a s₁ = .ok r s' := by
  simp only [bind, EStateM.bind] at h
  cases hx : x s with
  | ok a s₁ =>
    rw [hx] at h
    exact ⟨a, s₁, rfl, h⟩
  | error e s₁ =>
    rw [hx] at h
    cases h

/-- The end of the scope comes after the body, however the body ends. -/
theorem ends_inScope {make : EStateM ε σ β} {destroy : β → EStateM ε σ Unit}
    {body : β → EStateM ε σ α} : ends (inScope make destroy body) Q E s ↔
      ends make (fun b s₁ => ends (body b)
        (fun r s₂ => ends (destroy b) (fun _ s₃ => Q r s₃) E s₂)
        (fun e s₂ => ends (destroy b) (fun _ s₃ => E e s₃) E s₂) s₁) E s := by
  unfold inScope
  rw [ends_bind]
  simp only [ends, tryFinally, tryFinally', Functor.map]
  cases make s with
  | error e s₁ => exact Iff.rfl
  | ok b s₁ =>
    simp only [EStateM.map]
    cases body b s₁ with
    | ok r s₂ =>
      simp only
      cases destroy b s₂ with
      | ok u s₃ => exact Iff.rfl
      | error e s₃ => exact Iff.rfl
    | error e s₂ =>
      simp only
      cases destroy b s₂ with
      | ok u s₃ => exact Iff.rfl
      | error e' s₃ => exact Iff.rfl

end Rules

end Mmdata.Lib
