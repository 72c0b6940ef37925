import Mmdata.Lib.Machine

namespace Mmdata.Lib

/-! Invariants that no store breaks. -/

/-- Traps of programs that divide by nothing and make no system call. -/
def Plain (e : Trap) : Prop := e ≠ .divZero ∧ e ≠ .syscall ∧ e ≠ .fuel

/-- No store breaks the invariant. -/
def Robust {γ : Type} (I : Machine γ → Prop) : Prop :=
  ∀ (σ : Machine γ) (n a v : Nat), I σ → I (σ.put n a v)

/-- Whatever it reads, the program ends plainly, in a result of `R` and with the invariant. -/
def Keeps {γ α : Type} (I : Machine γ → Prop) (x : Prog γ α) (R : α → Prop) : Prop :=
  ∀ σ, I σ → wp Plain x (fun r τ => R r ∧ I τ) σ

/-- Every byte of the stretch has a value. -/
def Definite {γ : Type} (a n : Nat) (σ : Machine γ) : Prop :=
  ∀ b, a ≤ b → b < a + n → ∃ v, σ.byte b = .known v

section

variable {γ α β : Type} {I : Machine γ → Prop} {R : α → Prop} {S : β → Prop} {x y : Prog γ α}
  {f : α → Prog γ β} {σ : Machine γ} {a n t : Nat} {v : UInt8}

theorem robust_true : Robust fun _ : Machine γ => True := fun _ _ _ _ _ => trivial

theorem robust_definite : Robust (Definite (γ := γ) a n) := by
  intro σ k c w h b h1 h2
  by_cases hin : c ≤ b ∧ b < c + k
  · exact ⟨_, if_pos hin⟩
  · obtain ⟨u, hu⟩ := h b h1 h2
    exact ⟨u, (if_neg hin).trans hu⟩

theorem definite_fill : Definite a n (σ.fill a n v) := fun _ h1 h2 => ⟨v, if_pos ⟨h1, h2⟩⟩

theorem keeps_pure {r : α} (h : R r) : Keeps I (pure r) R := fun _ hI => ⟨h, hI⟩

theorem keeps_bind (hx : Keeps I x R) (hf : ∀ r, R r → Keeps I (f r) S) : Keeps I (x >>= f) S := by
  intro σ hI
  rw [wp_bind]
  apply wp_mono (hx σ hI)
  intro r τ h
  exact hf r h.1 τ h.2

theorem keeps_trap {e : Trap} (h : Plain e) : Keeps I (trap e : Prog γ α) R := fun _ _ => h

theorem keeps_if {c : Prop} [Decidable c] (h : c → Keeps I x R) (h' : ¬ c → Keeps I y R) :
    Keeps I (if c then x else y) R := by
  by_cases hc : c
  · rw [if_pos hc]
    exact h hc
  · rw [if_neg hc]
    exact h' hc

theorem keeps_globals : Keeps I globals fun _ => True := fun _ hI => ⟨trivial, hI⟩

theorem keeps_load : Keeps I (load n a) fun _ => True := by
  intro σ hI
  unfold wp load
  split
  · rename_i r τ hr
    split at hr
    · split at hr
      · cases hr
        exact ⟨trivial, hI⟩
      · contradiction
    · contradiction
  · rename_i e he
    split at he
    · split at he
      · contradiction
      · cases he
        exact ⟨by decide, by decide, by decide⟩
    · cases he
      exact ⟨by decide, by decide, by decide⟩

theorem keeps_store {w : Nat} (hI : Robust I) : Keeps I (store n a w) fun _ => True := by
  intro σ h
  by_cases hm : σ.mapped a n = true
  · rw [wp_store hm]
    exact ⟨trivial, hI σ n a w h⟩
  · have hx : store n a w σ = .error .segv := by simp [store, hm]
    rw [wp, hx]
    exact ⟨by decide, by decide, by decide⟩

theorem keeps_storePtr (hI : Robust I) : Keeps I (storePtr a t) fun _ => True := keeps_store hI

theorem keeps_update {g : Nat → Nat} (hI : Robust I) : Keeps I (update n a g) fun _ => True :=
  keeps_bind keeps_load fun _ _ => keeps_store hI

/-- A program that keeps what nothing breaks ends plainly. -/
theorem wp_plain {Q : α → Machine γ → Prop} (hx : Keeps (fun _ => True) x R)
    (hQ : ∀ r τ, Q r τ) : wp Plain x Q σ := wp_mono (hx σ trivial) fun r τ _ => hQ r τ

/-- Filled, the stretch is definite, and it stays so. -/
theorem wp_memset_definite (h : Keeps (Definite a n) y R) (σ : Machine γ) :
    wp Plain (memset a n v >>= fun _ => y) (fun r τ => R r ∧ Definite a n τ) σ := by
  rw [wp_bind]
  by_cases hm : σ.mapped a n = true
  · rw [wp_memset hm]
    exact h _ definite_fill
  · have hx : memset a n v σ = .error .segv := by simp [memset, hm]
    rw [wp, hx]
    exact ⟨by decide, by decide, by decide⟩

end

end Mmdata.Lib
