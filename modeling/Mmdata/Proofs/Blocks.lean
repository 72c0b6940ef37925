import Mmdata.Proofs.Runs

namespace Mmdata.Proofs
open Lib Malloc

/-- `mspace_usable_size`, as a function of the state. -/
def usableSize (σ : State) (p : Nat) : Nat := (result (mspaceUsableSize p) σ).getD 0

/-- The usable ranges of two blocks do not meet. -/
def Clear (σ : State) (p q : Nat) : Prop := p + usableSize σ p ≤ q ∨ q + usableSize σ q ≤ p

section

variable {σ τ : State} {m lo hi p q s k j n v base cap ms : Nat} {h h' : Heap}
  {live live' : List Nat} {L : List (Nat × Nat)} {c : Call}

theorem Ok.usableSize_eq (O : Ok σ m lo hi h) (hp : (p, s) ∈ h.live) :
    usableSize σ (p + 16) = s - 8 := by
  have hw : wp (fun _ => False) (mspaceUsableSize (p + 16)) (fun u _ => u = s - 8) σ :=
    O.wp_usableSize hp rfl
  unfold wp at hw
  unfold usableSize result
  split at hw
  · exact hw
  · exact hw.elim

theorem Clear.symm (hc : Clear σ p q) : Clear σ q p := Or.symm hc

/-- Live blocks do not overlap. -/
theorem Ok.clear (O : Ok σ m lo hi h) (B : Blocks live h) : live.Pairwise (Clear σ) := by
  have hmap : (h.live.map blockOf).Pairwise (Clear σ) := by
    apply List.pairwise_map.mpr
    apply O.live_apart.imp_of_mem
    rintro ⟨p, s⟩ ⟨q, t⟩ hp hq hap
    have hps := O.core.chunk_bounds (mem_live.mp hp)
    have hqs := O.core.chunk_bounds (mem_live.mp hq)
    simp only at hps hqs
    simp only [Clear, blockOf, O.usableSize_eq hp, O.usableSize_eq hq]
    rcases hap with ha | ha
    · simp only at ha
      omega
    · simp only at ha
      omega
  exact (B.pairwise_iff Clear.symm).mpr hmap

/-- The other live blocks, when one is singled out. -/
theorem Ok.other {a t : Nat} (O : Ok σ m lo hi h) (B : Blocks live h)
    (hk : live[k]? = some (p + 16)) (hl : h.live.Perm ((p, s) :: L))
    (hj : live[j]? = some (a + 16)) (ha : (a, t) ∈ h.live) (hne : j ≠ k) : (a, t) ∈ L := by
  have hq : a + 16 ∈ live.eraseIdx k := List.mem_eraseIdx_iff_getElem?.mpr ⟨j, hne, hj⟩
  obtain ⟨⟨b, u⟩, he, hb⟩ := List.mem_map.mp ((B.erase hk hl).mem_iff.mp hq)
  have hba : b = a := Nat.add_right_cancel hb
  subst hba
  have hbl : (b, u) ∈ h.live := hl.mem_iff.mpr (List.mem_cons_of_mem _ he)
  have hut := (O.core.free_unique (mem_live.mp ha) (mem_live.mp hbl)).1
  exact hut ▸ he

/-- The usable bytes of a live block. -/
theorem Ok.usable_payload (O : Ok σ m lo hi h) (hp : (p, s) ∈ h.live) {i : Nat}
    (hi : i < usableSize σ (p + 16)) : Payload h.chunks (p + 16 + i) := by
  rw [O.usableSize_eq hp] at hi
  exact Payload.live.mpr ⟨p, s, hp, by omega, by omega⟩

/-- A call leaves the usable bytes of other blocks alone. -/
theorem Outcome.others (R : Outcome σ m lo hi h live c v live' τ h') (O : Ok σ m lo hi h)
    (B : Blocks live h) (hj : live[j]? = some q) (hne : c.target ≠ some j) {i : Nat}
    (hi : i < usableSize σ q) : τ.byte (q + i) = σ.byte (q + i) := by
  obtain ⟨a, t, rfl, ha⟩ := B.chunk hj
  have hpay := O.usable_payload ha hi
  rw [O.usableSize_eq ha] at hi
  cases R with
  | nothing => rfl
  | given _ _ _ _ hf => exact hf.byte _ fun hb => hb.2.2 hpay
  | @taken k _ _ _ _ hk _ _ hl _ hf =>
    have hm := O.other B hk hl hj ha fun he => hne (he ▸ rfl)
    apply hf.byte
    intro hb
    exact hb.2.2 (Payload.live.mpr ⟨a, t, hm, by omega, by omega⟩)
  | @resized k _ _ _ _ _ _ _ hk _ hR =>
    obtain ⟨L, hl, hl'⟩ := hR.live
    have hm := O.other B hk hl hj ha fun he => hne (he ▸ rfl)
    have hm' := hl'.mem_iff.mpr (List.mem_cons_of_mem _ hm)
    apply hR.frame.byte
    intro hb
    exact hb.2.2 ⟨hpay, Payload.live.mpr ⟨a, t, hm', by omega, by omega⟩⟩
  | @written k d p s b hk hp hd =>
    have hl := List.perm_cons_erase hp
    have hm := O.other B hk hl hj ha fun he => hne (he ▸ rfl)
    have hap := O.apart_of_perm hl _ hm
    have hb := O.core.chunk_bounds (mem_live.mp hp)
    have hat := O.core.chunk_bounds (mem_live.mp ha)
    simp only [Apart] at hap hb hat
    have hout : ¬ (p + 16 + d ≤ a + 16 + i ∧ a + 16 + i < p + 16 + d + 1) := by omega
    simp only [Machine.put, storeLE, if_neg hout]

/-- The result of an allocation. -/
theorem Outcome.result (R : Outcome σ m lo hi h live c v live' τ h')
    (hn : c.wanted = some n) (hv : v ≠ 0) : v % 8 = 0 ∧ v ∈ live' ∧ n ≤ usableSize τ v := by
  have hgood : ∀ {a t : Nat}, Ok τ m lo hi h' → (a, t) ∈ h'.live → n + 8 ≤ t →
      (a + 16) % 8 = 0 ∧ n ≤ usableSize τ (a + 16) := by
    intro a t O' hm hs
    have hb := (O'.core.chunk_bounds (mem_live.mp hm)).1
    simp only at hb
    rw [O'.usableSize_eq hm]
    omega
  cases R with
  | nothing => exact absurd rfl hv
  | given O' hl hs =>
    cases hn
    obtain ⟨h1, h2⟩ := hgood O' (hl.mem_iff.mpr List.mem_cons_self) hs
    exact ⟨h1, List.mem_cons_self, h2⟩
  | taken => contradiction
  | resized hk _ hR =>
    cases hn
    obtain ⟨L, _, hl'⟩ := hR.live
    obtain ⟨hlt, _⟩ := List.getElem?_eq_some_iff.mp hk
    obtain ⟨h1, h2⟩ := hgood hR.ok (hl'.mem_iff.mpr List.mem_cons_self) hR.large
    exact ⟨h1, List.mem_set hlt _, h2⟩
  | written => contradiction

/-- A reallocation keeps what fits of the old contents. -/
theorem Outcome.kept (R : Outcome σ m lo hi h live (.realloc k n) v live' τ h')
    (O : Ok σ m lo hi h) (hk : live[k]? = some p) (hv : v ≠ 0) {i : Nat}
    (hi : i < min (usableSize σ p) n) : τ.byte (v + i) = σ.byte (p + i) := by
  cases R with
  | nothing => exact absurd rfl hv
  | resized hk' hp hR =>
    rw [hk] at hk'
    cases hk'
    rw [O.usableSize_eq hp] at hi
    exact hR.data i (by omega) (by omega)

/-- From any state reached, every call treats blocks as separate stretches of
memory: what it returns is aligned, large enough and clear of the other live
blocks, it writes to no block but the one it is about, and reallocation keeps
the contents. -/
theorem call_keeps_blocks (R : Reach base cap ms σ live)
    (hr : perform ms live c σ = .ok ((v, live'), τ)) :
    live'.Pairwise (Clear τ) ∧
    (∀ n, c.wanted = some n → v ≠ 0 → v % 8 = 0 ∧ v ∈ live' ∧ n ≤ usableSize τ v) ∧
    (∀ j q, live[j]? = some q → c.target ≠ some j →
      ∀ i < usableSize σ q, τ.byte (q + i) = σ.byte (q + i)) ∧
    (∀ k n p, c = .realloc k n → live[k]? = some p → v ≠ 0 →
      ∀ i < min (usableSize σ p) n, τ.byte (v + i) = σ.byte (p + i)) := by
  obtain ⟨rfl, T, h, H⟩ := reach_held R
  obtain ⟨h', hout⟩ := wp_ok (H.ok.wp_perform H.blocks fun _ => T) hr
  refine ⟨(hout.ok H.ok).clear (hout.blocks H.blocks), ?_, ?_, ?_⟩
  · intro n hn hv
    exact hout.result hn hv
  · intro j q hj hne i hi
    exact hout.others H.ok H.blocks hj hne hi
  · rintro k n p rfl hk hv i hi
    exact hout.kept H.ok hk hv hi

set_option maxRecDepth 100000 in
/-- A block moves, and the two blocks stay apart. -/
theorem call_keeps_blocks_session : ∃ vs σ τ,
    session 4096 65536 0 [.malloc 100, .malloc 600, .write 1 7 5] zeroed =
      .ok ((4160, vs, [5208, 5096]), σ) ∧
    perform 4160 [5208, 5096] (.realloc 1 700) σ = .ok ((5816, [5208, 5816]), τ) ∧
    [5208, 5816].Pairwise (Clear τ) := by
  have hrun : result (do
      let s ← session 4096 65536 0 [.malloc 100, .malloc 600, .write 1 7 5]
      let r ← perform s.1 s.2.2 (.realloc 1 700)
      return (s.1, s.2.2, r.1, r.2)) zeroed = some (4160, [5208, 5096], 5816, [5208, 5816]) := by
    decide +kernel
  obtain ⟨τ, hτ⟩ := result_ok hrun
  obtain ⟨⟨ms, vs, live⟩, σ, hσ, hrest⟩ := bind_ok hτ
  obtain ⟨⟨v, live'⟩, υ, hυ, hpure⟩ := bind_ok hrest
  cases hpure
  have R := reach_session zeroed_ready hσ (by decide)
  exact ⟨vs, σ, τ, hσ, hυ, (call_keeps_blocks R hυ).1⟩

end

end Mmdata.Proofs
