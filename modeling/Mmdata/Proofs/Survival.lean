import Mmdata.Proofs.Objects

namespace Mmdata.Proofs
open Lib Malloc

/-- An image in use: where it is mapped, and the blocks that its client has. -/
structure Moment where
  base : Nat
  cap : Nat
  ms : Nat
  state : State
  live : List Nat

def Moment.Alive (M : Moment) : Prop := Life M.base M.cap M.ms M.state M.live

def Moment.objects (M : Moment) : List (List Cell) := Proofs.objects M.state M.live

/-- What happens to an image, and what that asks of the objects in it. -/
inductive Happens : Demand Cell → Moment → Moment → Prop
  | served {M : Moment} {q : Request} {v : Nat} {live' : List Nat} {τ : State} : q.Fair →
      serve M.ms M.live q M.state = .ok ((v, live'), τ) →
      Happens (demand q) M { M with state := τ, live := live' }
  | grown {M : Moment} {inc : Nat} {τ : State} : Filed M.state M.base (M.cap + inc) →
      inc % 8 = 0 → mspaceIncSize M.ms inc M.state = .ok ((), τ) →
      Happens .keep M { M with cap := M.cap + inc, state := τ }
  | attached {M : Moment} {b ms' locked : Nat} {τ υ : State} : Filed τ b M.cap →
      SameBytes M.base b M.cap M.state τ →
      createMspaceWithBase b M.cap locked 0 τ = .ok (ms', υ) → ms' ≠ 0 →
      Happens .keep M ⟨b, M.cap, ms', υ, M.live.map (rebase M.base b)⟩

inductive HappenAll : List (Demand Cell) → Moment → Moment → Prop
  | nil {M : Moment} : HappenAll [] M M
  | cons {d : Demand Cell} {ds : List (Demand Cell)} {M N O : Moment} : Happens d M N →
      HappenAll ds N O → HappenAll (d :: ds) M O

/-- The block at `p` of the one moment is the block at `q` of the other, and nothing between has
been about it. -/
inductive Spares (M : Moment) (p : Nat) : Moment → Nat → Prop
  | here : Spares M p M p
  | step {d : Demand Cell} {N O : Moment} {q : Nat} : Spares M p N q → Happens d N O →
      (∀ k, d.target = some k → N.live[k]? ≠ some q) → Spares M p O (rebase N.base O.base q)

section

variable {d : Demand Cell} {ds : List (Demand Cell)} {M N : Moment} {σ τ υ : State} {p q r : Nat}

theorem demand_target (q : Request) : (demand q).target = q.target := by
  cases q with
  | call c => cases c <;> rfl
  | _ => rfl

theorem Preserved.trans (P : Preserved σ τ p q) (Q : Preserved τ υ q r) : Preserved σ υ p r := by
  refine ⟨Q.size.trans P.size, fun i hi => ?_⟩
  have hi' : i < usableSize τ q := by
    rw [P.size]
    exact hi
  exact (Q.bytes i hi').trans (P.bytes i hi)

theorem rebase_self (a p : Nat) : rebase a a p = p := by
  unfold rebase
  split <;> omega

/-- Whatever happens, the image stays alive, and its objects become what is asked of them. -/
theorem Happens.becomes (H : Happens d M N) (A : M.Alive) :
    N.Alive ∧ Becomes (.known 0) d M.objects N.objects := by
  obtain ⟨base, cap, ms, σ, live⟩ := M
  have R : Life base cap ms σ live := A
  obtain ⟨rfl, h, L⟩ := life_living R
  cases H with
  | served hq hr =>
    exact ⟨.served A hq hr, wp_ok (L.wp_objects (D := fun _ => True) hq) hr⟩
  | @grown _ inc τ F h8 hr =>
    obtain ⟨L', hf⟩ := wp_ok (L.wp_incSize (D := fun _ => True) F h8) hr
    have hsame : Proofs.objects τ live = Proofs.objects σ live :=
      objects_same fun p hp => L.grown_preserved L' hf hp
    refine ⟨.grown A F h8 hr, ?_⟩
    simp only [Moment.objects, hsame]
    exact .kept
  | @attached _ b ms' locked τ υ F hb hr h0 =>
    obtain ⟨_, rfl, _⟩ := L.reattached F hb hr h0
    have hsame : Proofs.objects (aimed τ b) (live.map (rebase base b)) =
        Proofs.objects σ live := by
      rw [Proofs.objects, List.map_map]
      exact List.map_congr_left fun p hp => (L.moved_preserved F hb hp).objectAt
    refine ⟨.attached A F hb hr h0, ?_⟩
    simp only [Moment.objects, hsame]
    exact .kept

/-- A block that nothing is about goes on where the image is. -/
theorem Happens.preserved (H : Happens d M N) (A : M.Alive) (hp : p ∈ M.live)
    (ht : ∀ k, d.target = some k → M.live[k]? ≠ some p) :
    rebase M.base N.base p ∈ N.live ∧ Preserved M.state N.state p (rebase M.base N.base p) ∧
      rebase M.base N.base p + M.base = p + N.base := by
  obtain ⟨base, cap, ms, σ, live⟩ := M
  have R : Life base cap ms σ live := A
  obtain ⟨rfl, h, L⟩ := life_living R
  cases H with
  | @served _ q v live' τ hq hr =>
    simp only [rebase_self]
    obtain ⟨h', A'⟩ := wp_ok (L.wp_serve (D := fun _ => True) hq) hr
    obtain ⟨j, hj⟩ := List.mem_iff_getElem?.mp hp
    rw [demand_target] at ht
    obtain ⟨hm, P⟩ := A'.preserved L hj fun he => ht j he hj
    exact ⟨hm, P, trivial⟩
  | grown F h8 hr =>
    simp only [rebase_self]
    obtain ⟨L', hf⟩ := wp_ok (L.wp_incSize (D := fun _ => True) F h8) hr
    exact ⟨hp, L.grown_preserved L' hf hp, trivial⟩
  | @attached _ b ms' locked τ υ F hb hr h0 =>
    obtain ⟨_, rfl, _⟩ := L.reattached F hb hr h0
    refine ⟨List.mem_map_of_mem hp, L.moved_preserved F hb hp, ?_⟩
    obtain ⟨⟨a, s⟩, he, rfl⟩ := List.mem_map.mp (L.held.blocks.mem_iff.mp hp)
    have hc := L.held.ok.core.chunk_bounds (mem_live.mp he)
    simp only [blockOf] at hc ⊢
    unfold rebase
    split <;> omega

/-- Every run of an image is a run of a store of objects: whatever requests are served, however
the file grows and wherever it is mapped meanwhile, the objects become what was asked of them.
So objects that nothing is asked about stay. -/
theorem life_refines (A : M.Alive) (H : HappenAll ds M N) :
    N.Alive ∧ BecomesAll (.known 0) ds M.objects N.objects ∧
      ((∀ d ∈ ds, d.target = none) → M.objects <:+ N.objects) := by
  have hrun : N.Alive ∧ BecomesAll (.known 0) ds M.objects N.objects := by
    induction H with
    | nil => exact ⟨A, .nil⟩
    | cons h _ ih =>
      obtain ⟨A', B⟩ := h.becomes A
      obtain ⟨A'', Bs⟩ := ih A'
      exact ⟨A'', .cons B Bs⟩
  exact ⟨hrun.1, hrun.2, hrun.2.suffix⟩

/-- What happens to the sample: two blocks are given, one is written to, and the other is taken
back. -/
theorem sample_happens : ∃ σ σ₁ υ ω τ, Moment.Alive ⟨4096, 65536, 4160, σ, [5408]⟩ ∧
    Happens (.allocate 100 false) ⟨4096, 65536, 4160, σ, [5408]⟩
      ⟨4096, 65536, 4160, σ₁, [5184, 5408]⟩ ∧
    Happens (.allocate 77 true) ⟨4096, 65536, 4160, σ₁, [5184, 5408]⟩
      ⟨4096, 65536, 4160, υ, [5096, 5184, 5408]⟩ ∧
    Happens (.write 1 3 (.known 7)) ⟨4096, 65536, 4160, υ, [5096, 5184, 5408]⟩
      ⟨4096, 65536, 4160, ω, [5096, 5184, 5408]⟩ ∧
    Happens (.release 0) ⟨4096, 65536, 4160, ω, [5096, 5184, 5408]⟩
      ⟨4096, 65536, 4160, τ, [5184, 5408]⟩ := by
  have hrun : result (sample >>= fun live => do
      let r₁ ← serve 4160 live (.memalign 64 100)
      let r₂ ← serve 4160 r₁.2 (.calloc 7 11)
      let r₃ ← serve 4160 r₂.2 (.call (.write 1 3 7))
      let r₄ ← serve 4160 r₃.2 (.call (.free 0))
      return (r₁, r₂, r₃, r₄)) zeroed = some ((5184, [5184, 5408]), (5096, [5096, 5184, 5408]),
        (0, [5096, 5184, 5408]), 0, [5184, 5408]) := by
    decide +kernel
  obtain ⟨σ, _, R, hr⟩ := sample_then hrun
  obtain ⟨r₁, σ₁, h₁, hr⟩ := bind_ok hr
  obtain ⟨r₂, υ, h₂, hr⟩ := bind_ok hr
  obtain ⟨r₃, ω, h₃, hr⟩ := bind_ok hr
  obtain ⟨r₄, τ, h₄, hpure⟩ := bind_ok hr
  cases hpure
  have hfair : (Request.memalign 64 100).Fair := show 64 ≤ 2 ^ 63 by decide
  exact ⟨σ, σ₁, υ, ω, _, R, .served hfair h₁, .served (q := .calloc 7 11) trivial h₂,
    .served (q := .call (.write 1 3 7)) trivial h₃, .served (q := .call (.free 0)) trivial h₄⟩

theorem life_refines_sample : ∃ σ υ τ,
    HappenAll [.allocate 100 false, .allocate 77 true] ⟨4096, 65536, 4160, σ, [5408]⟩
      ⟨4096, 65536, 4160, υ, [5096, 5184, 5408]⟩ ∧
    BecomesAll (.known 0) [.allocate 100 false, .allocate 77 true] (objects σ [5408])
      (objects υ [5096, 5184, 5408]) ∧
    objects σ [5408] <:+ objects υ [5096, 5184, 5408] ∧
    HappenAll [.write 1 3 (.known 7), .release 0] ⟨4096, 65536, 4160, υ, [5096, 5184, 5408]⟩
      ⟨4096, 65536, 4160, τ, [5184, 5408]⟩ ∧
    BecomesAll (.known 0) [.write 1 3 (.known 7), .release 0] (objects υ [5096, 5184, 5408])
      (objects τ [5184, 5408]) := by
  obtain ⟨σ, _, υ, _, τ, A, H₁, H₂, H₃, H₄⟩ := sample_happens
  have Hs := HappenAll.cons H₁ (.cons H₂ .nil)
  have Hs' := HappenAll.cons H₃ (.cons H₄ .nil)
  obtain ⟨A', B, hsuffix⟩ := life_refines A Hs
  obtain ⟨_, B', _⟩ := life_refines A' Hs'
  refine ⟨σ, υ, τ, Hs, B, hsuffix fun d hd => ?_, Hs', B'⟩
  simp only [List.mem_cons, List.not_mem_nil, or_false] at hd
  obtain rfl | rfl := hd
  · rfl
  · rfl

/-- A block survives all that is not about it, at its place in the image and with its bytes. -/
theorem block_survives (A : M.Alive) (hp : p ∈ M.live) (S : Spares M p N q) :
    N.Alive ∧ q ∈ N.live ∧ Preserved M.state N.state p q ∧ q + M.base = p + N.base := by
  induction S with
  | here => exact ⟨A, hp, ⟨rfl, fun _ _ => rfl⟩, rfl⟩
  | step _ H ht ih =>
    obtain ⟨A', hq, P, hplace⟩ := ih
    obtain ⟨A'', _⟩ := H.becomes A'
    obtain ⟨hm, P', hplace'⟩ := H.preserved A' hq ht
    exact ⟨A'', hm, P.trans P', by omega⟩

theorem block_survives_sample : ∃ σ τ,
    Spares ⟨4096, 65536, 4160, σ, [5408]⟩ 5408 ⟨4096, 65536, 4160, τ, [5184, 5408]⟩ 5408 ∧
    5408 ∈ [5184, 5408] ∧ Preserved σ τ 5408 5408 := by
  obtain ⟨σ, σ₁, υ, ω, τ, A, H₁, H₂, H₃, H₄⟩ := sample_happens
  have S₁ := Spares.step (p := 5408) .here H₁ fun k hk => by contradiction
  rw [rebase_self] at S₁
  have S₂ := S₁.step H₂ fun k hk => by contradiction
  rw [rebase_self] at S₂
  have S₃ := S₂.step H₃ fun k hk => by
    cases hk
    exact show [5096, 5184, 5408][1]? ≠ some 5408 by decide
  rw [rebase_self] at S₃
  have S₄ := S₃.step H₄ fun k hk => by
    cases hk
    exact show [5096, 5184, 5408][0]? ≠ some 5408 by decide
  rw [rebase_self] at S₄
  obtain ⟨_, hm, P, _⟩ := block_survives A List.mem_cons_self S₄
  exact ⟨σ, τ, S₄, hm, P⟩

end

end Mmdata.Proofs
