import Mmdata.Proofs.Twins

namespace Mmdata.Proofs
open Lib Malloc Relocation

/-- Memory for an image behind its `Meta` page: aligned to 8 bytes and mapped. What it holds
does not matter. -/
structure Placed (σ : State) (base cap : Nat) : Prop where
  behind : 4096 ≤ base
  align : base % 8 = 0
  alignSize : cap % 8 = 0
  page : ∃ k, 3 ≤ k ∧ k < 64 ∧ σ.glob.pageSize = 2 ^ k
  word : base + cap ≤ 2 ^ 64
  mapped : ∃ r ∈ σ.maps, r.1 ≤ base ∧ base + cap ≤ r.2

/-- The images that calls produce. -/
inductive Built (base cap ms : Nat) : State → List Nat → Prop
  | created {σ τ : State} {locked : Nat} : Placed σ base cap →
      createMspaceWithBase base cap locked 1 σ = .ok (ms, τ) → ms ≠ 0 → Built base cap ms τ []
  | step {σ τ : State} {live live' : List Nat} {c : Call} {v : Nat} : Built base cap ms σ live →
      perform ms live c σ = .ok ((v, live'), τ) → Built base cap ms τ live'

/-- The bytes of the image at `a` in one process are those of the image at `b` in the other. -/
def SameBytes (a b cap : Nat) (σ τ : State) : Prop :=
  ∀ i < cap, τ.byte (b + i) = σ.byte (a + i)

/-- A process that maps the same bytes elsewhere, whatever else it maps and did before. -/
structure Copy (a b cap : Nat) (σ τ : State) : Prop where
  behind : 4096 ≤ b
  congr : a % σ.glob.pageSize = b % σ.glob.pageSize
  page : τ.glob.pageSize = σ.glob.pageSize
  word : b + cap ≤ 2 ^ 64
  mapped : ∃ r ∈ τ.maps, r.1 ≤ b ∧ b + cap ≤ r.2
  bytes : SameBytes a b cap σ τ

/-- The process at `b` has the parameters of its image, or the call does not make top exceed
the trim threshold. -/
def ParamsThere (b ms : Nat) (σ τ : State) (live : List Nat) (c : Call) : Prop :=
  τ.glob.pmparams = b ∨ ¬ Trims σ ms live c

/-- An image goes on being used at `a` and at `b`: it was copied, or created at both from the
same contents. -/
inductive Continued (a b cap ms : Nat) : State → State → List Nat → Prop
  | copied {σ τ : State} {live : List Nat} : Built a cap ms σ live → Copy a b cap σ τ →
      Continued a b cap ms σ τ live
  | created {σ τ σ' τ' : State} {locked ms' : Nat} : Placed σ a cap → Copy a b cap σ τ →
      createMspaceWithBase a cap locked 1 σ = .ok (ms, σ') → ms ≠ 0 →
      createMspaceWithBase b cap locked 1 τ = .ok (ms', τ') → Continued a b cap ms σ' τ' []
  | step {σ τ σ' τ' : State} {live live' : List Nat} {c : Call} {v : Nat}
      {r : Nat × List Nat} : Continued a b cap ms σ τ live →
      ParamsThere b ms σ τ live c → perform ms live c σ = .ok ((v, live'), σ') →
      perform (rebase a b ms) (live.map (rebase a b)) c τ = .ok (r, τ') →
      Continued a b cap ms σ' τ' live'

section

variable {C C' : Copying} {a b cap ms locked base : Nat} {σ τ σ' τ' V : State} {live : List Nat}
  {c : Call}

/-- Two runs that have the image at `a` and at `b`. -/
structure Both (a b cap ms : Nat) (live : List Nat) (σ τ : State) : Prop where
  behind : 4096 ≤ a
  page : ∃ k, 3 ≤ k ∧ k < 64 ∧ σ.glob.pageSize = 2 ^ k
  mspace : ms = a + 64
  params : σ.glob.pmparams = a
  twin : ∃ C C' : Copying, C.src = a ∧ C.dst = a ∧ C.size = cap ∧ C'.dst = b ∧
    Twin C C' a cap live σ τ

theorem Both.bytes (B : Both a b cap ms live σ τ) : SameBytes a b cap σ τ := by
  obtain ⟨C, C', rfl, hdst, rfl, rfl, T⟩ := B.twin
  obtain ⟨V, h, S, S', _⟩ := T.shared
  intro i hi
  have hσ := S.bytes i hi
  have hτ := S'.bytes i (T.size ▸ hi)
  rw [hdst] at hσ
  rw [T.src] at hτ
  exact hτ.symm.trans hσ

theorem Copy.align (hC : Copy a b cap σ τ)
    (hP : ∃ k, 3 ≤ k ∧ k < 64 ∧ σ.glob.pageSize = 2 ^ k) : a % 8 = b % 8 := by
  obtain ⟨k, hk, _, hpage⟩ := hP
  have h8 : 8 ∣ σ.glob.pageSize := hpage ▸ Nat.pow_dvd_pow 2 hk
  rw [← Nat.mod_mod_of_dvd a h8, hC.congr, Nat.mod_mod_of_dvd b h8]

theorem Placed.copy (hP : Placed σ base cap) : Copy base base cap σ σ :=
  ⟨hP.behind, rfl, rfl, hP.word, hP.mapped, fun _ _ => rfl⟩

/-- Created at `a`, the mspace is created at `b` too. -/
theorem created_both (hP : Placed σ a cap) (hC : Copy a b cap σ τ) (h0 : ms ≠ 0)
    (hr : createMspaceWithBase a cap locked 1 σ = .ok (ms, σ')) :
    ∃ τ', createMspaceWithBase b cap locked 1 τ = .ok (rebase a b ms, τ') ∧
      Both a b cap ms [] σ' τ' := by
  have ha := hP.behind
  have hb := hC.behind
  let C : Copying := ⟨a, a, cap, σ.glob.pageSize, by omega, by omega, hP.word, hP.word, rfl⟩
  let C' : Copying := ⟨a, b, cap, σ.glob.pageSize, by omega, by omega, hP.word, hC.word, hC.align hP.page⟩
  have S : Copied C (confine σ a cap) σ := ⟨rfl, hP.mapped, fun _ _ => rfl, rfl, rfl⟩
  have S' : Copied C' (confine σ a cap) τ :=
    ⟨rfl, hC.mapped, fun i hi => (hC.bytes i hi).symm, rfl, hC.page⟩
  have hlarge := capacity_large hr h0
  obtain ⟨k, hk3, hk, hpage⟩ := hP.page
  have B : Buffer Leftover (aimed (confine σ a cap) 0) a cap :=
    page_buffer (fun _ he => he) hk hpage hP.align hP.alignSize hlarge hP.word
      ⟨_, List.mem_cons_self, Nat.le_refl _, Nat.le_refl _⟩
  have hrun : wp Leftover (createMspaceWithBase a cap locked 1) (fun m V => m ≠ 0 →
      m = a + 64 ∧ V.glob = ⟨a, σ.glob.pageSize⟩ ∧ ∃ h, Held V a cap [] h)
      (aimed (confine σ a cap) 0) := by
    apply B.wp_createMspaceWithBase (by decide)
    · intro _ _ _ hne
      exact absurd rfl hne
    · intro V O hown _ _ hf _
      exact ⟨rfl, hf.glob, _, O, List.Perm.refl _, hown⟩
  have hA : ∀ D : Copying, D.src = a → D.relocation.Alike (createMspaceWithBase a cap locked 1)
      (createMspaceWithBase (D.place a) cap locked 1) D.relocation.Points := fun D hD =>
    alike_createMspaceWithBase copying_params copying_aims (copying_moves (Nat.le_of_eq hD))
  have hplace : C.place = rebase a a := rfl
  have hplace' : C'.place = rebase a b := rfl
  cases hV : createMspaceWithBase a cap locked 1 (aimed (confine σ a cap) 0) with
  | error e =>
    have hstop := S.stop (hA C rfl) (Or.inl rfl) (wp_error hrun hV) hV
    rw [place_same rfl, hr] at hstop
    contradiction
  | ok p =>
    obtain ⟨m, V⟩ := p
    obtain ⟨m₁, σ₁, hσ, hm, Sσ, _, hpm⟩ := S.run (hA C rfl) (Or.inl rfl) hV
    rw [place_same rfl, hr] at hσ
    cases hσ
    have hne : m ≠ 0 := fun hz => h0 (hm.zero_iff.mp hz)
    obtain ⟨rfl, hglob, h, H⟩ := wp_ok hrun hV hne
    have hbase : V.glob.pmparams = a := by
      rw [hglob]
    obtain ⟨m₂, τ', hτ, hm', Sτ, _, _⟩ := S'.run (hA C' rfl) (Or.inl rfl) hV
    have hms := moves_place (hm.moves hne)
    rw [place_same rfl] at hms
    subst hms
    have hms' := moves_place (hm'.moves hne)
    subst hms'
    have hba : C'.place a = b := by
      rw [hplace', rebase, if_neg (by omega)]
      omega
    rw [hba] at hτ
    refine ⟨τ', hτ, ha, ⟨k, hk3, hk, ?_⟩, rfl, ?_, C, C', rfl, rfl, rfl, rfl, rfl, rfl,
      Nat.le_refl _, Nat.le_refl _, V, h, Sσ, Sτ, H⟩
    · exact Sσ.page.2.trans hpage
    · rw [hpm (Nat.le_of_eq hbase.symm), hbase, place_same rfl]

/-- A call at both. -/
theorem Both.call (B : Both a b cap ms live σ τ) (hp : ParamsThere b ms σ τ live c) :
    (∃ r σ' τ', perform ms live c σ = .ok (r, σ') ∧
        perform (rebase a b ms) (live.map (rebase a b)) c τ =
          .ok ((rebase a b r.1, r.2.map (rebase a b)), τ') ∧
        (r.1 = 0 ∨ a ≤ r.1) ∧ Both a b cap ms r.2 σ' τ') ∨
      ∃ e, perform ms live c σ = .error e ∧
        perform (rebase a b ms) (live.map (rebase a b)) c τ = .error e := by
  obtain ⟨hbehind, hpage, rfl, hpm, C, C', hsrc, hdst, hsize, hdst', T⟩ := B
  have hplace : C'.place = rebase a b := by
    unfold Copying.place
    rw [T.src, hsrc, hdst']
  have hbase : C'.place a = b := by
    have hlow := C.low
    rw [hplace, rebase, if_neg (by omega)]
    omega
  have hC := hdst.trans hsrc.symm
  have hτ : τ.glob.pmparams = C'.place a ∨ ∀ V h, Copied C V σ → Copied C' V τ →
      Held V a cap live h → ¬ CallTrims V (a + 64) h live c := by
    cases hp with
    | inl hp => exact Or.inl (hp.trans hbase.symm)
    | inr hp => exact Or.inr fun V h S _ H hcall => hp (S.trims hC (by omega) H hcall)
  cases T.call hC hpm hτ with
  | inl hok =>
    obtain ⟨r, σ', r', τ', hσ, hrτ, G⟩ := hok
    rw [hplace] at hrτ
    rw [G.result, hplace] at hrτ
    have hglob := G.frame.glob
    exact Or.inl ⟨r, σ', τ', hσ, hrτ, hsrc ▸ G.offset, hbehind, hglob ▸ hpage, rfl,
      hglob ▸ hpm, C, C', hsrc, hdst, hsize, hdst', G.twin⟩
  | inr hstop =>
    obtain ⟨e, hσ, hrτ⟩ := hstop
    rw [hplace] at hrτ
    exact Or.inr ⟨e, hσ, hrτ⟩

/-- An image built is followed by itself. -/
theorem Built.both (R : Built base cap ms σ live) : Both base base cap ms live σ σ := by
  have hlive : ∀ l : List Nat, l.map (rebase base base) = l := by
    intro l
    have hid : rebase base base = id := by
      funext v
      unfold rebase
      split
      · exact Eq.symm ‹v = 0›
      · exact Nat.add_sub_cancel v base
    rw [hid, List.map_id]
  have hsame : ∀ v, rebase base base v = v := by
    intro v
    exact List.singleton_inj.mp (hlive [v])
  induction R with
  | created hP hr h0 =>
    obtain ⟨τ', hτ, B⟩ := created_both hP hP.copy h0 hr
    rw [hr, hsame] at hτ
    cases hτ
    exact B
  | @step σ _ live _ c _ _ hr ih =>
    have hp : ParamsThere base ms σ σ live c := Or.inl ih.params
    have hstep := ih.call hp
    rw [hlive, hsame, hr] at hstep
    cases hstep with
    | inl hok =>
      obtain ⟨r, σ', τ', hσ, hτ, _, B⟩ := hok
      cases hσ
      rw [hlive, hsame] at hτ
      cases hτ
      exact B
    | inr hstop =>
      obtain ⟨e, he, _⟩ := hstop
      contradiction

/-- An image that has been copied has the same bytes there. -/
theorem Both.copy (B : Both a a cap ms live σ σ) (hC : Copy a b cap σ τ) :
    Both a b cap ms live σ τ := by
  obtain ⟨ha, hpage, hms, hpm, C, _, rfl, hdst, rfl, _, T⟩ := B
  obtain ⟨V, h, S, _, H⟩ := T.shared
  have hb := hC.behind
  let C' : Copying := ⟨C.src, b, C.size, C.page, C.low, by omega, C.srcWord, hC.word, hC.align hpage⟩
  refine ⟨ha, hpage, hms, hpm, C, C', rfl, hdst, rfl, rfl, rfl, rfl, T.low, T.high, V, h, S,
    ⟨S.only, hC.mapped, ?_, S.page.1, hC.page.trans S.page.2⟩, H⟩
  intro i hi
  have hσ := S.bytes i hi
  rw [hdst] at hσ
  exact hσ.trans (hC.bytes i hi).symm

theorem continued_both (R : Continued a b cap ms σ τ live) : Both a b cap ms live σ τ := by
  induction R with
  | copied R hC => exact R.both.copy hC
  | created hP hC hr h0 hr' =>
    obtain ⟨_, hτ, B⟩ := created_both hP hC h0 hr
    rw [hr'] at hτ
    cases hτ
    exact B
  | step _ hp hr hr' ih =>
    cases ih.call hp with
    | inl hok =>
      obtain ⟨_, _, _, hσ, hτ, _, B⟩ := hok
      rw [hr] at hσ
      rw [hr'] at hτ
      cases hσ
      cases hτ
      exact B
    | inr hstop =>
      obtain ⟨_, he, _⟩ := hstop
      rw [hr] at he
      contradiction

/-- The image has the same bytes at both, and every call that meets the condition returns the
same offsets at both, or stops at both over the granularity that the buffer brought along. -/
theorem image_relocates (R : Continued a b cap ms σ τ live) : SameBytes a b cap σ τ ∧
    ∀ c, ParamsThere b ms σ τ live c →
      (∃ v live' σ' τ', perform ms live c σ = .ok ((v, live'), σ') ∧
          perform (rebase a b ms) (live.map (rebase a b)) c τ =
            .ok ((rebase a b v, live'.map (rebase a b)), τ') ∧
          (v = 0 ∨ a ≤ v) ∧ SameBytes a b cap σ' τ') ∨
        ∃ e, perform ms live c σ = .error e ∧
          perform (rebase a b ms) (live.map (rebase a b)) c τ = .error e := by
  have B := continued_both R
  refine ⟨B.bytes, fun c hp => ?_⟩
  cases B.call hp with
  | inl hok =>
    obtain ⟨⟨v, live'⟩, σ', τ', hσ, hτ, hv, B'⟩ := hok
    exact Or.inl ⟨v, live', σ', τ', hσ, hτ, hv, B'.bytes⟩
  | inr hstop => exact Or.inr hstop

/-- A process that has just been started: its own parameters are zero, and a copy of the image
is mapped. -/
def reader (a b cap : Nat) (σ : State) : State where
  byte x := if x < b then .known 0 else σ.byte (x - b + a)
  maps := [(4096, 8192), (b, b + cap)]
  glob := ⟨4096, 4096⟩

theorem reader_copy (hb : 4096 ≤ b) (hw : b + cap ≤ 2 ^ 64) (hpage : σ.glob.pageSize = 4096)
    (hab : a % 4096 = b % 4096) : Copy a b cap σ (reader a b cap σ) := by
  refine ⟨hb, hpage ▸ hab, hpage.symm, hw, ⟨(b, b + cap), ?_, Nat.le_refl _, Nat.le_refl _⟩, ?_⟩
  · exact List.mem_cons_of_mem _ List.mem_cons_self
  · intro i _
    show (if b + i < b then Cell.known 0 else σ.byte (b + i - b + a)) = σ.byte (a + i)
    rw [if_neg (by omega), show b + i - b + a = a + i by omega]

/-- A process with one buffer of 4 MiB. -/
def roomy : State := ⟨fun _ => .known 0, [(2 ^ 22, 2 ^ 23)], ⟨0, 4096⟩⟩

theorem roomy_placed : Placed roomy (2 ^ 22) (2 ^ 22) :=
  ⟨by decide, by decide, by decide, ⟨12, by decide, by decide, rfl⟩, by decide,
    (2 ^ 22, 2 ^ 23), List.mem_cons_self, by decide, by decide⟩

/-- The process becomes another. -/
def become (f : State → State) : Code Unit := fun σ => .ok ((), f σ)

set_option maxRecDepth 100000 in
/-- An image with one block. A process that has just mapped a copy divides by zero when it
frees the block. -/
theorem roomy_built : ∃ σ, Built (2 ^ 22) (2 ^ 22) 4194368 σ [4195304] ∧
    Copy (2 ^ 22) (2 ^ 23) (2 ^ 22) σ (reader (2 ^ 22) (2 ^ 23) (2 ^ 22) σ) ∧
    result (perform 4194368 [4195304] (.free 0)) σ = some (0, []) ∧
    result (perform 8388672 [8389608] (.free 0))
      (reader (2 ^ 22) (2 ^ 23) (2 ^ 22) σ) = none := by
  have hrun : result (do
      let ms ← createMspaceWithBase (2 ^ 22) (2 ^ 22) 0 1
      let r ← perform ms [] (.malloc 100)
      let g ← globals
      let f ← perform ms r.2 (.free 0)
      return (ms, r, g.pageSize, f)) roomy = some (4194368, (4195304, [4195304]), 4096, (0, [])) := by
    decide +kernel
  have hstop : result (do
      let ms ← createMspaceWithBase (2 ^ 22) (2 ^ 22) 0 1
      let r ← perform ms [] (.malloc 100)
      become (reader (2 ^ 22) (2 ^ 23) (2 ^ 22))
      perform 8388672 [8389608] (.free 0)) roomy = none := by
    decide +kernel
  obtain ⟨τ, hτ⟩ := result_ok hrun
  obtain ⟨ms, σ₀, hms, hrest⟩ := bind_ok hτ
  obtain ⟨r, σ, hr, hrest⟩ := bind_ok hrest
  obtain ⟨g, σ₁, hg, hrest⟩ := bind_ok hrest
  obtain ⟨f, σ₂, hf, hpure⟩ := bind_ok hrest
  cases hg
  obtain ⟨hout, rfl⟩ := Prod.mk.inj (Except.ok.inj hpure)
  obtain ⟨rfl, rfl, hpage, rfl⟩ : ms = 4194368 ∧ r = (4195304, [4195304]) ∧
      σ.glob.pageSize = 4096 ∧ f = (0, []) := by
    simpa only [Prod.mk.injEq] using hout
  rw [result_bind hms, result_bind hr] at hstop
  refine ⟨σ, .step (.created roomy_placed hms (by decide)) hr, ?_, ?_, hstop⟩
  · exact reader_copy (by decide) (by decide) hpage (by decide)
  · simp only [result, hf]

/-- The block is freed where the image was built, and the process that maps the copy divides
by zero. -/
theorem copy_divides : ∃ ms σ live, Built (2 ^ 22) (2 ^ 22) ms σ live ∧
    Copy (2 ^ 22) (2 ^ 23) (2 ^ 22) σ (reader (2 ^ 22) (2 ^ 23) (2 ^ 22) σ) ∧
    result (perform ms live (.free 0)) σ = some (0, []) ∧
    result (perform (rebase (2 ^ 22) (2 ^ 23) ms) (live.map (rebase (2 ^ 22) (2 ^ 23))) (.free 0))
      (reader (2 ^ 22) (2 ^ 23) (2 ^ 22) σ) = none := by
  obtain ⟨σ, R, hC, hσ, hτ⟩ := roomy_built
  exact ⟨4194368, σ, [4195304], R, hC, hσ, hτ⟩

/-- The same block is freed at both addresses where the other process has the parameters of
the copy. -/
theorem image_relocates_block : ∃ σ τ v live' σ' τ', SameBytes (2 ^ 22) (2 ^ 23) (2 ^ 22) σ τ ∧
    perform 4194368 [4195304] (.free 0) σ = .ok ((v, live'), σ') ∧
    perform 8388672 [8389608] (.free 0) τ =
      .ok ((rebase (2 ^ 22) (2 ^ 23) v, live'.map (rebase (2 ^ 22) (2 ^ 23))), τ') ∧
    SameBytes (2 ^ 22) (2 ^ 23) (2 ^ 22) σ' τ' := by
  obtain ⟨σ, R, hC, hσ, _⟩ := roomy_built
  have hC' : Copy (2 ^ 22) (2 ^ 23) (2 ^ 22) σ
      (aimed (reader (2 ^ 22) (2 ^ 23) (2 ^ 22) σ) (2 ^ 23)) :=
    ⟨hC.behind, hC.congr, hC.page, hC.word, hC.mapped, hC.bytes⟩
  obtain ⟨hsame, hcall⟩ := image_relocates (.copied R hC')
  obtain ⟨σ₁, hσ⟩ := result_ok hσ
  cases hcall (.free 0) (Or.inl rfl) with
  | inl hok =>
    obtain ⟨v, live', σ', τ', h1, h2, _, h4⟩ := hok
    exact ⟨σ, _, v, live', σ', τ', hsame, h1, h2, h4⟩
  | inr hstop =>
    obtain ⟨e, he, _⟩ := hstop
    rw [hσ] at he
    contradiction

end

end Mmdata.Proofs
