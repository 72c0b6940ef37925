import Mmdata.Proofs.Common

namespace Mmdata.Proofs
open Lib Malloc

/-- `malloc_params`. -/
structure Params where
  magic : Nat
  pageSize : Nat
  granularity : Nat
  mmapThreshold : Nat
  trimThreshold : Nat
  defaultMflags : Nat
deriving DecidableEq

/-- The fields: where each is, how many bytes it has, and its value. -/
def Params.fields (P : Params) : List (Nat × Nat × Nat) :=
  [(0, 8, P.magic), (8, 8, P.pageSize), (16, 8, P.granularity), (24, 8, P.mmapThreshold),
    (32, 8, P.trimThreshold), (40, 4, P.defaultMflags)]

/-- The parameters at `base`. -/
def ParamsAt (σ : State) (base : Nat) (P : Params) : Prop :=
  ∀ f ∈ P.fields, σ.get f.2.1 (base + f.1) = some f.2.2

def defaultParams (magic pageSize : Nat) : Params :=
  ⟨magic, pageSize, defaultGranularity, defaultMmapThreshold, defaultTrimThreshold, defaultFlags⟩

/-- The parameters that a buffer brings along, if it has a page size, or else the defaults, with
the magic number that it brings along. -/
inductive Brings (σ : State) (base : Nat) : Params → Prop
  | own {P : Params} : ParamsAt σ base P → P.pageSize ≠ 0 → Brings σ base P
  | none {v : Nat} : σ.get 8 (paramPageSize base) = some 0 → σ.get 8 (paramMagic base) = some v →
      Brings σ base (defaultParams (if v = 0 then 0x58585858 else v) σ.glob.pageSize)

/-- What `create_mspace_with_base` does once the parameters are set. -/
def createSettled (base capacity locked : Nat) : Code Nat := do
  if capacity > mstateSize + topFootSize then do
    let pageSize ← load 8 (paramPageSize (← globals).pmparams)
    if capacity < subSize 0 (addSize (mstateSize + topFootSize) pageSize) then do
      let m ← initUserMstate (base + mallocParamsSize) capacity 1
      if (1 : Nat) = 0 then return m
      store 4 (segFlags (seg m)) externBit
      update 4 (mflags m) fun w => if locked ≠ 0 then w ||| 0 else clearBits w 0
      return m
    else return 0
  else return 0

section

variable {σ τ υ : State} {base cap locked v n a : Nat} {P : Params}

theorem fields_within {f : Nat × Nat × Nat} (h : f ∈ P.fields) : f.1 + f.2.1 ≤ 48 := by
  simp only [Params.fields, List.mem_cons, List.not_mem_nil, or_false] at h
  rcases h with rfl | rfl | rfl | rfl | rfl | rfl <;> simp

theorem ParamsAt.magic (hP : ParamsAt σ base P) : σ.get 8 base = some P.magic :=
  hP (0, 8, P.magic) (by simp [Params.fields])

theorem ParamsAt.page (hP : ParamsAt σ base P) : σ.get 8 (base + 8) = some P.pageSize :=
  hP (8, 8, P.pageSize) (by simp [Params.fields])

theorem ParamsAt.granularity (hP : ParamsAt σ base P) : σ.get 8 (base + 16) = some P.granularity :=
  hP (16, 8, P.granularity) (by simp [Params.fields])

theorem ParamsAt.shows (hP : ParamsAt σ base P) (S : Shows σ τ) : ParamsAt τ base P :=
  fun f hf => S.get (hP f hf)

theorem ParamsAt.frame {W : Nat → Prop} (hP : ParamsAt σ base P) (hf : Frame W σ τ)
    (hW : ∀ b, base ≤ b → b < base + 48 → ¬ W b) : ParamsAt τ base P := by
  intro f hm
  have hin := fields_within hm
  rw [hf.get fun b h1 h2 => hW b (by omega) (by omega)]
  exact hP f hm

/-- The parameters are stored, in the order of `init_mparams`. -/
def putParams (σ : State) (base : Nat) (P : Params) : State :=
  (((((σ.put 8 (paramMmapThreshold base) P.mmapThreshold).put 8 (paramTrimThreshold base)
    P.trimThreshold).put 4 (paramDefaultMflags base) P.defaultMflags).put 8 (paramMagic base)
    P.magic).put 8 (paramPageSize base) P.pageSize).put 8 (paramGranularity base) P.granularity

theorem putParams_frame : Frame (Within base (base + 48)) σ (putParams σ base P) := by
  have hin : ∀ {τ : State} {n a v : Nat}, Frame (Within base (base + 48)) σ τ → base ≤ a →
      a + n ≤ base + 48 → Frame (Within base (base + 48)) σ (τ.put n a v) :=
    fun hf h1 h2 => hf.put fun b h3 h4 => ⟨by omega, by omega⟩
  unfold putParams
  simp only [paramMagic, paramPageSize, paramGranularity, paramMmapThreshold, paramTrimThreshold,
    paramDefaultMflags]
  refine hin (hin (hin (hin (hin (hin (Frame.refl _ σ) ?_ ?_) ?_ ?_) ?_ ?_) ?_ ?_) ?_ ?_) ?_ ?_
  all_goals omega

theorem putParams_at (hmap : ∀ a n, base ≤ a → a + n ≤ base + 48 → σ.mapped a n = true)
    (h1 : P.magic < 2 ^ 64) (h2 : P.pageSize < 2 ^ 64) (h3 : P.granularity < 2 ^ 64)
    (h4 : P.mmapThreshold < 2 ^ 64) (h5 : P.trimThreshold < 2 ^ 64)
    (h6 : P.defaultMflags < 2 ^ 32) : ParamsAt (putParams σ base P) base P := by
  have hself : ∀ {τ : State} {n a v : Nat}, τ.maps = σ.maps → base ≤ a → a + n ≤ base + 48 →
      v < 256 ^ n → (τ.put n a v).get n a = some v := by
    intro τ n a v hτ ha hn hv
    refine Machine.get_put_same ?_ hv
    rw [Machine.mapped_congr hτ]
    exact hmap a n ha hn
  intro f hf
  simp only [Params.fields, List.mem_cons, List.not_mem_nil, or_false] at hf
  unfold putParams
  simp only [paramMagic, paramPageSize, paramGranularity, paramMmapThreshold, paramTrimThreshold,
    paramDefaultMflags]
  rcases hf with rfl | rfl | rfl | rfl | rfl | rfl
  case inr.inr.inl => exact hself rfl (by omega) (by omega) h3
  all_goals
    simp (disch := omega) only [Machine.get_put_ne]
    exact hself rfl (by omega) (by omega) (by omega)

theorem create_of_init {u : Unit} (hm : (aimed σ base).get 8 (paramMagic base) = some v)
    (hi : initMparams (aimed σ base) = .ok (u, υ)) :
    createMspaceWithBase base cap locked 1 σ = createSettled base cap locked υ := by
  have hload : load 8 (paramMagic base) (aimed σ base) = .ok (v, aimed σ base) := by
    have h : wp (fun _ => False) (load 8 (paramMagic base)) (fun w τ => w = v ∧ τ = aimed σ base)
        (aimed σ base) := (wp_load hm).mpr ⟨rfl, rfl⟩
    obtain ⟨_, _, hr, rfl, rfl⟩ := ok_of_wp h
    exact hr
  unfold createMspaceWithBase
  refine (bind_of_ok (show globals σ = .ok (σ.glob, σ) from rfl)).trans ?_
  refine (bind_of_ok (show setGlobals { σ.glob with pmparams := base } σ =
    .ok ((), aimed σ base) from rfl)).trans ?_
  refine (bind_of_ok hload).trans ?_
  have hfirst : (if v ≠ 0 ∧ (1 : Nat) = 0 then 0 else 1) = 1 :=
    if_neg (fun hc => absurd hc.2 (by decide))
  simp only [hfirst]
  rw [if_pos (by decide)]
  exact bind_of_ok hi

/-- Parameters with a page size stay. -/
theorem init_kept (hpm : σ.glob.pmparams = base) (hp : σ.get 8 (paramPageSize base) = some v)
    (h0 : v ≠ 0) : initMparams σ = .ok ((), σ) := by
  have h : wp (fun _ => False) initMparams (fun _ τ => τ = σ) σ := by
    unfold initMparams
    rw [wp_bind, wp_globals, wp_bind, hpm, wp_load hp, wp_if_neg h0]
    exact rfl
  obtain ⟨_, _, hr, rfl⟩ := ok_of_wp h
  exact hr

/-- The defaults are set, but for a magic number that is there. -/
theorem init_set (hpm : σ.glob.pmparams = base)
    (hmap : ∀ a n, base ≤ a → a + n ≤ base + 48 → σ.mapped a n = true)
    (hpage : σ.glob.pageSize < 2 ^ 64)
    (hpow : σ.glob.pageSize &&& subSize σ.glob.pageSize 1 = 0)
    (hp : σ.get 8 (paramPageSize base) = some 0) (hv : σ.get 8 (paramMagic base) = some v) :
    ∃ τ, initMparams σ = .ok ((), τ) ∧ Frame (Within base (base + 48)) σ τ ∧
      ParamsAt τ base (defaultParams (if v = 0 then 0x58585858 else v) σ.glob.pageSize) := by
  have hst : ∀ {R : Unit → State → Prop} {τ : State} {n a v : Nat}, τ.maps = σ.maps → base ≤ a →
      a + n ≤ base + 48 → R () (τ.put n a v) → wp (fun _ => False) (store n a v) R τ := by
    intro R τ n a v hτ h1 h2 hR
    rw [wp_store (by rw [Machine.mapped_congr hτ]; exact hmap a n h1 h2)]
    exact hR
  have hlt := Machine.get_lt hv
  have hat : ∀ w, w < 2 ^ 64 → Frame (Within base (base + 48)) σ
        (putParams σ base (defaultParams w σ.glob.pageSize)) ∧
      ParamsAt (putParams σ base (defaultParams w σ.glob.pageSize)) base
        (defaultParams w σ.glob.pageSize) := by
    intro w hw
    obtain ⟨h1, h2, h3, h4⟩ : defaultGranularity < 2 ^ 64 ∧ defaultMmapThreshold < 2 ^ 64 ∧
        defaultTrimThreshold < 2 ^ 64 ∧ defaultFlags < 2 ^ 32 := by decide
    exact ⟨putParams_frame, putParams_at hmap hw hpage h1 h2 h3 h4⟩
  have h : wp (fun _ => False) initMparams (fun _ τ => τ = putParams σ base
      (defaultParams (if v = 0 then 0x58585858 else v) σ.glob.pageSize)) σ := by
    unfold initMparams
    rw [wp_bind, wp_globals, hpm, wp_bind, wp_load hp, wp_if_pos rfl]
    simp only [wp_bind]
    unfold putParams defaultParams
    simp only [paramMagic, paramPageSize, paramGranularity, paramMmapThreshold, paramTrimThreshold,
      paramDefaultMflags] at hv ⊢
    refine hst rfl (by omega) (by omega) (hst rfl (by omega) (by omega)
      (hst rfl (by omega) (by omega) ?_))
    have hv' : (((σ.put 8 (base + 24) defaultMmapThreshold).put 8 (base + 32)
        defaultTrimThreshold).put 4 (base + 40) defaultFlags).get 8 base = some v := by
      simp (disch := omega) only [Machine.get_put_ne]
      exact hv
    rw [wp_load hv']
    by_cases h0 : v = 0
    · rw [wp_if_pos h0, if_pos h0, wp_bind]
      refine hst rfl (by omega) (by omega) ?_
      simp only [wp_bind]
      refine hst rfl (by omega) (by omega) (hst rfl (by omega) (by omega) ?_)
      rw [wp_check (by decide), wp_check (decide_eq_true hpow)]
    · rw [wp_if_neg h0, if_neg h0]
      simp only [wp_bind]
      refine hst rfl (by omega) (by omega) (hst rfl (by omega) (by omega) ?_)
      rw [wp_check (by decide), wp_check (decide_eq_true hpow), Machine.put_self hv']
  obtain ⟨_, τ, hr, rfl⟩ := ok_of_wp h
  refine ⟨_, hr, hat _ ?_⟩
  split
  · decide
  · exact hlt

theorem ParamsAt.ok {D : Trap → Prop} (hP : ParamsAt σ base P) : ParamsOk D σ base := by
  intro e he
  have hget : ∃ v, σ.get e.2 (base + e.1) = some v := by
    simp only [paramWords, List.mem_cons, List.not_mem_nil, or_false] at he
    rcases he with rfl | rfl | rfl | rfl | rfl
    · exact ⟨_, hP.magic⟩
    · exact ⟨_, hP.page⟩
    · exact ⟨_, hP.granularity⟩
    · exact ⟨_, hP (32, 8, P.trimThreshold) (by simp [Params.fields])⟩
    · exact ⟨_, hP (40, 4, P.defaultMflags) (by simp [Params.fields])⟩
  obtain ⟨v, hv⟩ := hget
  refine ⟨Machine.mapped_of_get hv, fun hn => ?_⟩
  rw [hv] at hn
  contradiction

theorem Brings.pageSize (hB : Brings σ base P) (h0 : σ.glob.pageSize ≠ 0) : P.pageSize ≠ 0 := by
  cases hB with
  | own _ h => exact h
  | none _ _ => exact h0

/-- With the parameters set first, creation does what it does without. -/
theorem Brings.settle (hB : Brings σ base P)
    (hmap : ∀ a n, base ≤ a → a + n ≤ base + 48 → σ.mapped a n = true)
    (h0 : σ.glob.pageSize ≠ 0) (hpage : σ.glob.pageSize < 2 ^ 64)
    (hpow : σ.glob.pageSize &&& subSize σ.glob.pageSize 1 = 0) :
    ∃ τ, Frame (Within base (base + 48)) (aimed σ base) τ ∧ ParamsAt τ base P ∧
      ∀ cap locked, createMspaceWithBase base cap locked 1 σ =
        createMspaceWithBase base cap locked 1 τ := by
  cases hB with
  | own hP _ => exact ⟨aimed σ base, Frame.refl _ _, hP, fun _ _ => rfl⟩
  | @none v hp hv =>
    obtain ⟨τ, hr, hf, hP⟩ := @init_set (aimed σ base) base v rfl hmap hpage hpow hp hv
    refine ⟨τ, hf, hP, fun cap locked => ?_⟩
    have haim : aimed τ base = τ := by
      have hg : τ.glob = (aimed σ base).glob := hf.glob
      unfold aimed
      rw [hg]
      exact congrArg (Machine.mk τ.byte τ.maps) hg.symm
    have hτ : initMparams (aimed τ base) = .ok ((), τ) := by
      rw [haim]
      exact init_kept (by rw [hf.glob]; rfl) hP.page h0
    have hmagic := hP.magic
    rw [← haim] at hmagic
    have hσ := @create_of_init σ τ base cap locked v _ hv hr
    exact hσ.trans (create_of_init hmagic hτ).symm

theorem ParamsAt.both (hσ : ParamsAt σ base P) (hτ : ParamsAt τ base P) (hc : 48 ≤ cap) :
    ParamsAt (common σ τ base cap) base P := by
  intro f hf
  have hin := fields_within hf
  exact common_get (hσ f hf) (hτ f hf) (Nat.le_add_right _ _) (by omega)

theorem Brings.frame {W : Nat → Prop} (hB : Brings σ base P) (hf : Frame W σ τ)
    (hW : ∀ b, base ≤ b → b < base + 48 → ¬ W b) : Brings τ base P := by
  cases hB with
  | own hP h0 => exact .own (hP.frame hf hW) h0
  | @none v hp hv =>
    have hget : ∀ a, base ≤ a → a + 8 ≤ base + 48 → τ.get 8 a = σ.get 8 a := fun a h1 h2 =>
      hf.get fun b hb1 hb2 => hW b (by omega) (by omega)
    rw [← hf.glob]
    exact .none ((hget (base + 8) (by omega) (by omega)).trans hp)
      ((hget base (by omega) (by omega)).trans hv)

end

end Mmdata.Proofs
