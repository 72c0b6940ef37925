import Mathlib.Data.Nat.Log
import Mmdata.Lib.Alignment
import Mmdata.Proofs.Grants

namespace Mmdata.Proofs
open Lib Malloc

/-- The alignment that `mspace_memalign` works with is the power of two with this exponent. -/
def alignLog (alignment : Nat) : Nat := Nat.clog 2 (max alignment 32)

/-- What `mspace_memalign` asks `mspace_malloc` for. -/
def memalignRequest (alignment bytes : Nat) : Nat :=
  if alignment ≤ 8 then bytes else request2size bytes + 2 ^ alignLog alignment + 24

section

variable {K : State → Prop} {D : Trap → Prop} {σ τ υ : State} {m lo hi p s k v nb bytes : Nat}
  {h h' : Heap} {pu pv : Bool} {L : List (Nat × Nat)} {F : Nat → Nat → Prop} {l₁ l₂ : List Chunk}

/-- The word behind a chunk in use says so. -/
theorem Core.behind_used (C : Core σ m lo hi h F) (hcs : h.chunks = l₁ ++ ⟨p, s, true⟩ :: l₂) :
    ∃ w, σ.get 8 (p + s + 8) = some w ∧ w % 2 = 1 := by
  obtain ⟨_, _, _, hback⟩ := C.around_used hcs
  cases l₂ with
  | nil =>
    refine ⟨headWord h.topsize true false, ?_, ?_⟩
    · rw [← hback.2]
      exact C.topHead
    · rw [headWord_low C.topAlign]
      rfl
  | cons c l₃ =>
    obtain ⟨hca, hc, _⟩ := hback
    refine ⟨headWord c.size true c.used, ?_, ?_⟩
    · rw [← hca]
      exact hc.head
    · rw [headWord_low hc.align]
      rfl

/-- A head word tells whether the chunk before is in use. -/
theorem headWord_flag (hs : s % 8 = 0) (he : headWord s pu true = headWord s pv true) :
    pu = pv := by
  have hbit := congrArg (fun w => w &&& pinuseBit != 0) he
  simpa only [headWord_pinuse hs] using hbit

/-- What is known of a granted chunk. -/
theorem Grants.chunk (G : Grants K σ m lo hi h ((p, s) :: L) τ h') :
    ∃ l₁ l₂, h'.chunks = l₁ ++ ⟨p, s, true⟩ :: l₂ :=
  List.append_of_mem (mem_live.mp (G.mem List.mem_cons_self))

/-- A granted chunk is cut in two. -/
theorem Grants.cut (G : Grants K σ m lo hi h ((p, s) :: L) τ h') (hk : 32 ≤ k) (hr : k + 32 ≤ s)
    (hk8 : k % 8 = 0) (hf : Frame (Words [p + 8, p + k + 8]) τ υ) (hK : K υ)
    (hp : τ.get 8 (p + 8) = some (headWord s pu true))
    (h1 : υ.get 8 (p + 8) = some (headWord k pu true))
    (h2 : υ.get 8 (p + k + 8) = some (headWord (s - k) true true)) :
    ∃ h₁, Grants K σ m lo hi h ((p, k) :: (p + k, s - k) :: L) υ h₁ := by
  have hb := G.ok.core.chunk_bounds (mem_live.mp (G.mem List.mem_cons_self))
  simp only at hb
  refine G.split [⟨p, k, true⟩, ⟨p + k, s - k, true⟩] hf hK ?_ ?_ ?_
  · rintro b ⟨f, hf, h1, h2⟩
    simp only [List.mem_cons, List.not_mem_nil, or_false] at hf
    rcases hf with rfl | rfl
    all_goals omega
  · intro pv hpv
    obtain rfl : pu = pv := headWord_flag hb.2.1 (Option.some.inj (hp.symm.trans hpv))
    refine ⟨rfl, ⟨hk8, hk, h1, fun hc => ?_⟩, rfl, ⟨?_, ?_, h2, fun hc => ?_⟩, rfl, ?_⟩
    · contradiction
    · show (s - k) % 8 = 0
      omega
    · show 32 ≤ s - k
      omega
    · contradiction
    · show p + s = p + k + (s - k)
      omega
  · intro c hc
    simp only [List.mem_cons, List.not_mem_nil, or_false] at hc
    rcases hc with rfl | rfl
    all_goals rfl

/-- Marking a chunk as in use, when the word that is to be its head may be anything. -/
theorem wp_setInuse_any {Q : Unit → State → Prop} (hs : s % 8 = 0)
    (hlow : (τ.byte (p + 8)).low? = none → D .indeterminate) (hp : τ.mapped (p + 8) 8 = true)
    (hn : τ.mapped (p + s + 8) 8 = true)
    (hQ : ∀ pu, Q () ((τ.put 8 (p + 8) (headWord s pu true)).setLow (p + s + 8))) :
    wp D (setInuse p s) Q τ := by
  cases hl : (τ.byte (p + 8)).low? with
  | none =>
    simp only [setInuse, head, wp_bind]
    unfold wp
    simp only [loadLow, hp, if_true, hl]
    exact hlow hl
  | some w =>
    have hbit : w = 0 ∨ w = 1 := by
      cases hc : τ.byte (p + 8) with
      | known b =>
        simp only [hc, Cell.low?, Option.some.injEq] at hl
        omega
      | unknown =>
        rw [hc] at hl
        contradiction
      | lowSet =>
        rw [hc] at hl
        exact Or.inr (Option.some.inj hl).symm
    cases hbit with
    | inl h0 =>
      have hbit : (τ.byte (p + 8)).low? = some (if false then 1 else 0) := h0 ▸ hl
      exact (wp_setInuse hs hbit hp hn).mpr (hQ false)
    | inr h1 =>
      have hbit : (τ.byte (p + 8)).low? = some (if true then 1 else 0) := h1 ▸ hl
      exact (wp_setInuse hs hbit hp hn).mpr (hQ true)

/-- What lies before an aligned spot becomes a chunk of its own. -/
theorem Grants.wp_cutLeader {Q : Nat → State → Prop}
    (G : Grants K σ m lo hi h ((p, s) :: L) τ h') (hk : 32 ≤ k) (hr : k + 32 ≤ s) (hk8 : k % 8 = 0)
    (hlow : (τ.byte (p + k + 8)).low? = none → D .indeterminate) (hK : Stored K)
    (hQ : ∀ υ h₁, Grants K σ m lo hi h ((p, k) :: (p + k, s - k) :: L) υ h₁ → Q (p + 16) υ) :
    wp D (cutLeader p (p + k)) Q τ := by
  obtain ⟨l₁, l₂, hcs⟩ := G.chunk
  have C := G.ok.core
  have hpm := mem_live.mp (G.mem List.mem_cons_self)
  obtain ⟨pu, _, hc, _⟩ := C.around_used hcs
  obtain ⟨w, hw, hodd⟩ := C.behind_used hcs
  have hb := C.chunk_bounds hpm
  have hword := C.arena.word
  have hhead := hc.head
  simp only at hb hhead
  have hmap : ∀ υ : State, υ.maps = τ.maps → ∀ a, p ≤ a → a + 8 ≤ p + s + 16 →
      υ.mapped a 8 = true := by
    intro υ hυ a h1 h2
    rw [Machine.mapped_congr hυ]
    exact C.arena.covers (by omega) (by omega)
  have hend : p + k + (s - k) + 8 = p + s + 8 := by omega
  have hrest : (s - k) % 8 = 0 := by omega
  unfold cutLeader
  simp only [wp_bind]
  rw [wp_chunksize hhead hb.2.1, subSize_le (by omega) (by omega), Nat.add_sub_cancel_left,
    subSize_le (by omega) (by omega)]
  refine C.wp_isMmapped hpm ?_
  rw [wp_if_neg (by simp)]
  simp only [wp_bind]
  -- the rest is marked first
  apply wp_setInuse_any hrest hlow (hmap τ rfl _ (by omega) (by omega))
    (hmap τ rfl _ (by omega) (by omega))
  intro bit
  rw [hend, Machine.setLow_of_odd (v := w) (by rwa [Machine.get_put_ne (by omega)]) hodd]
  have hlow' : ((τ.put 8 (p + k + 8) (headWord (s - k) bit true)).byte (p + 8)).low? =
      some (if pu then 1 else 0) := by
    have hbit : headWord s pu true % 2 = if pu then 1 else 0 := headWord_low hb.2.1
    rw [← hbit]
    apply Machine.low_of_get
    rwa [Machine.get_put_ne (by omega)]
  refine (wp_setInuse hk8 hlow' (hmap _ rfl _ (by omega) (by omega))
    (hmap _ rfl _ (by omega) (by omega))).mpr ?_
  obtain ⟨h₁, G₁⟩ := G.cut (υ := ((τ.put 8 (p + k + 8) (headWord (s - k) bit true)).put 8 (p + 8)
      (headWord k pu true)).setLow (p + k + 8)) hk hr hk8
    (by
      refine (((Frame.refl _ τ).put ?_).put ?_).setLow ?_
      · exact fun b h1 h2 => ⟨p + k + 8, by simp, h1, h2⟩
      · exact fun b h1 h2 => ⟨p + 8, by simp, h1, h2⟩
      · exact ⟨p + k + 8, by simp, by omega, by omega⟩)
    (hK.setLow _ (hK.put _ _ _ (hK.put _ _ _ G.lasts))) hhead (by
      rw [Machine.get_setLow_ne (by omega)]
      exact Machine.get_put_same (hmap _ rfl _ (by omega) (by omega)) (headWord_lt (by omega)))
    (by
      rw [Machine.get_setLow_same (v := headWord (s - k) bit true), headWord_setLow hrest]
      rw [Machine.get_put_ne (by omega)]
      exact Machine.get_put_same (hmap _ rfl _ (by omega) (by omega)) (headWord_lt (by omega)))
  exact hQ _ h₁ G₁

/-- Spare room at the end becomes a chunk of its own. -/
theorem Grants.wp_cutTrailer {Q : Nat → State → Prop}
    (G : Grants K σ m lo hi h ((p, s) :: L) τ h') (hk : 32 ≤ k) (hk8 : k % 8 = 0) (hle : k ≤ s)
    (hK : Stored K) (h0 : s ≤ k + 32 → Q 0 τ)
    (hQ : ∀ υ h₁, k + 32 < s → Grants K σ m lo hi h ((p, k) :: (p + k, s - k) :: L) υ h₁ →
      Q (p + k + 16) υ) :
    wp D (cutTrailer p k) Q τ := by
  obtain ⟨l₁, l₂, hcs⟩ := G.chunk
  have C := G.ok.core
  have hpm := mem_live.mp (G.mem List.mem_cons_self)
  obtain ⟨pu, _, hc, _⟩ := C.around_used hcs
  obtain ⟨w, hw, hodd⟩ := C.behind_used hcs
  have hb := C.chunk_bounds hpm
  have hword := C.arena.word
  have hhead := hc.head
  simp only at hb hhead
  have hmap : ∀ υ : State, υ.maps = τ.maps → ∀ a, p ≤ a → a + 8 ≤ p + s + 16 →
      υ.mapped a 8 = true := by
    intro υ hυ a h1 h2
    rw [Machine.mapped_congr hυ]
    exact C.arena.covers (by omega) (by omega)
  have hend : p + k + (s - k) + 8 = p + s + 8 := by omega
  have hrest : (s - k) % 8 = 0 := by omega
  unfold cutTrailer
  simp only [wp_bind]
  refine C.wp_isMmapped hpm ?_
  rw [wp_if_neg (by simp)]
  simp only [wp_bind]
  rw [wp_chunksize hhead hb.2.1]
  have hsum : addSize k minChunkSize = k + 32 := by
    simp only [addSize, minChunkSize]
    omega
  rw [hsum]
  by_cases hbig : s > k + 32
  · rw [wp_if_pos hbig]
    simp only [wp_bind]
    have hlow : (τ.byte (p + 8)).low? = some (if pu then 1 else 0) := by
      have hbit : headWord s pu true % 2 = if pu then 1 else 0 := headWord_low hb.2.1
      rw [← hbit]
      exact Machine.low_of_get hhead
    rw [wp_setInuse hk8 hlow (hmap τ rfl _ (by omega) (by omega))
      (hmap τ rfl _ (by omega) (by omega)), subSize_le (by omega) (by omega)]
    have hset := Machine.low_setLow (σ := τ.put 8 (p + 8) (headWord k pu true)) (p + k + 8)
    refine (wp_setInuse (p := p + k) hrest (hset.trans (by rfl : some 1 = some (if true then 1 else 0)))
      (hmap _ rfl _ (by omega) (by omega)) (hmap _ rfl _ (by omega) (by omega))).mpr ?_
    rw [hend, Machine.setLow_of_odd (v := w) (by
      rwa [Machine.get_put_ne (by omega), Machine.get_setLow_ne (by omega),
        Machine.get_put_ne (by omega)]) hodd]
    obtain ⟨h₁, G₁⟩ := G.cut (υ := ((τ.put 8 (p + 8) (headWord k pu true)).setLow
        (p + k + 8)).put 8 (p + k + 8) (headWord (s - k) true true)) hk (by omega) hk8
      (by
        refine (((Frame.refl _ τ).put ?_).setLow ?_).put ?_
        · exact fun b h1 h2 => ⟨p + 8, by simp, h1, h2⟩
        · exact ⟨p + k + 8, by simp, by omega, by omega⟩
        · exact fun b h1 h2 => ⟨p + k + 8, by simp, h1, h2⟩)
      (hK.put _ _ _ (hK.setLow _ (hK.put _ _ _ G.lasts))) hhead (by
        rw [Machine.get_put_ne (by omega), Machine.get_setLow_ne (by omega)]
        exact Machine.get_put_same (hmap _ rfl _ (by omega) (by omega)) (headWord_lt (by omega)))
      (Machine.get_put_same (hmap _ rfl _ (by omega) (by omega)) (headWord_lt (by omega)))
    exact hQ _ h₁ hbig G₁
  · rw [wp_if_neg hbig]
    exact h0 (by omega)

/-- What an address stands for: nothing, or a chunk that is to be given back. -/
inductive Spare : Nat → List (Nat × Nat) → Prop
  | none : Spare 0 []
  | chunk (p s : Nat) : Spare (p + 16) [(p, s)]

theorem Grants.wp_giveBack {α : Type} {y : Code α} {Q : α → State → Prop} {x : Nat}
    {S : List (Nat × Nat)} (G : Grants K σ m lo hi h (S ++ L) τ h') (T : TrimOk D σ m hi)
    (hK : Lasting D m lo hi K) (hS : Spare x S) (hQ : ∀ υ h₁, Grants K σ m lo hi h L υ h₁ → wp D y Q υ) :
    wp D (if x ≠ 0 then do
      mspaceFree m x
      y
    else y) Q τ := by
  cases hS with
  | none =>
    rw [wp_if_neg (by simp)]
    exact hQ τ h' G
  | chunk p s =>
    rw [wp_if_pos (by omega), wp_bind]
    exact G.wp_free T hK hQ

/-- `a <<= 1` comes to the first power of two that is large enough. -/
theorem wp_doubleUpTo {Q : Nat → State → Prop} {alignment fuel j : Nat} (hf : 64 ≤ fuel + j)
    (ha : alignment ≤ 2 ^ 63) (hj : j ≤ Nat.clog 2 alignment) (hQ : Q (2 ^ Nat.clog 2 alignment) σ) :
    wp D (doubleUpTo alignment fuel (2 ^ j)) Q σ := by
  have h63 : Nat.clog 2 alignment ≤ 63 := Nat.clog_le_of_le_pow ha
  induction fuel generalizing j with
  | zero => omega
  | succ fuel ih =>
    simp only [doubleUpTo]
    by_cases hlt : 2 ^ j < alignment
    · have hj' : j < Nat.clog 2 alignment := (Nat.lt_clog_iff_pow_lt (by decide)).mpr hlt
      have hnext : shlSize (2 ^ j) 1 = 2 ^ (j + 1) := by
        have hsmall : 2 ^ (j + 1) < 2 ^ 64 := Nat.pow_lt_pow_right (by decide) (by omega)
        rw [shlSize, Nat.shiftLeft_eq, Nat.pow_one, ← Nat.pow_succ, Nat.mod_eq_of_lt hsmall]
      rw [wp_if_pos hlt, hnext]
      exact ih (by omega) hj'
    · have hle : Nat.clog 2 alignment ≤ j := Nat.clog_le_of_le_pow (Nat.le_of_not_lt hlt)
      rw [wp_if_neg hlt, wp_pure, Nat.le_antisymm hj hle]
      exact hQ

theorem alignLog_spec {alignment : Nat} (ha : alignment ≤ 2 ^ 63) :
    5 ≤ alignLog alignment ∧ alignLog alignment ≤ 63 ∧ alignment ≤ 2 ^ alignLog alignment := by
  have hle : max alignment 32 ≤ 2 ^ alignLog alignment := Nat.le_pow_clog (by decide) _
  refine ⟨?_, ?_, by omega⟩
  · exact (Nat.pow_le_pow_iff_right (a := 2) (by decide)).mp (Nat.le_trans (Nat.le_max_right _ 32) hle)
  · exact Nat.clog_le_of_le_pow (Nat.max_le.mpr ⟨ha, by decide⟩)

theorem wp_effectiveAlignment {Q : Nat → State → Prop} {alignment : Nat}
    (ha : alignment ≤ 2 ^ 63) (hQ : Q (2 ^ alignLog alignment) σ) :
    wp D (effectiveAlignment alignment) Q σ := by
  -- at least a minimal chunk
  have hleast : ∀ a, 32 ≤ a → a ≤ 2 ^ 63 → a = max alignment 32 → wp D (if a &&& subSize a 1 ≠ 0 then
      doubleUpTo a loopFuel (shlSize mallocAlignment 1) else pure a) Q σ := by
    intro a h32 h63 hmax
    rw [alignLog, ← hmax] at hQ
    by_cases hbits : a &&& subSize a 1 ≠ 0
    · rw [wp_if_pos hbits]
      show wp D (doubleUpTo a loopFuel (2 ^ 4)) Q σ
      apply wp_doubleUpTo (by simp only [loopFuel]; omega) h63 _ hQ
      exact Nat.le_of_lt ((Nat.lt_clog_iff_pow_lt (by decide)).mpr (by omega))
    · rw [wp_if_neg hbits, wp_pure]
      rw [subSize_le (by omega) (by omega)] at hbits
      have hne : a ≠ 0 := by omega
      obtain ⟨k, rfl⟩ := (Nat.and_sub_one_eq_zero_iff_isPowerOfTwo hne).mp
        (Decidable.not_not.mp hbits)
      rwa [Nat.clog_pow 2 k (by decide)] at hQ
  unfold effectiveAlignment
  by_cases hsmall : alignment < minChunkSize
  · simp only [hsmall, if_true]
    simp only [minChunkSize] at hsmall
    exact hleast 32 (Nat.le_refl 32) (by decide) (by omega)
  · simp only [hsmall, if_false]
    simp only [minChunkSize] at hsmall
    exact hleast alignment (by omega) ha (by omega)

/-- The aligned spot lies a whole chunk into the memory that was asked for. -/
theorem alignedSpot_spec {j : Nat} (hp : p % 8 = 0) (hj : 5 ≤ j) (hj63 : j ≤ 63)
    (hword : p + 2 ^ j + 16 ≤ 2 ^ 64) (hmis : (p + 16) % 2 ^ j ≠ 0) :
    ∃ k, alignedSpot p (p + 16) (2 ^ j) = p + k ∧ 32 ≤ k ∧ k ≤ 2 ^ j + 24 ∧ k % 8 = 0 ∧
      2 ^ j ∣ p + k + 16 := by
  have hpos : 0 < 2 ^ j := Nat.two_pow_pos j
  have h32 : 2 ^ 5 ∣ 2 ^ j := Nat.pow_dvd_pow 2 hj
  have hneg : subSize 0 (2 ^ j) = 2 ^ 64 - 2 ^ j := by
    have hlt : 2 ^ j < 2 ^ 64 := Nat.pow_lt_pow_right (by decide) (by omega)
    simp only [subSize]
    omega
  have hround : (p + 16 + 2 ^ j - 1) &&& subSize 0 (2 ^ j) = roundUp (p + 16) (2 ^ j) := by
    rw [hneg]
    exact and_neg_roundUp (by omega) (by omega)
  have hgt := lt_roundUp hpos hmis
  have hlt := roundUp_lt (x := p + 16) hpos
  have hdvd := dvd_roundUp (p + 16) (2 ^ j)
  have h8 : roundUp (p + 16) (2 ^ j) % 8 = 0 := by
    have hd : 2 ^ 3 ∣ 2 ^ j := Nat.pow_dvd_pow 2 (by omega)
    exact Nat.mod_eq_zero_of_dvd (hd.trans hdvd)
  simp only [alignedSpot, hround, mem2chunk, minChunkSize]
  generalize roundUp (p + 16) (2 ^ j) = u at hgt hlt hdvd h8
  generalize 2 ^ j = a at *
  have hsub : subSize (u - 16) p = u - 16 - p := subSize_le (by omega) (by omega)
  simp only [hsub]
  by_cases hfar : u - 16 - p ≥ 32
  · simp only [if_pos hfar]
    refine ⟨u - 16 - p, by omega, hfar, by omega, by omega, ?_⟩
    rw [show p + (u - 16 - p) + 16 = u by omega]
    exact hdvd
  · simp only [if_neg hfar]
    refine ⟨u - 16 - p + a, by omega, by omega, by omega, by omega, ?_⟩
    rw [show p + (u - 16 - p + a) + 16 = u + a by omega]
    exact Nat.dvd_add_right hdvd |>.mpr (Nat.dvd_refl a)

/-- The aligned chunk is trimmed, and the rest given back. -/
theorem Grants.wp_trimmed {Q : Nat → State → Prop} {x : Nat} {S : List (Nat × Nat)}
    (G : Grants K σ m lo hi h ((p, s) :: S) τ h') (T : TrimOk D σ m hi)
    (hK : Lasting D m lo hi K) (hS : Spare x S) (hk : 32 ≤ k) (hk8 : k % 8 = 0) (hle : k ≤ s)
    (hQ : ∀ t υ h₁, Grants K σ m lo hi h [(p, t)] υ h₁ → k ≤ t → t ≤ k + 32 → Q (p + 16) υ) :
    wp D (do
      let trailer ← cutTrailer p k
      if x ≠ 0 then mspaceFree m x
      if trailer ≠ 0 then mspaceFree m trailer
      return chunk2mem p) Q τ := by
  have hrest : ∀ t y υ h₁ R, Grants K σ m lo hi h ((p, t) :: (R ++ S)) υ h₁ → Spare y R → k ≤ t →
      t ≤ k + 32 → wp D (do
        if x ≠ 0 then mspaceFree m x
        if y ≠ 0 then mspaceFree m y
        return chunk2mem p) Q υ := by
    intro t y υ h₁ R G₁ hR hkt htk
    have hperm : ((p, t) :: (R ++ S)).Perm (S ++ (R ++ [(p, t)])) := by
      refine (List.perm_append_singleton (p, t) (R ++ S)).symm.trans ?_
      rw [List.append_assoc]
      exact List.perm_append_comm_assoc R S [(p, t)]
    apply (G₁.perm hperm).wp_giveBack T hK hS
    intro ω h₂ G₂
    apply G₂.wp_giveBack T hK hR
    intro ω' h₃ G₃
    exact hQ t ω' h₃ G₃ hkt htk
  rw [wp_bind]
  apply G.wp_cutTrailer hk hk8 hle hK.stored
  · intro hsmall
    exact hrest s 0 τ h' [] G .none hle hsmall
  · intro υ h₁ hbig G₁
    exact hrest k (p + k + 16) υ h₁ [(p + k, s - k)] G₁ (.chunk _ _) (Nat.le_refl k) (by omega)

/-- The request that leaves room for an aligned spot. -/
theorem memalign_request {j : Nat} (hj : 5 ≤ j) (hj63 : j ≤ 63)
    (hb : bytes < 2 ^ 64 - 128 - 2 ^ j) : 32 ≤ request2size bytes ∧ request2size bytes % 8 = 0 ∧
      bytes + 8 ≤ request2size bytes ∧ request2size bytes ≤ bytes + 32 ∧
      subSize (addSize (addSize (request2size bytes) (2 ^ j)) minChunkSize) chunkOverhead =
        request2size bytes + 2 ^ j + 24 := by
  have hpos : 32 ≤ 2 ^ j := Nat.pow_le_pow_right (n := 2) (by decide) hj
  have h63 : 2 ^ j ≤ 2 ^ 63 := Nat.pow_le_pow_right (by decide) hj63
  have hbytes : bytes < maxRequest := by
    simp only [maxRequest]
    omega
  obtain ⟨hnb, hnb8, hroom, _⟩ := request2size_spec hbytes
  have hpad := request2size_near hbytes
  refine ⟨hnb, hnb8, hroom, hpad, ?_⟩
  simp only [subSize, addSize, minChunkSize, chunkOverhead]
  omega

/-- `mspace_memalign` returns null and changes nothing, or gives one chunk with room for the
request, aligned as asked, and gives back the rest of what it took. -/
theorem Ok.wp_mspaceMemalign {Q : Nat → State → Prop} {alignment : Nat} (O : Ok σ m lo hi h)
    (T : TrimOk D σ m hi) (hK : Lasting D m lo hi K) (hσ : K σ) (ha : alignment ≤ 2 ^ 63)
    (hlow : ∀ τ, K τ → ∀ b, m ≤ b → b < hi → (τ.byte b).low? = none → D .indeterminate)
    (h0 : (bytes < maxRequest → h.Refuses (memalignRequest alignment bytes)) → Q 0 σ)
    (hQ : ∀ v s j τ h', Grants K σ m lo hi h [(v, s)] τ h' → bytes + 8 ≤ s → alignment ≤ 2 ^ j →
      2 ^ j ∣ v + 16 → (8 < alignment → s ≤ request2size bytes + 32) → Q (v + 16) τ) :
    wp D (mspaceMemalign m alignment bytes) Q σ := by
  unfold mspaceMemalign internalMemalign
  by_cases hsmall : alignment ≤ mallocAlignment
  · rw [wp_if_pos hsmall]
    simp only [mallocAlignment] at hsmall
    apply O.wp_grant hK hσ
    · intro hno
      refine h0 fun _ => ?_
      rw [memalignRequest, if_pos hsmall]
      exact hno
    · intro v s τ h' G hs _
      have hb := G.ok.core.chunk_bounds (mem_live.mp (G.mem List.mem_cons_self))
      simp only at hb
      exact hQ v s 3 τ h' G hs hsmall (Nat.dvd_of_mod_eq_zero (by omega)) (by omega)
  rw [wp_if_neg hsmall]
  simp only [mallocAlignment] at hsmall
  simp only [wp_bind]
  apply wp_effectiveAlignment ha
  obtain ⟨hj, hj63, hle⟩ := alignLog_spec ha
  have hask : memalignRequest alignment bytes = request2size bytes + 2 ^ alignLog alignment + 24 :=
    if_neg hsmall
  generalize alignLog alignment = j at *
  have hpos : 32 ≤ 2 ^ j := Nat.pow_le_pow_right (n := 2) (by decide) hj
  have h63 : 2 ^ j ≤ 2 ^ 63 := Nat.pow_le_pow_right (by decide) hj63
  have hmax : subSize maxRequest (2 ^ j) = 2 ^ 64 - 128 - 2 ^ j := by
    simp only [subSize, maxRequest]
    omega
  rw [hmax]
  by_cases hhuge : bytes ≥ 2 ^ 64 - 128 - 2 ^ j
  · rw [wp_if_pos hhuge]
    refine h0 fun hbytes hlt => ?_
    have hroom := (request2size_spec hbytes).2.2.1
    rw [hask] at hlt
    simp only [maxRequest] at hlt
    omega
  rw [wp_if_neg hhuge]
  have hreq := memalign_request hj hj63 (Nat.lt_of_not_ge hhuge)
  have hnb := hreq.1
  have hnb8 := hreq.2.1
  have hroom := hreq.2.2.1
  have hpad := hreq.2.2.2.1
  simp only [hreq.2.2.2.2, wp_bind]
  refine O.wp_grant hK hσ ?_ ?_
  · intro hno
    rw [wp_if_pos rfl]
    exact h0 fun _ => hask ▸ hno
  intro v s τ h' G hs _
  rw [wp_if_neg (by omega)]
  have hb := G.ok.core.chunk_bounds (mem_live.mp (G.mem List.mem_cons_self))
  have hword := G.ok.core.arena.word
  simp only at hb
  simp only [mem2chunk, Nat.add_sub_cancel]
  by_cases hmis : (v + 16) % 2 ^ j ≠ 0
  · rw [wp_if_pos hmis]
    obtain ⟨k, hk, hk32, hkle, hk8, hdvd⟩ := alignedSpot_spec hb.1 hj hj63 (by omega) hmis
    rw [hk]
    simp only [wp_bind]
    apply G.wp_cutLeader hk32 (by omega) hk8 (hlow τ G.lasts _ (by omega) (by omega)) hK.stored
    intro υ h₁ G₁
    rw [wp_pure]
    have G₂ := G₁.perm (List.Perm.swap (v + k, s - k) (v, k) [])
    refine wp_bind.mp (G₂.wp_trimmed T hK (.chunk v k) hnb hnb8 (by omega) ?_)
    intro t ω h₂ G₃ hle₁ hle₂
    exact hQ (v + k) t j ω h₂ G₃ (by omega) hle hdvd fun _ => hle₂
  · rw [wp_if_neg hmis, wp_bind, wp_pure]
    simp only [wp_bind]
    refine wp_bind.mp (G.wp_trimmed T hK .none hnb hnb8 (by omega) ?_)
    intro t ω h₂ G₃ hle₁ hle₂
    exact hQ v t j ω h₂ G₃ (by omega) hle (Nat.dvd_of_mod_eq_zero (by omega)) fun _ => hle₂

end

end Mmdata.Proofs
