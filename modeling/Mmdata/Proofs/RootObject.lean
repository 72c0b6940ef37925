import Mmdata.Proofs.Shadow

namespace Mmdata.Proofs
open Lib Malloc Image Relocation

section

variable {σ τ : State} {buf cap ms k n sizeT : Nat} {K : Objects} {d d' : MMData} {memsize : Int}
  {live : List Nat}

/-- What is stored about an mspace, and the constructor of the table, leave it alone. -/
theorem wp_finishShadow {word : buf + 4096 + (n - 4096) ≤ 2 ^ 64} (hK : TableOk K buf)
    (hl : 8192 ≤ n) (hms : ms < 2 ^ 64) (hmap : ∃ r ∈ τ.maps, r.1 ≤ buf ∧ buf + n ≤ r.2)
    (hS : ms ≠ 0 → ∃ σc, Shadow (stay (buf + 4096) (n - 4096) (by omega) word) cap ms [] [] σc τ) :
    wp Leftover (store 8 (mspaceOffset buf) (subSize ms buf)) (fun _ υ =>
      wp Leftover (K.table (namingTable buf) (attach d buf).allocator_) (fun _ ω =>
        ∀ ms', result (getMspace buf) ω = some ms' → ms' ≠ 0 → ∃ σc,
          Shadow (stay (buf + 4096) (n - 4096) (by omega) word) cap ms' [] [] σc ω) υ) τ := by
  have hcov : ∀ {υ : State} {a k : Nat}, υ.maps = τ.maps → buf ≤ a → a + k ≤ buf + n →
      υ.mapped a k = true := by
    intro υ a k hm h1 h2
    obtain ⟨r, hr, hlo, hhi⟩ := hmap
    exact Machine.mapped_of_mem (hm ▸ hr) (by omega) (by omega)
  have hoff : mspaceOffset buf = buf + 8 := rfl
  rw [wp_store (hcov rfl (by omega) (by omega))]
  have hput : (τ.put 8 (mspaceOffset buf) (subSize ms buf)).get 8 (mspaceOffset buf) =
      some (subSize ms buf) :=
    Machine.get_put_same (hcov rfl (by omega) (by omega)) (subSize_lt _ _)
  have hfs : Frame (Within (buf + 8) (buf + 16)) τ
      (τ.put 8 (mspaceOffset buf) (subSize ms buf)) :=
    (Frame.refl _ τ).put fun b h1 h2 => ⟨by omega, by omega⟩
  have hnt : namingTable buf = buf + 1040 := rfl
  have hsz : maxNamingTableSize = 256 := rfl
  apply wp_mono (hK _ _ (hcov hfs.maps (by omega) (by omega)))
  intro _ ω hf ms' hget hne
  have hword : ω.get 8 (mspaceOffset buf) = some (subSize ms buf) := by
    rw [hf.get (fun b h1 h2 hb => by have h3 := hb.1; omega)]
    exact hput
  obtain ⟨υ, hυ⟩ := result_ok hget
  have hself : wp (fun _ => True) (getMspace buf) (fun v _ => v = ms) ω :=
    wp_getMspace hword hms (by omega) rfl
  have he : ms' = ms := wp_ok hself hυ
  subst he
  obtain ⟨σc, S⟩ := hS hne
  have S₁ := S.elsewhere hfs fun b hb => Or.inl (by have h2 := hb.2; omega)
  exact ⟨σc, S₁.elsewhere hf fun b hb => Or.inl (by have h2 := hb.2; omega)⟩

/-- The mspace that `CreateAllocator` makes is one that a process without other memory has. -/
theorem created_shadow (hK : TableOk K buf) (h63 : memsize < 2 ^ 63) (hlarge : 8192 ≤ memsize)
    (h8 : buf % 8 = 0) (hword : (buf : Int) + memsize ≤ 2 ^ 64) (hk : 12 ≤ k)
    (hpage : σ.glob.pageSize = 2 ^ k)
    (hmapped : ∃ r ∈ σ.maps, r.1 ≤ buf ∧ (buf : Int) + memsize ≤ r.2) :
    ∃ cap, ∃ word : buf + 4096 + (memsize.toNat - 4096) ≤ 2 ^ 64,
      wp Leftover (createAllocator K d buf memsize) (fun _ τ =>
        ∀ ms, result (getMspace buf) τ = some ms → ms ≠ 0 → ∃ σc,
          Shadow (stay (buf + 4096) (memsize.toNat - 4096) (by omega) word) cap ms [] [] σc τ) σ := by
  have hn : memsize = ((memsize.toNat : Nat) : Int) := by omega
  generalize memsize.toNat = n at hn ⊢
  have hl : 8192 ≤ n := by omega
  have word : buf + 4096 + (n - 4096) ≤ 2 ^ 64 := by omega
  have hpow : 2 ^ 12 ∣ 2 ^ k := Nat.pow_dvd_pow 2 hk
  have hcap : 4096 ∣ (n - 4096) / 2 ^ k * 2 ^ k := Dvd.dvd.mul_left hpow _
  have hle := Nat.div_mul_le_self (n - 4096) (2 ^ k)
  have hmap : ∃ r ∈ σ.maps, r.1 ≤ buf ∧ buf + n ≤ r.2 := by
    obtain ⟨r, hr, hlo, hhi⟩ := hmapped
    exact ⟨r, hr, hlo, by omega⟩
  refine ⟨(n - 4096) / 2 ^ k * 2 ^ k, word, ?_⟩
  apply wp_createAllocator_header hn (fun _ => Or.inr rfl) hpage hmap hl (by omega)
  intro τ hk32 hf _
  generalize (n - 4096) / 2 ^ k * 2 ^ k = cap at hcap hle
  have hpage' : τ.glob.pageSize = 2 ^ k := hf.glob ▸ hpage
  have hmap' : ∃ r ∈ τ.maps, r.1 ≤ buf ∧ buf + n ≤ r.2 := hf.maps ▸ hmap
  unfold createRest
  simp only [wp_bind, wp_pure]
  by_cases h0 : cap = 0
  · have hcov : ∀ a m, buf + 4096 ≤ a → a + m ≤ buf + 4096 + 48 → τ.mapped a m = true := by
      intro a m h1 h2
      obtain ⟨r, hr, hlo, hhi⟩ := hmap'
      exact Machine.mapped_of_mem hr (by omega) (by omega)
    apply wp_refused (by rw [h0]; exact Nat.zero_le _) hcov
    · intro e he
      have hin : e.1 + e.2 ≤ 48 := by
        simp only [paramWords, List.mem_cons, List.not_mem_nil, or_false] at he
        rcases he with rfl | rfl | rfl | rfl | rfl <;> decide
      exact ⟨hcov _ _ (by omega) (by omega), fun _ => Or.inl rfl⟩
    · rw [hpage']
      exact Nat.pow_lt_pow_right (by decide) (by omega)
    · rw [hpage']
      exact page_power (by omega)
    · intro υ hfυ
      exact wp_finishShadow hK hl (by decide) (hfυ.maps ▸ hmap') fun h => absurd rfl h
  · have B : Buffer Leftover (confine τ (buf + 4096) (n - 4096)) (buf + 4096) cap := by
      refine page_buffer (fun _ he => he) (show k < 64 by omega) hpage' (by omega) (by omega) ?_
        (by omega) ⟨_, List.mem_cons_self, Nat.le_refl _, ?_⟩
      · simp only [mstateSize, topFootSize]
        omega
      · show buf + 4096 + cap ≤ buf + 4096 + (n - 4096)
        omega
    have hview : (stay (buf + 4096) (n - 4096) (by omega) word).Match
        (confine τ (buf + 4096) (n - 4096)) τ := by
      apply stay_view
      obtain ⟨r, hr, hlo, hhi⟩ := hmap'
      exact ⟨r, hr, by omega, by omega⟩
    apply wp_mono (wp_createShadow hview stay_params stay_aims trivial
      (stay_moves.mpr ⟨Nat.le_refl _, rfl⟩) B)
    intro ms υ hend
    obtain ⟨hI, hS⟩ := hend
    apply wp_finishShadow hK hl _ (hI.maps ▸ hmap') hS
    by_cases hz : ms = 0
    · omega
    · obtain ⟨_, S⟩ := hS hz
      have he := (stay_moves.mp S.mspace).2
      have hsrc : (stay (buf + 4096) (n - 4096) (by omega) word).src = buf + 4096 := rfl
      omega

/-- The calls see nothing but what lies behind `Meta`. -/
theorem serving_shadow (hK : TableOk K buf) (U : Serving K buf memsize ms σ live) :
    8192 ≤ memsize ∧ ∃ cap word σc, Shadow
      (stay (buf + 4096) (memsize.toNat - 4096) (by omega) word) cap ms live live σc σ := by
  induction U with
  | @created σ τ d d' k h63 h8 hword hk hpage hmapped hr hms h0 =>
    have hends : CreateEnds d buf memsize σ (0, d') τ := wp_ok any_createAllocator hr
    cases hends with
    | created hlarge =>
    obtain ⟨cap, word, hS⟩ := created_shadow (d := d) hK h63 hlarge h8 hword hk hpage hmapped
    obtain ⟨σc, S⟩ := wp_ok hS hr ms hms h0
    exact ⟨hlarge, cap, word, σc, S⟩
  | step _ hr ih =>
    obtain ⟨hl, cap, word, σc, S⟩ := ih
    obtain ⟨r, σc', href⟩ := S.lead stay_params trivial hr
    obtain ⟨r', τ', hr', hm, S', _⟩ := S.follow stay_params href
    rw [hr] at hr'
    cases hr'
    have hlive := live_still rfl hm.2
    rw [← hlive] at S'
    exact ⟨hl, cap, word, σc', S'⟩

/-- A call makes no difference between states that differ outside the mspace only. -/
theorem serving_same {W : Nat → Prop} {υ υ' : State} {c : Call} {r : Nat × List Nat}
    (hK : TableOk K buf) (U : Serving K buf memsize ms σ live) (hf : Frame W σ υ)
    (hW : ∀ a, W a → a < buf + 4096 ∨ (buf : Int) + memsize ≤ a)
    (hr : perform ms live c υ = .ok (r, υ')) :
    ∃ τ, perform ms live c σ = .ok (r, τ) ∧ Frame W τ υ' := by
  obtain ⟨hl, cap, word, σc, S⟩ := serving_shadow hK U
  have S' := S.elsewhere hf fun b hb => by
    have hw := hW b hb
    omega
  obtain ⟨rc, σc', hrc⟩ := S'.lead stay_params trivial hr
  obtain ⟨r₁, υ₁, hr₁, hm₁, S₁, hI₁⟩ := S'.follow stay_params hrc
  obtain ⟨r₂, τ, hr₂, hm₂, S₂, hI₂⟩ := S.follow stay_params hrc
  rw [hr] at hr₁
  cases hr₁
  have hsame : r₂ = r := by
    refine Prod.ext ?_ ?_
    · rw [mem_still rfl hm₂.1, mem_still rfl hm₁.1]
    · rw [live_still rfl hm₂.2, live_still rfl hm₁.2]
  subst hsame
  refine ⟨τ, hr₂, ?_, ?_, fun a ha => ?_⟩
  · rw [hI₁.maps, hI₂.maps, hf.maps]
  · exact (show σc'.glob = υ'.glob from S₁.view.glob).symm.trans
      (show σc'.glob = τ.glob from S₂.view.glob)
  · by_cases hin : buf + 4096 ≤ a ∧ a < buf + 4096 + (memsize.toNat - 4096)
    · -- both show the bytes of the process without other memory
      have h1 : σc'.byte a = υ'.byte a := S₁.view.cell_at (stay_moves.mpr ⟨hin.1, rfl⟩) hin.2
      have h2 : σc'.byte a = τ.byte a := S₂.view.cell_at (stay_moves.mpr ⟨hin.1, rfl⟩) hin.2
      exact h1.symm.trans h2
    · have hout : a < buf + 4096 ∨ buf + 4096 + (memsize.toNat - 4096) ≤ a := by omega
      rw [hI₁.byte a hout, hI₂.byte a hout, hf.byte a ha]

/-- Neither does a run of calls while such bytes are written. -/
theorem writing_same {υ : State} {cs : List (Call × Nat)} {live' : List Nat} {τ' : State}
    (hK : TableOk K buf) (hroot : sizeT ≤ maxRootStructSize)
    (R : Writing buf sizeT ms υ live cs τ' live') (U : Serving K buf memsize ms σ live)
    (hf : Frame (InRoot buf sizeT) σ υ) :
    ∃ τ, performAll ms (cs.map Prod.fst) live σ = .ok ((cs.map Prod.snd, live'), τ) ∧
      Frame (InRoot buf sizeT) τ τ' := by
  have hlow : ∀ a, InRoot buf sizeT a → a < buf + 4096 ∨ (buf : Int) + memsize ≤ a := by
    intro a ha
    have h2 := ha.2
    simp only [rootObject, maxRootStructSize] at h2 hroot
    exact Or.inl (by omega)
  induction R generalizing σ with
  | done => exact ⟨σ, rfl, hf⟩
  | write hw _ ih => exact ih U (hf.trans hw)
  | call hr _ ih =>
    obtain ⟨σ₁, hσ₁, hf₁⟩ := serving_same hK U hf hlow hr
    obtain ⟨τ, hτ, hf'⟩ := ih (.step U hσ₁) hf₁
    refine ⟨τ, ?_, hf'⟩
    simp only [List.map_cons, performAll, bind, hσ₁, hτ]
    rfl

/-- The root object that `LoadRootWriteObject` constructs in an accepted buffer keeps apart from
the naming table and the allocator exactly when it fits into its member of `Meta`. -/
theorem root_apart_iff (hK : TableOk K buf) (hn : 0 < n)
    (hc : createAllocator K d buf memsize σ = .ok ((0, d'), τ)) :
    RootApart K buf memsize sizeT n ↔ sizeT ≤ maxRootStructSize := by
  have hends : CreateEnds d buf memsize σ (0, d') τ := wp_ok any_createAllocator hc
  cases hends with
  | created hlarge =>
  constructor
  · intro A
    by_contra hbig
    refine A.table (namingTable buf) ⟨?_, ?_⟩ ⟨Nat.le_refl _, by omega⟩
    · simp only [rootObject, namingTable]
      omega
    · simp only [rootObject, namingTable]
      omega
  · intro hfit
    refine ⟨?_, ?_, ?_, ?_⟩
    · intro a ha ht
      have h2 := ha.2
      simp only [rootObject, namingTable] at h2 ht
      omega
    · intro a ha
      have h2 := ha.2
      simp only [rootObject, maxRootStructSize, allocatorMetaSize] at h2 hfit ⊢
      omega
    · intro a ha
      have h1 := ha.1
      have h2 := ha.2
      simp only [rootObject, maxRootStructSize] at h1 h2 hfit
      exact ⟨by omega, by omega⟩
    · intro ms σ live cs τ' live' U R
      obtain ⟨τ, hτ, hf⟩ := writing_same hK hfit R U (Frame.refl _ σ)
      refine ⟨τ, hτ, fun find hfind => hfind τ τ' (hf.mono ?_)⟩
      intro a ha hb
      have h1 := ha.1
      have h2 := ha.2
      simp only [Bookkeeping, Reserved, rootObject, namingTable, maxRootStructSize,
        allocatorMetaSize] at h1 h2 hfit hb
      omega

/-- A root object of 1024 bytes, and a naming table of 56. -/
theorem root_apart_full : RootApart zeros 4096 65536 1024 56 := by
  obtain ⟨_, _, hr, _⟩ := (zeroed_zero (i := 65536) (by decide)).created (d := MMData.new)
    (show (65536 : Int) = (65536 : Nat) from rfl) zeros_done (by decide) (by decide) (by decide)
    (by decide)
  exact (root_apart_iff zeros_table (by decide) hr).mpr (by decide)

/-- A root object of 1032 bytes lies on the first 8 bytes of the naming table. -/
theorem root_over_table : (∃ d' τ,
    createAllocator zeros MMData.new 4096 65536 zeroed = .ok ((0, d'), τ)) ∧
      ¬ RootApart zeros 4096 65536 1032 56 := by
  constructor
  · obtain ⟨d', τ, hr, _⟩ := (zeroed_zero (i := 65536) (by decide)).created (d := MMData.new)
      (show (65536 : Int) = (65536 : Nat) from rfl) zeros_done (by decide) (by decide) (by decide)
      (by decide)
    exact ⟨d', τ, hr⟩
  · exact fun A => A.table 5136 ⟨by decide, by decide⟩ ⟨by decide, by decide⟩

end

end Mmdata.Proofs
