import Mmdata.Proofs.Filed
import Mmdata.Proofs.Elements
import Mmdata.Proofs.Blocks

namespace Mmdata.Proofs
open Lib Malloc Relocation

/-- The parameters at `pm` are in use. -/
structure Settled (σ : State) (pm : Nat) : Prop where
  magic : ∃ v, v ≠ 0 ∧ σ.get 8 (paramMagic pm) = some v
  page : ∃ v, v.isPowerOfTwo ∧ σ.get 8 (paramPageSize pm) = some v
  granularity : ∃ v, v.isPowerOfTwo ∧ σ.get 8 (paramGranularity pm) = some v

/-- An image in use, between requests. -/
structure Living (σ : State) (base cap : Nat) (live : List Nat) (h : Heap) : Prop where
  homed : Homed σ base cap
  settled : Settled σ base
  held : Held σ base cap live h

/-- The image after a request about the block `target`: nothing was written elsewhere, and
the other blocks are as they were. -/
structure Answered (σ : State) (base cap : Nat) (live : List Nat) (h : Heap) (target : Option Nat)
    (live' : List Nat) (τ : State) (h' : Heap) : Prop where
  living : Living τ base cap live' h'
  frame : Frame (Within base (base + cap)) σ τ
  others : ∀ j a t, live[j]? = some (a + 16) → (a, t) ∈ h.live → target ≠ some j →
    (a, t) ∈ h'.live ∧ ∀ b, a + 16 ≤ b → b < a + t + 8 → τ.byte b = σ.byte b

/-- The array for `n` pointers: one of its own, or the block `into`. -/
inductive ArrayOf (live : List Nat) (h : Heap) (n : Nat) : Option Nat → Nat → Prop
  | own : ArrayOf live h n none 0
  | given {k p s : Nat} : live[k]? = some (p + 16) → (p, s) ∈ h.live → 8 * n + 8 ≤ s →
      ArrayOf live h n (some k) (p + 16)

section

variable {D : Trap → Prop} {σ τ υ : State} {W A : Nat → Prop} {base cap p s k n e : Nat} {h h' : Heap}
  {live live' : List Nat} {Lst S : List (Nat × Nat)} {target into : Option Nat} {c : Call}
  {cs : List Chunk} {zs sizes : List Nat} {zero : Prop} {a chunks : Nat}

theorem Settled.frame (S : Settled σ base) (hf : Frame W σ τ) (hW : ∀ b, W b → base + 24 ≤ b) :
    Settled τ base := by
  have hget : ∀ a, a + 8 ≤ base + 24 → τ.get 8 a = σ.get 8 a := by
    intro a h
    apply hf.get
    intro b _ h2 hb
    have hw := hW b hb
    omega
  obtain ⟨v, hv, h1⟩ := S.magic
  obtain ⟨w, hw, h2⟩ := S.page
  obtain ⟨g, hg, h3⟩ := S.granularity
  simp only [paramMagic, paramPageSize, paramGranularity] at h1 h2 h3
  refine ⟨⟨v, hv, ?_⟩, ⟨w, hw, ?_⟩, ⟨g, hg, ?_⟩⟩
  all_goals
    simp only [paramMagic, paramPageSize, paramGranularity]
    rw [hget _ (by omega)]
    assumption

/-- Trimming meets no trap. -/
theorem Living.trim (L : Living σ base cap live h) : TrimOk D σ (base + 64) (base + cap) := by
  have hp := L.homed.params
  obtain ⟨v, hv, hget⟩ := L.settled.granularity
  refine ⟨?_, ?_, ?_, ?_⟩
  all_goals rw [hp]
  · exact Or.inl (by omega)
  · exact Machine.mapped_of_get hget
  · intro hn
    exact absurd (hget.symm.trans hn) (by simp)
  · intro hz
    obtain rfl := Option.some.inj (hget.symm.trans hz)
    exact absurd hv Nat.not_isPowerOfTwo_zero

/-- The heap has changed, and with it the live blocks. -/
theorem Living.after (L : Living σ base cap live h) (hf : Frame (Within (base + 64) (base + cap)) σ τ)
    (O : Ok τ (base + 64) (base + 48) (base + cap) h') (B : Blocks live' h') (F : Filed τ base cap) :
    Living τ base cap live' h' := by
  refine ⟨⟨F, ?_⟩, L.settled.frame hf fun b hb => ?_, O, B, ?_⟩
  · rw [hf.glob]
    exact L.homed.params
  · have h1 := hb.1
    omega
  · rw [hf.get]
    · exact L.held.ownHead
    · intro b _ h2 hb
      have h1 := hb.1
      omega

/-- A client has been given chunks, and may have written to one that it had. -/
theorem Living.granted (L : Living σ base cap live h)
    (hA : ∀ b, A b → ∃ k p s, target = some k ∧ live[k]? = some (p + 16) ∧ (p, s) ∈ h.live ∧
      p + 16 ≤ b ∧ b < p + s + 8)
    (hf : Frame A σ υ)
    (G : Grants (fun σ => Homed σ base cap) υ (base + 64) (base + 48) (base + cap) h Lst τ h')
    (hl : live'.Perm (Lst.map blockOf ++ live)) : Answered σ base cap live h target live' τ h' := by
  have O := L.held.ok
  have hin : ∀ b, A b → Within (base + 64) (base + cap) b := by
    intro b hb
    obtain ⟨_, p, s, _, _, hp, h1, h2⟩ := hA b hb
    have hc := O.core.chunk_bounds (mem_live.mp hp)
    simp only at hc
    exact ⟨by omega, by omega⟩
  have hf' : Frame (Within (base + 64) (base + cap)) σ τ :=
    (hf.mono hin).trans (G.frame.mono fun _ hb => ⟨hb.1, hb.2.1⟩)
  have hB : Blocks live' h' := by
    have hmap := G.live.map blockOf
    rw [List.map_append] at hmap
    exact hl.trans ((L.held.blocks.append_left _).trans hmap.symm)
  refine ⟨L.after hf' G.ok hB G.lasts.filed, hf'.mono fun b hb => ⟨?_, hb.2⟩, ?_⟩
  · have h1 := hb.1
    omega
  · intro j a t hj ha hne
    refine ⟨G.keeps _ ha, fun b h1 h2 => ?_⟩
    rw [G.frame.byte b fun hb => hb.2.2 (Payload.live.mpr ⟨a, t, ha, h1, h2⟩)]
    apply hf.byte
    intro hb
    obtain ⟨k, p, s, rfl, hk, hp, h3, h4⟩ := hA b hb
    have hm := O.other L.held.blocks hk (List.perm_cons_erase hp) hj ha fun he => hne (he ▸ rfl)
    have hap := O.apart_of_perm (List.perm_cons_erase hp) _ hm
    simp only [Apart] at hap
    omega

theorem Living.gives (L : Living σ base cap live h)
    (G : Grants (fun σ => Homed σ base cap) σ (base + 64) (base + 48) (base + cap) h Lst τ h')
    (hl : live'.Perm (Lst.map blockOf ++ live)) : Answered σ base cap live h none live' τ h' :=
  L.granted (A := fun _ => False) (fun _ hb => hb.elim) (Frame.refl _ σ) G hl

theorem Living.same (L : Living σ base cap live h) (target : Option Nat) :
    Answered σ base cap live h target live σ h :=
  ⟨L, Frame.refl _ σ, fun _ _ _ _ ha _ => ⟨ha, fun _ _ _ => rfl⟩⟩

/-! The calls. -/

theorem Outcome.stays (R : Outcome σ (base + 64) (base + 48) (base + cap) h live c n live' τ h')
    (H : Held σ base cap live h) {j a t : Nat} (hj : live[j]? = some (a + 16)) (ha : (a, t) ∈ h.live)
    (hne : c.target ≠ some j) : (a, t) ∈ h'.live := by
  cases R with
  | nothing => exact ha
  | given _ hl => exact hl.mem_iff.mpr (List.mem_cons_of_mem _ ha)
  | taken hk _ _ hl => exact H.ok.other H.blocks hk hl hj ha fun he => hne (he ▸ rfl)
  | resized hk _ hR =>
    obtain ⟨L, hl, hl'⟩ := hR.live
    have hm := H.ok.other H.blocks hk hl hj ha fun he => hne (he ▸ rfl)
    exact hl'.mem_iff.mpr (List.mem_cons_of_mem _ hm)
  | written => exact ha

theorem Held.fileMoves (H : Held σ base cap live h) (F : Filed σ base cap) :
    LiveMoves (fileAt base cap F.clear F.word) live live := by
  have hall : ∀ l : List Nat, (∀ x ∈ l, x ∈ live) → LiveMoves (fileAt base cap F.clear F.word) l l := by
    intro l
    induction l with
    | nil => exact fun _ => .nil
    | cons x l ih =>
      intro hin
      obtain ⟨⟨p, s⟩, he, rfl⟩ :=
        List.mem_map.mp (H.blocks.mem_iff.mp (hin x List.mem_cons_self))
      have hb := H.ok.core.chunk_bounds (mem_live.mp he)
      simp only at hb
      refine .cons ⟨p, p, fileAt_moves.mpr ⟨by omega, rfl⟩, rfl, rfl⟩ ?_
      exact ih fun y hy => hin y (List.mem_cons_of_mem _ hy)
  exact hall live fun _ hx => hx

theorem Held.narrow (H : Held σ base cap live h) (F : Filed σ base cap) :
    Ok (confine σ base cap) (base + 64) (base + 48) (base + cap) h := F.narrow H.ok

theorem Living.wp_call (L : Living σ base cap live h) :
    wp D (perform (base + 64) live c)
      (fun r τ => ∃ h', Answered σ base cap live h c.target r.2 τ h' ∧
        Outcome σ (base + 64) (base + 48) (base + cap) h live c r.1 r.2 τ h') σ := by
  have H := L.held
  have F := L.homed.filed
  have hhigh := H.ok.core.arena.high
  have hrun : wp D (perform (base + 64) live c) (fun r τ => ∃ h',
      Outcome σ (base + 64) (base + 48) (base + cap) h live c r.1 r.2 τ h') σ :=
    H.ok.wp_perform H.blocks fun _ => L.trim
  have hkeeps : wp (fun _ => True) (perform (base + 64) live c)
      (fun _ τ => Filed τ base cap) σ := by
    apply F.wp_keeps (alike_perform fileAt_params (fileAt_moves.mpr ⟨by omega, rfl⟩)
      (H.fileMoves F) c)
    apply wp_mono ((H.narrow F).wp_perform H.blocks fun _ => L.homed.trim (by omega))
    exact fun _ _ _ => trivial
  apply wp_mono (wp_also hrun hkeeps)
  intro r τ hend
  obtain ⟨⟨h', R⟩, F'⟩ := hend
  have hf := R.frame H.ok
  refine ⟨h', ⟨L.after hf (R.ok H.ok) (R.blocks H.blocks) F', hf.mono fun b hb => ⟨?_, hb.2⟩, ?_⟩,
    R⟩
  · have h1 := hb.1
    omega
  · intro j a t hj ha hne
    refine ⟨R.stays H hj ha hne, fun b h1 h2 => ?_⟩
    have hothers := R.others H.ok H.blocks hj hne (i := b - (a + 16)) (by
      rw [H.ok.usableSize_eq ha]
      omega)
    rwa [show a + 16 + (b - (a + 16)) = b by omega] at hothers

/-! The other requests. -/

theorem homed_low (H : Homed σ base cap) {b : Nat} (h1 : base + 64 ≤ b) (h2 : b < base + cap)
    (hb : (σ.byte b).low? = none) : D .indeterminate := by
  obtain ⟨v, hv⟩ := H.filed.known (b - base) (by omega)
  rw [show base + (b - base) = b by omega] at hv
  rw [hv] at hb
  contradiction

theorem Living.wp_trim {pad : Nat} (L : Living σ base cap live h) :
    wp D (mspaceTrim (base + 64) pad) (fun _ τ => Answered σ base cap live h none live τ h) σ := by
  have H := L.held
  have F := L.homed.filed
  have hhigh := H.ok.core.arena.high
  have hrun : wp D (mspaceTrim (base + 64) pad) (fun _ τ =>
      Ok τ (base + 64) (base + 48) (base + cap) h ∧
        Frame (Own (base + 64) (base + cap) (Payload h.chunks)) σ τ) σ := by
    apply wp_sysTrim H.ok fun _ => L.trim
    exact fun _ _ O hf _ => ⟨O, hf⟩
  have hkeeps : wp (fun _ => True) (mspaceTrim (base + 64) pad) (fun _ τ => Filed τ base cap) σ := by
    apply F.wp_keeps (alike_sysTrim fileAt_params (fileAt_moves.mpr ⟨by omega, rfl⟩))
    apply wp_sysTrim (H.narrow F) fun _ => L.homed.trim (by omega)
    exact fun _ _ _ _ _ => trivial
  apply wp_mono (wp_also hrun hkeeps)
  intro _ τ hend
  obtain ⟨⟨O, hf⟩, F'⟩ := hend
  have hf' : Frame (Within (base + 64) (base + cap)) σ τ := hf.mono fun _ hb => ⟨hb.1, hb.2.1⟩
  refine ⟨L.after hf' O H.blocks F', hf'.mono fun b hb => ⟨?_, hb.2⟩, ?_⟩
  · have h1 := hb.1
    omega
  · intro _ a t _ ha _
    exact ⟨ha, fun b h1 h2 => hf.byte b fun hb =>
      hb.2.2 (Payload.live.mpr ⟨a, t, ha, h1, h2⟩)⟩

/-- A parameter is set. -/
theorem Living.setParam {o v : Nat} (L : Living σ base cap live h) (ho : 16 ≤ o) (ho' : o + 8 ≤ 40)
    (hv : o = 16 → v.isPowerOfTwo ∧ v < 2 ^ 64) (h24 : o = 16 ∨ 24 ≤ o) :
    Answered σ base cap live h none live (σ.put 8 (base + o) v) h := by
  have H := L.held
  have hhigh := H.ok.core.arena.high
  have hf : Frame (Within (base + o) (base + o + 8)) σ (σ.put 8 (base + o) v) :=
    (Frame.refl _ σ).put fun b h1 h2 => ⟨h1, h2⟩
  have O' : Ok (σ.put 8 (base + o) v) (base + 64) (base + 48) (base + cap) h :=
    H.ok.outside hf fun b h1 _ hb => by
      have h2 := hb.2
      omega
  obtain ⟨w, hw, h1⟩ := L.settled.magic
  obtain ⟨w', hw', h2⟩ := L.settled.page
  obtain ⟨g, hg, h3⟩ := L.settled.granularity
  simp only [paramMagic, paramPageSize, paramGranularity] at h1 h2 h3
  refine ⟨⟨Homed.stored.put 8 _ v L.homed, ⟨⟨w, hw, ?_⟩, ⟨w', hw', ?_⟩, ?_⟩, O', H.blocks, ?_⟩,
    hf.mono fun b hb => ?_, ?_⟩
  · rw [paramMagic, Machine.get_put_ne (by omega)]
    exact h1
  · rw [paramPageSize, Machine.get_put_ne (by omega)]
    exact h2
  · simp only [paramGranularity]
    cases h24 with
    | inl he =>
      subst he
      obtain ⟨hv0, hv64⟩ := hv rfl
      exact ⟨v, hv0, Machine.get_put_same (Machine.mapped_of_get h3) (by omega)⟩
    | inr he =>
      refine ⟨g, hg, ?_⟩
      rw [Machine.get_put_ne (by omega)]
      exact h3
  · rw [Machine.get_put_ne (by omega)]
    exact H.ownHead
  · have h1 := hb.1
    have h2 := hb.2
    exact ⟨by omega, by omega⟩
  · intro _ a t _ ha _
    refine ⟨ha, fun b h1 h2 => hf.byte b fun hb => ?_⟩
    have hc := H.ok.core.chunk_bounds (mem_live.mp ha)
    have h3 := hb.2
    simp only at hc
    omega

theorem Living.wp_initMparams {Q : Unit → State → Prop} (L : Living σ base cap live h)
    (hQ : Q () σ) : wp D initMparams Q σ := by
  obtain ⟨v, hv, hget⟩ := L.settled.page
  unfold initMparams
  rw [wp_bind, wp_globals, L.homed.params, wp_bind, wp_load hget,
    wp_if_neg (Nat.ne_of_gt (Nat.pos_of_isPowerOfTwo hv)), wp_pure]
  exact hQ

theorem sizeOfInt_lt (value : Int) : sizeOfInt value < 2 ^ 64 := by
  unfold sizeOfInt
  omega

/-- Whether `mallopt` takes the value, with pages of this size. -/
def Takes (page : Nat) (paramNumber value : Int) : Prop :=
  paramNumber = mTrimThreshold ∨ paramNumber = mMmapThreshold ∨
    paramNumber = mGranularity ∧ page ≤ sizeOfInt value ∧ (sizeOfInt value).isPowerOfTwo

/-- Where the parameter is kept. -/
def paramOf (pm : Nat) (paramNumber : Int) : Nat :=
  if paramNumber = mTrimThreshold then paramTrimThreshold pm
  else if paramNumber = mGranularity then paramGranularity pm
  else paramMmapThreshold pm

theorem Living.wp_mallopt {Q : Nat → State → Prop} {paramNumber value : Int} {page : Nat}
    (L : Living σ base cap live h) (hp : σ.get 8 (paramPageSize base) = some page)
    (hno : ¬ Takes page paramNumber value → Q 0 σ)
    (hyes : Takes page paramNumber value →
      Answered σ base cap live h none live
        (σ.put 8 (paramOf base paramNumber) (sizeOfInt value)) h →
      Q 1 (σ.put 8 (paramOf base paramNumber) (sizeOfInt value))) :
    wp D (mspaceMallopt paramNumber value) Q σ := by
  obtain ⟨g, hg, h1⟩ := L.settled.granularity
  obtain ⟨w, hw, h2⟩ := L.settled.page
  have hcov : ∀ a, base ≤ a → a + 8 ≤ base + 64 → σ.mapped a 8 = true := by
    intro a h1 h2
    have hhigh := L.held.ok.core.arena.high
    obtain ⟨v, hv⟩ := L.homed.filed.get (n := 8) (a := a) h1 (by omega)
    exact Machine.mapped_of_get hv
  have hlt := sizeOfInt_lt value
  obtain rfl := Option.some.inj (h2.symm.trans hp)
  simp only [Takes, paramOf] at hno hyes
  unfold mspaceMallopt changeMparam
  generalize sizeOfInt value = val at *
  rw [wp_bind]
  apply L.wp_initMparams
  rw [wp_bind, wp_globals, L.homed.params]
  simp only [paramTrimThreshold, paramGranularity, paramMmapThreshold] at h1 hyes ⊢
  by_cases htrim : paramNumber = mTrimThreshold
  · rw [wp_if_pos htrim, wp_bind, wp_store (hcov _ (by omega) (by omega)), wp_pure]
    rw [if_pos htrim] at hyes
    exact hyes (Or.inl htrim) (L.setParam (by omega) (by omega)
      (fun he => absurd he (by decide)) (Or.inr (by decide)))
  rw [wp_if_neg htrim]
  rw [if_neg htrim] at hyes
  by_cases hgran : paramNumber = mGranularity
  · rw [if_pos hgran] at hyes
    rw [wp_if_pos hgran, wp_bind, wp_load h2]
    by_cases hok : val ≥ w ∧ val &&& subSize val 1 = 0
    · rw [wp_if_pos hok, wp_bind, wp_store (hcov _ (by omega) (by omega)), wp_pure]
      have hpage := Nat.pos_of_isPowerOfTwo hw
      obtain ⟨hge, hbits⟩ := hok
      rw [subSize_le (by omega) hlt] at hbits
      have hpow : val.isPowerOfTwo :=
        (Nat.and_sub_one_eq_zero_iff_isPowerOfTwo (by omega)).mp hbits
      exact hyes (Or.inr (Or.inr ⟨hgran, hge, hpow⟩)) (L.setParam (by omega) (by omega)
        (fun _ => ⟨hpow, hlt⟩) (Or.inl rfl))
    · rw [wp_if_neg hok, wp_pure]
      apply hno
      rintro (ht | hm | ⟨_, hge, hpow⟩)
      · exact htrim ht
      · rw [hm] at hgran
        exact absurd hgran (by decide)
      · have hpos := Nat.pos_of_isPowerOfTwo hpow
        refine hok ⟨hge, ?_⟩
        rw [subSize_le hpos hlt]
        exact (Nat.and_sub_one_eq_zero_iff_isPowerOfTwo (by omega)).mpr hpow
  rw [wp_if_neg hgran]
  rw [if_neg hgran] at hyes
  by_cases hmmap : paramNumber = mMmapThreshold
  · rw [wp_if_pos hmmap, wp_bind, wp_store (hcov _ (by omega) (by omega)), wp_pure]
    exact hyes (Or.inr (Or.inl hmmap)) (L.setParam (by omega) (by omega)
      (fun he => absurd he (by decide)) (Or.inr (by decide)))
  · rw [wp_if_neg hmmap, wp_pure]
    apply hno
    rintro (ht | hm | ⟨hg, _⟩)
    · exact htrim ht
    · exact hmmap hm
    · exact hgran hg

/-! The array of pointers. -/

theorem ArrayOf.inside (hA : ArrayOf live h n into chunks) {b : Nat} (hb : InArray chunks n b) :
    ∃ k p s, into = some k ∧ live[k]? = some (p + 16) ∧ (p, s) ∈ h.live ∧ p + 16 ≤ b ∧
      b < p + s + 8 := by
  obtain ⟨h0, h1, h2⟩ := hb
  cases hA with
  | own => exact absurd rfl h0
  | @given k p s hk hp hs => exact ⟨k, p, s, rfl, hk, hp, h1, by omega⟩

theorem ArrayOf.payload (hA : ArrayOf live h n into chunks) {b : Nat} (hb : InArray chunks n b) :
    Payload h.chunks b := by
  obtain ⟨_, p, s, _, _, hp, h1, h2⟩ := hA.inside hb
  exact Payload.live.mpr ⟨p, s, hp, h1, h2⟩

theorem ArrayOf.mapped (hA : ArrayOf live h n into chunks) (L : Living σ base cap live h)
    (h0 : chunks ≠ 0) {a : Nat} (h1 : chunks ≤ a) (h2 : a + 8 ≤ chunks + 8 * n) :
    σ.mapped a 8 = true := by
  cases hA with
  | own => exact absurd rfl h0
  | @given _ p s _ hp hs =>
    have hb := L.held.ok.core.chunk_bounds (mem_live.mp hp)
    simp only at hb
    exact L.held.ok.core.arena.covers (by omega) (by omega)

/-- A block that is to take the array is there, and large enough. -/
theorem Living.wp_arrayFor {Q : Option Nat → State → Prop} (L : Living σ base cap live h)
    (hnone : Q none σ) (hsome : ∀ chunks, ArrayOf live h n into chunks → Q (some chunks) σ) :
    wp D (arrayFor live n into) Q σ := by
  cases into with
  | none => exact hsome 0 .own
  | some k =>
    simp only [arrayFor]
    cases hk : live[k]? with
    | none => exact hnone
    | some x =>
      obtain ⟨p, s, rfl, hp⟩ := L.held.blocks.chunk hk
      have hb := L.held.ok.core.chunk_bounds (mem_live.mp hp)
      simp only at hb
      simp only [wp_bind]
      apply L.held.ok.wp_usableSize hp
      rw [wp_pure]
      by_cases hfit : 8 * n ≤ s - 8
      · rw [if_pos hfit]
        exact hsome _ (.given hk hp (by omega))
      · rw [if_neg hfit]
        exact hnone

theorem wp_readArray {Q : List Nat → State → Prop} (hl : Listed σ a cs)
    (hQ : Q (cs.map fun c => chunk2mem c.addr) σ) : wp D (readArray a cs.length) Q σ := by
  induction cs generalizing a Q with
  | nil => exact hQ
  | cons c cs ih =>
    have h0 := hl 0 c rfl
    rw [Nat.mul_zero, Nat.add_zero] at h0
    rw [List.length_cons, readArray, wp_bind, wp_load h0, wp_bind]
    apply ih
    · intro j d hd
      have hj := hl (j + 1) d hd
      rw [← hj]
      congr 1
      omega
    · exact hQ

/-- The elements and the array are live from then on. -/
def withElements (live : List Nat) (chunks a : Nat) (cs : List Chunk) : List Nat :=
  (cs.map fun c => chunk2mem c.addr) ++ if chunks = 0 then a :: live else live

theorem Living.supplied (L : Living σ base cap live h) (hA : ArrayOf live h zs.length into chunks)
    (hsup : Supplies (fun σ => Homed σ base cap) σ (base + 64) (base + 48) (base + cap) h zs zero
      chunks a cs S υ h') :
    Answered σ base cap live h into (withElements live chunks a cs) υ h' := by
  obtain ⟨ω, hf, G⟩ := hsup.grants
  apply L.granted (fun b hb => hA.inside hb) hf G
  have hcs : (cs.map fun c => chunk2mem c.addr) = (pairs cs).map blockOf := by
    rw [pairs, List.map_map]
    rfl
  rw [withElements, hcs, List.map_append, List.append_assoc]
  apply List.Perm.append_left
  cases hsup.slots with
  | own q s _ =>
    rw [if_pos rfl]
    exact List.Perm.refl _
  | given _ _ hne =>
    rw [if_neg hne]
    exact List.Perm.refl _

theorem Supplies.array_ne {m lo hi : Nat} {K : State → Prop}
    (hsup : Supplies K σ m lo hi h zs zero chunks a cs S υ h') : a ≠ 0 := by
  cases hsup.slots with
  | own => omega
  | given _ _ hne => exact hne

theorem Supplies.wp_collect {Q : Nat × List Nat → State → Prop} {m lo hi : Nat}
    {K : State → Prop}
    (hsup : Supplies K σ m lo hi h zs zero chunks a cs S υ h')
    (hQ : Q (a, withElements live chunks a cs) υ) :
    wp D (collect live chunks zs.length a) Q υ := by
  have hlen := hsup.sizes.length_eq
  unfold collect
  rw [wp_if_neg hsup.array_ne, wp_bind, hlen]
  apply wp_readArray hsup.listed
  exact hQ

/-! Every request. -/

/-- A chunk with a block of at least `n` bytes is given. -/
structure Given (σ : State) (base cap : Nat) (live : List Nat) (h : Heap) (n v s : Nat) (τ : State)
    (h' : Heap) : Prop where
  grants : Grants (fun σ => Homed σ base cap) σ (base + 64) (base + 48) (base + cap) h [(v, s)] τ h'
  large : n + 8 ≤ s
  answered : Answered σ base cap live h none ((v + 16) :: live) τ h'

theorem Living.given {v : Nat} (L : Living σ base cap live h)
    (G : Grants (fun σ => Homed σ base cap) σ (base + 64) (base + 48) (base + cap) h [(v, s)] τ h')
    (hs : n + 8 ≤ s) : Given σ base cap live h n v s τ h' :=
  ⟨G, hs, L.gives G (List.Perm.refl _)⟩

theorem Living.wp_calloc {Q : Nat → State → Prop} (L : Living σ base cap live h)
    (h0 : h.Refuses (callocRequest n e) → Q 0 σ)
    (hQ : ∀ v s τ h', n * e < 2 ^ 64 → Given σ base cap live h (n * e) v s τ h' →
      (∀ b, v + 16 ≤ b → b < v + 16 + n * e → τ.byte b = .known 0) → Q (v + 16) τ) :
    wp D (mspaceCalloc (base + 64) n e) Q σ := by
  apply L.held.ok.wp_mspaceCalloc homed_lasting L.homed h0
  intro hlt v s τ h' G hs hz
  exact hQ v s τ h' hlt (L.given G hs) hz

theorem Living.wp_memalign {Q : Nat → State → Prop} {alignment bytes : Nat}
    (L : Living σ base cap live h) (ha : alignment ≤ 2 ^ 63)
    (h0 : (bytes < maxRequest → h.Refuses (memalignRequest alignment bytes)) → Q 0 σ)
    (hQ : ∀ v s j τ h', Given σ base cap live h bytes v s τ h' → alignment ≤ 2 ^ j →
      2 ^ j ∣ v + 16 → (8 < alignment → s ≤ request2size bytes + 32) → Q (v + 16) τ) :
    wp D (mspaceMemalign (base + 64) alignment bytes) Q σ := by
  apply L.held.ok.wp_mspaceMemalign L.trim homed_lasting L.homed ha
  · exact fun τ H b h1 h2 hb => homed_low H h1 h2 hb
  · exact h0
  · intro v s j τ h' G hs hle hdvd hsmall
    exact hQ v s j τ h' (L.given G hs) hle hdvd hsmall

/-- The elements of an array are given. -/
structure GivenArray (σ : State) (base cap : Nat) (live : List Nat) (h : Heap) (zs : List Nat)
    (zero : Prop) (into : Option Nat) (chunks a : Nat) (cs : List Chunk) (τ : State) (h' : Heap) :
    Prop where
  supplies : ∃ S, Supplies (fun σ => Homed σ base cap) σ (base + 64) (base + 48) (base + cap) h zs
    zero chunks a cs S τ h'
  answered : Answered σ base cap live h into (withElements live chunks a cs) τ h'

theorem total_own (zs : List Nat) (chunks : Nat) : iallocTotal zs chunks ≤ iallocTotal zs 0 := by
  unfold iallocTotal
  rw [if_neg (fun h : (0 : Nat) ≠ 0 => h rfl)]
  by_cases hc : chunks ≠ 0
  · rw [if_pos hc]
    omega
  · rw [if_neg hc]

theorem Living.wp_independentCalloc {Q : Nat → State → Prop} (L : Living σ base cap live h)
    (hq : (Request.independentCalloc n e into).Fair) (hA : ArrayOf live h n into chunks)
    (h0 : h.Refuses (iallocTotal (List.replicate n (request2size e)) chunks - 8) → Q 0 σ)
    (hQ : ∀ a cs τ h', GivenArray σ base cap live h (List.replicate n (request2size e)) True into
      chunks a cs τ h' → Q a τ) :
    wp D (mspaceIndependentCalloc (base + 64) n e chunks) Q σ := by
  have hlen : (List.replicate n (request2size e)).length = n := List.length_replicate
  apply L.held.ok.wp_mspaceIndependentCalloc homed_lasting L.homed hq.1
  · exact Nat.lt_of_le_of_lt (total_own _ _) hq.2
  · exact fun b _ _ hb => hA.payload hb
  · exact fun hne a h1 h2 => hA.mapped L hne h1 h2
  · exact h0
  · intro a cs S τ h' hsup
    refine hQ a cs τ h' ⟨⟨S, hsup⟩, L.supplied ?_ hsup⟩
    rw [hlen]
    exact hA

theorem Living.wp_independentComalloc {Q : Nat → State → Prop} (L : Living σ base cap live h)
    (hq : (Request.independentComalloc sizes into).Fair)
    (hA : ArrayOf live h sizes.length into chunks)
    (h0 : h.Refuses (iallocTotal (sizes.map request2size) chunks - 8) → Q 0 σ)
    (hQ : ∀ a cs τ h', GivenArray σ base cap live h (sizes.map request2size) False into
      chunks a cs τ h' → Q a τ) :
    wp D (mspaceIndependentComalloc (base + 64) sizes.length sizes chunks) Q σ := by
  apply L.held.ok.wp_mspaceIndependentComalloc homed_lasting L.homed hq.1
  · exact Nat.lt_of_le_of_lt (total_own _ _) hq.2
  · exact fun b _ _ hb => hA.payload hb
  · exact fun hne a h1 h2 => hA.mapped L hne h1 h2
  · exact h0
  · intro a cs S τ h' hsup
    refine hQ a cs τ h' ⟨⟨S, hsup⟩, L.supplied ?_ hsup⟩
    rw [List.length_map]
    exact hA

/-- What a client gets of one block. -/
theorem Given.wp_live {Q : Nat × List Nat → State → Prop} {v : Nat}
    (G : Given σ base cap live h n v s τ h')
    (hQ : ∀ r, Answered σ base cap live h none r.2 τ h' → Q r τ) :
    wp D (pure (v + 16, if v + 16 = 0 then live else (v + 16) :: live)) Q τ := by
  rw [wp_pure, if_neg (by omega)]
  exact hQ _ G.answered

theorem Living.wp_serve {q : Request} (L : Living σ base cap live h) (hq : q.Fair) :
    wp D (serve (base + 64) live q) (fun r τ => ∃ h', Answered σ base cap live h q.target r.2 τ h')
      σ := by
  cases q with
  | call c =>
    apply wp_mono L.wp_call
    intro r τ hend
    obtain ⟨h', hans, _⟩ := hend
    exact ⟨h', hans⟩
  | calloc n e =>
    rw [serve, wp_bind]
    apply L.wp_calloc
    · exact fun _ => ⟨h, L.same none⟩
    · exact fun v s τ h' _ G _ => G.wp_live fun _ hend => ⟨h', hend⟩
  | memalign alignment bytes =>
    rw [serve, wp_bind]
    apply L.wp_memalign hq
    · exact fun _ => ⟨h, L.same none⟩
    · exact fun v s j τ h' G _ _ _ => G.wp_live fun _ hend => ⟨h', hend⟩
  | independentCalloc n e into =>
    rw [serve, wp_bind]
    apply L.wp_arrayFor
    · exact ⟨h, L.same into⟩
    · intro chunks hA
      rw [wp_bind]
      apply L.wp_independentCalloc hq hA
      · exact fun _ => ⟨h, L.same into⟩
      · intro a cs τ h' G
        obtain ⟨S, hsup⟩ := G.supplies
        have hrun : wp D (collect live chunks (List.replicate n (request2size e)).length a)
            (fun r τ => ∃ h', Answered σ base cap live h into r.2 τ h') τ :=
          hsup.wp_collect ⟨h', G.answered⟩
        rwa [List.length_replicate] at hrun
  | independentComalloc sizes into =>
    rw [serve, wp_bind]
    apply L.wp_arrayFor
    · exact ⟨h, L.same into⟩
    · intro chunks hA
      rw [wp_bind]
      apply L.wp_independentComalloc hq hA
      · exact fun _ => ⟨h, L.same into⟩
      · intro a cs τ h' G
        obtain ⟨S, hsup⟩ := G.supplies
        have hrun : wp D (collect live chunks (sizes.map request2size).length a)
            (fun r τ => ∃ h', Answered σ base cap live h into r.2 τ h') τ :=
          hsup.wp_collect ⟨h', G.answered⟩
        rwa [List.length_map] at hrun
  | trim pad =>
    rw [serve, wp_bind]
    exact wp_mono L.wp_trim fun _ τ hend => ⟨h, hend⟩
  | mallopt paramNumber value =>
    rw [serve, wp_bind]
    obtain ⟨page, _, hp⟩ := L.settled.page
    apply L.wp_mallopt hp
    · exact fun _ => ⟨h, L.same none⟩
    · exact fun _ hans => ⟨h, hans⟩

end

end Mmdata.Proofs
