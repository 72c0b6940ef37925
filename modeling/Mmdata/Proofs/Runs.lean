import Mmdata.Malloc.Client
import Mmdata.Proofs.InitSpec

namespace Mmdata.Proofs
open Lib Malloc

/-- Everything one call can do to a heap and its client. -/
inductive Outcome (σ : State) (m lo hi : Nat) (h : Heap) (live : List Nat) :
    Call → Nat → List Nat → State → Heap → Prop
  | nothing {c : Call} : Outcome σ m lo hi h live c 0 live σ h
  | given {n v s : Nat} {τ : State} {h' : Heap} : Ok τ m lo hi h' →
      h'.live.Perm ((v, s) :: h.live) → n + 8 ≤ s → h'.exts = addSize h.exts s →
      Frame (Own m hi (Payload h.chunks)) σ τ →
      Outcome σ m lo hi h live (.malloc n) (v + 16) ((v + 16) :: live) τ h'
  | taken {k p s : Nat} {τ : State} {h' : Heap} : live[k]? = some (p + 16) → (p, s) ∈ h.live →
      Ok τ m lo hi h' → h.live.Perm ((p, s) :: h'.live) → h'.exts = subSize h.exts s →
      Frame (Own m hi (Payload h'.chunks)) σ τ →
      Outcome σ m lo hi h live (.free k) 0 (live.eraseIdx k) τ h'
  | resized {k n p s v s' : Nat} {τ : State} {h' : Heap} : live[k]? = some (p + 16) →
      (p, s) ∈ h.live → Resizes σ m lo hi h p s n τ h' v s' →
      Outcome σ m lo hi h live (.realloc k n) (v + 16) (live.set k (v + 16)) τ h'
  | written {k i p s : Nat} {b : UInt8} : live[k]? = some (p + 16) → (p, s) ∈ h.live → i + 8 < s →
      Outcome σ m lo hi h live (.write k i b) 0 live (σ.put 1 (p + 16 + i) b.toNat) h

/-- What the client knows of a chunk in use. -/
def blockOf (e : Nat × Nat) : Nat := e.1 + 16

/-- The live blocks of a client are the chunks in use. -/
def Blocks (live : List Nat) (h : Heap) : Prop := live.Perm (h.live.map blockOf)

/-- The call makes top exceed the trim threshold: `sys_trim` looks at the granularity. -/
def CallTrims (σ : State) (m : Nat) (h : Heap) (live : List Nat) : Call → Prop
  | .free k => ∃ p s, live[k]? = some (p + 16) ∧ (p, s) ∈ h.live ∧ FreeTrims σ m h p s
  | .realloc k n => ∃ p s, live[k]? = some (p + 16) ∧ (p, s) ∈ h.live ∧ ReallocTrims σ m h p s n
  | _ => False

section

variable {D : Trap → Prop} {σ τ : State} {m lo hi p s v k base cap ms : Nat} {h h' : Heap}
  {live live' : List Nat} {c : Call}

theorem Blocks.chunk (B : Blocks live h) {x : Nat} (hk : live[k]? = some x) :
    ∃ p s, x = p + 16 ∧ (p, s) ∈ h.live := by
  have hx : x ∈ live := List.mem_of_getElem? hk
  obtain ⟨⟨p, s⟩, he, rfl⟩ := List.mem_map.mp (B.mem_iff.mp hx)
  exact ⟨p, s, rfl, he⟩

/-- `mspace_usable_size` of a live block. -/
theorem Ok.wp_usableSize {Q : Nat → State → Prop} (O : Ok σ m lo hi h) (hp : (p, s) ∈ h.live)
    (hQ : Q (s - 8) σ) : wp D (mspaceUsableSize (p + 16)) Q σ := by
  have hpm := mem_live.mp hp
  obtain ⟨_, hs8, hs32, _, hphi⟩ := O.core.chunk_bounds hpm
  obtain ⟨_, _, pu, hc⟩ := O.core.tiled.mem hpm
  have hword := O.core.arena.word
  have hhead := hc.head
  simp only at hs8 hs32 hphi hhead
  unfold mspaceUsableSize
  rw [wp_if_neg (by omega)]
  simp only [wp_bind, mem2chunk, Nat.add_sub_cancel]
  rw [wp_cinuse hhead hs8, wp_if_pos rfl]
  simp only [wp_bind]
  rw [wp_chunksize hhead hs8]
  refine O.core.wp_overheadFor hpm ?_
  rw [subSize_le (by omega) (by omega), wp_pure]
  exact hQ

/-- A call ends in one of the outcomes. -/
theorem Ok.wp_perform (O : Ok σ m lo hi h) (B : Blocks live h)
    (T : CallTrims σ m h live c → TrimOk D σ m hi) :
    wp D (perform m live c) (fun r τ => ∃ h', Outcome σ m lo hi h live c r.1 r.2 τ h') σ := by
  cases c with
  | malloc n =>
    simp only [perform, wp_bind]
    apply wp_mspaceMalloc O
    · exact fun _ => ⟨h, .nothing⟩
    · intro _ v τ h' s O' hl hs he hf
      rw [if_neg (by omega)]
      exact ⟨h', .given O' hl hs he (own_of_quiet hf)⟩
  | free k =>
    simp only [perform]
    cases hk : live[k]? with
    | none => exact ⟨h, .nothing⟩
    | some x =>
      obtain ⟨p, s, rfl, hp⟩ := B.chunk hk
      simp only [wp_bind]
      apply O.wp_mspaceFree (fun hT => T ⟨p, s, hk, hp, hT⟩) hp
      intro τ h' O' hl he hf _
      exact ⟨h', .taken hk hp O' hl he hf⟩
  | realloc k n =>
    simp only [perform]
    cases hk : live[k]? with
    | none => exact ⟨h, .nothing⟩
    | some x =>
      obtain ⟨p, s, rfl, hp⟩ := B.chunk hk
      simp only [mspaceRealloc]
      rw [if_neg (by omega), wp_bind]
      apply O.wp_internalRealloc (fun hT => T ⟨p, s, hk, hp, hT⟩) hp
      · exact fun _ => ⟨h, .nothing⟩
      · intro v s' τ h' R _
        rw [wp_pure, if_neg (by omega)]
        exact ⟨h', .resized hk hp R⟩
  | write k i b =>
    simp only [perform]
    cases hk : live[k]? with
    | none => exact ⟨h, .nothing⟩
    | some x =>
      obtain ⟨p, s, rfl, hp⟩ := B.chunk hk
      have hb := O.core.chunk_bounds (mem_live.mp hp)
      simp only at hb
      simp only [wp_bind]
      apply O.wp_usableSize hp
      by_cases hi' : i < s - 8
      · rw [wp_if_pos hi', wp_bind]
        refine O.core.arena.wp_store rfl (by omega) (by omega) ?_
        exact ⟨h, .written hk hp (by omega)⟩
      · rw [wp_if_neg hi']
        exact ⟨h, .nothing⟩

/-- A call leaves a heap. -/
theorem Outcome.ok (R : Outcome σ m lo hi h live c v live' τ h') (O : Ok σ m lo hi h) :
    Ok τ m lo hi h' := by
  cases R with
  | nothing => exact O
  | given O' => exact O'
  | taken _ _ O' => exact O'
  | resized _ _ hR => exact hR.ok
  | @written _ i p s b _ hp hi' =>
    have hf : Frame (fun b => p + 16 + i ≤ b ∧ b < p + 16 + i + 1) σ
        (σ.put 1 (p + 16 + i) b.toNat) :=
      (Frame.refl _ σ).put fun b h1 h2 => ⟨h1, h2⟩
    apply O.payload_frame hf
    intro b hb
    exact Payload.live.mpr ⟨p, s, hp, by omega, by omega⟩

theorem Blocks.erase (B : Blocks live h) (hk : live[k]? = some (p + 16))
    {L : List (Nat × Nat)} (hl : h.live.Perm ((p, s) :: L)) :
    (live.eraseIdx k).Perm (L.map blockOf) := by
  obtain ⟨hlt, hget⟩ := List.getElem?_eq_some_iff.mp hk
  have hcons : live.Perm ((p + 16) :: live.eraseIdx k) := by
    have he := List.getElem_cons_eraseIdx_perm hlt
    rw [hget] at he
    exact he.symm
  have hmap : live.Perm ((p + 16) :: L.map blockOf) := B.trans (hl.map blockOf)
  exact (hcons.symm.trans hmap).cons_inv

theorem Outcome.blocks (R : Outcome σ m lo hi h live c v live' τ h') (B : Blocks live h) :
    Blocks live' h' := by
  cases R with
  | nothing => exact B
  | given _ hl => exact (B.cons _).trans (hl.map blockOf).symm
  | taken hk _ _ hl => exact B.erase hk hl
  | @resized k _ _ _ w _ _ _ hk _ hR =>
    obtain ⟨L, hl, hl'⟩ := hR.live
    obtain ⟨hlt, _⟩ := List.getElem?_eq_some_iff.mp hk
    have hset : (live.set k (w + 16)).Perm ((w + 16) :: live.eraseIdx k) :=
      List.set_perm_cons_eraseIdx hlt _
    exact hset.trans (((B.erase hk hl).cons _).trans (hl'.map blockOf).symm)
  | written => exact B

/-- A call writes inside the arena only. -/
theorem Outcome.frame (R : Outcome σ m lo hi h live c v live' τ h') (O : Ok σ m lo hi h) :
    Frame (Within m hi) σ τ := by
  have hown : ∀ {P : Nat → Prop} {τ : State}, Frame (Own m hi P) σ τ → Frame (Within m hi) σ τ :=
    fun hf => hf.mono fun _ hb => ⟨hb.1, hb.2.1⟩
  cases R with
  | nothing => exact Frame.refl _ σ
  | given _ _ _ _ hf => exact hown hf
  | taken _ _ _ _ _ hf => exact hown hf
  | resized _ _ hR => exact hown hR.frame
  | written _ hp =>
    have hb := O.core.chunk_bounds (mem_live.mp hp)
    simp only at hb
    exact (Frame.refl _ σ).put fun b h1 h2 => ⟨by omega, by omega⟩

/-- What holds between the calls of a run: the heap `h`, its client's blocks, and
the head of the malloc_state's own chunk. -/
structure Held (σ : State) (base cap : Nat) (live : List Nat) (h : Heap) : Prop where
  ok : Ok σ (base + 64) (base + 48) (base + cap) h
  blocks : Blocks live h
  ownHead : σ.get 8 (base + 56) = some (headWord 936 true true)

theorem Held.outcome (H : Held σ base cap live h)
    (R : Outcome σ (base + 64) (base + 48) (base + cap) h live c v live' τ h') :
    Held τ base cap live' h' := by
  refine ⟨R.ok H.ok, R.blocks H.blocks, ?_⟩
  rw [(R.frame H.ok).get]
  · exact H.ownHead
  · intro b h1 h2 hb
    have hl := hb.1
    omega

/-- Trimming has what it needs, wherever the arena is written. -/
theorem TrimOk.within (T : TrimOk D σ m hi) (hf : Frame (Within m hi) σ τ) : TrimOk D τ m hi := by
  apply T.frame (P := fun _ => False)
  exact hf.mono fun b hb => ⟨hb.1, hb.2, id⟩

theorem wp_any {α : Type} (x : Code α) : wp (fun _ => True) x (fun _ _ => True) σ := by
  unfold wp
  split <;> trivial

/-- A capacity that leaves no room is refused. -/
theorem capacity_large {locked recreate : Nat}
    (hr : createMspaceWithBase base cap locked recreate σ = .ok (ms, τ)) (h0 : ms ≠ 0) :
    mstateSize + topFootSize < cap := by
  by_contra hle
  have hnull : wp (fun _ => True) (createMspaceWithBase base cap locked recreate)
      (fun r _ => r = 0) σ := by
    unfold createMspaceWithBase
    simp only [wp_bind]
    apply wp_mono (wp_any _)
    intro _ _ _
    apply wp_mono (wp_any _)
    intro _ _ _
    apply wp_mono (wp_any _)
    intro magic _ _
    simp only [gt_iff_lt, if_neg hle]
    generalize (if magic ≠ 0 ∧ recreate = 0 then 0 else 1) = first
    by_cases hf : first ≠ 0
    · rw [wp_if_pos hf, wp_bind]
      exact wp_mono (wp_any _) fun _ _ _ => rfl
    · rw [wp_if_neg hf]
      rfl
  exact h0 (wp_ok hnull hr)

theorem ready_known (R : Ready σ base cap) {a n : Nat} (h1 : base ≤ a) (h2 : a + n ≤ base + 48)
    (hm : σ.mapped a n = true) : σ.get n a ≠ none := by
  have hload : ∀ n a, base ≤ a → a + n ≤ base + 48 → loadLE σ.byte a n ≠ none := by
    intro n
    induction n with
    | zero => simp [loadLE]
    | succ n ih =>
      intro a h1 h2
      obtain ⟨v, hv⟩ := R.known a h1 (by simp only [mallocParamsSize]; omega)
      have hrest := ih (a + 1) (by omega) (by omega)
      simp only [loadLE, hv, Cell.get?]
      cases hl : loadLE σ.byte (a + 1) n with
      | none => exact absurd hl hrest
      | some r => simp
  simp only [Machine.get, hm, if_true]
  exact hload n a h1 h2

/-- Creation may go wrong in one way only: later, over a granularity of zero. -/
theorem ready_buffer (R : Ready σ base cap) (hl : mstateSize + topFootSize < cap) :
    Buffer (· = .divZero) σ base cap := by
  obtain ⟨k, hk3, hk64, hpage⟩ := R.page
  have hlt : 2 ^ k < 2 ^ 64 := Nat.pow_lt_pow_right (by decide) hk64
  have hpos : 0 < 2 ^ k := Nat.two_pow_pos k
  have hmap : ∀ a n, base ≤ a → a + n ≤ base + cap → σ.mapped a n = true := by
    intro a n h1 h2
    obtain ⟨r, hr, hlo, hhi⟩ := R.mapped
    exact Machine.mapped_of_mem hr (by omega) (by omega)
  refine ⟨R.align, ?_, hl, R.word, R.mapped, ?_, ?_, ?_, fun _ _ => rfl⟩
  · have h8 : 2 ^ 3 ∣ cap := Nat.dvd_trans (Nat.pow_dvd_pow 2 hk3) (hpage ▸ R.pages)
    exact Nat.mod_eq_zero_of_dvd h8
  · intro e he
    simp only [mstateSize, topFootSize] at hl
    have hin : e.1 + e.2 ≤ 48 := by
      simp only [paramWords, List.mem_cons, List.not_mem_nil, or_false] at he
      rcases he with rfl | rfl | rfl | rfl | rfl <;> decide
    have hm := hmap (base + e.1) e.2 (by omega) (by omega)
    exact ⟨hm, fun hn => absurd hn (ready_known R (by omega) (by omega) hm)⟩
  · rw [hpage]
    exact hlt
  · have hsub : subSize (2 ^ k) 1 = 2 ^ k - 1 := subSize_le hpos hlt
    rw [hpage, hsub, Nat.and_two_pow_sub_one_eq_mod, Nat.mod_self]

/-- Creation refuses the capacity or leaves an empty heap. -/
theorem ready_created {locked recreate : Nat} (R : Ready σ base cap) (hrec : recreate ≠ 0)
    (hl : mstateSize + topFootSize < cap) :
    wp (· = .divZero) (createMspaceWithBase base cap locked recreate) (fun r τ => r ≠ 0 →
      r = base + 64 ∧ TrimOk (· = .divZero) τ (base + 64) (base + cap) ∧
        ∃ h, Held τ base cap [] h) σ := by
  apply (ready_buffer R hl).wp_createMspaceWithBase hrec
  · intro τ _ _ hc
    exact absurd rfl hc
  · intro τ O hown _ T _ _
    exact ⟨rfl, T, _, O, List.Perm.refl _, hown⟩

/-- The invariant holds in every state reached. -/
theorem reach_held (R : Reach base cap ms σ live) : ms = base + 64 ∧
    TrimOk (· = .divZero) σ (base + 64) (base + cap) ∧ ∃ h, Held σ base cap live h := by
  induction R with
  | created hR hrec hr h0 => exact wp_ok (ready_created hR hrec (capacity_large hr h0)) hr h0
  | step _ hr ih =>
    obtain ⟨rfl, T, h, H⟩ := ih
    obtain ⟨h', hout⟩ := wp_ok (H.ok.wp_perform H.blocks fun _ => T) hr
    exact ⟨rfl, T.within (hout.frame H.ok), h', H.outcome hout⟩

/-- A list of calls takes one reached state to another. -/
theorem reach_all {cs : List Call} {vs : List Nat} (R : Reach base cap ms σ live)
    (hr : performAll ms cs live σ = .ok ((vs, live'), τ)) : Reach base cap ms τ live' := by
  induction cs generalizing σ live vs with
  | nil =>
    cases hr
    exact R
  | cons c cs ih =>
    obtain ⟨⟨v, live₁⟩, υ, hc, hrest⟩ := bind_ok hr
    obtain ⟨⟨vs, live₂⟩, ω, hcs, hpure⟩ := bind_ok hrest
    cases hpure
    exact ih (.step R hc) hcs

theorem reach_session {locked : Nat} {cs : List Call} {vs : List Nat} (hR : Ready σ base cap)
    (hr : session base cap locked cs σ = .ok ((ms, vs, live), τ)) (h0 : ms ≠ 0) :
    Reach base cap ms τ live := by
  obtain ⟨ms', υ, hc, hrest⟩ := bind_ok hr
  by_cases hz : ms' = 0
  · rw [if_pos hz] at hrest
    cases hrest
    exact absurd rfl h0
  · rw [if_neg hz] at hrest
    obtain ⟨⟨vs, live₁⟩, ω, hcs, hpure⟩ := bind_ok hrest
    cases hpure
    exact reach_all (.created hR (by decide) hc hz) hcs

/-- A process with one buffer of zeros, 16 pages large. -/
def zeroed : State := ⟨fun _ => .known 0, [(4096, 69632)], ⟨0, 4096⟩⟩

theorem zeroed_ready : Ready zeroed 4096 65536 := by
  refine ⟨by decide, ⟨12, by decide, by decide, rfl⟩, by decide, by decide, ?_, ?_⟩
  · exact ⟨(4096, 69632), List.mem_cons_self, by decide, by decide⟩
  · exact fun b _ _ => ⟨0, rfl⟩

end

end Mmdata.Proofs
