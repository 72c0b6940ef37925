import Mmdata.Proofs.Growth
import Mmdata.Proofs.Moved
import Mmdata.Proofs.Relocating
import Mmdata.Proofs.HeapSound

namespace Mmdata.Proofs
open Lib Malloc Relocation

/-- The states of an image, from its creation on: clients make requests, the segment grows,
and processes map the file at other addresses and attach to it. -/
inductive Life : Nat → Nat → Nat → State → List Nat → Prop
  | created {base cap ms locked recreate k : Nat} {σ τ : State} : Filed σ base cap →
      cap % 8 = 0 → 3 ≤ k ∧ k < 64 ∧ σ.glob.pageSize = 2 ^ k →
      σ.get 8 (paramPageSize base) = some 0 ∨ Settled σ base → recreate ≠ 0 →
      createMspaceWithBase base cap locked recreate σ = .ok (ms, τ) → ms ≠ 0 →
      Life base cap ms τ []
  | served {base cap ms v : Nat} {σ τ : State} {live live' : List Nat} {q : Request} :
      Life base cap ms σ live → q.Fair → serve ms live q σ = .ok ((v, live'), τ) →
      Life base cap ms τ live'
  | grown {base cap inc ms : Nat} {σ τ : State} {live : List Nat} :
      Life base cap ms σ live → Filed σ base (cap + inc) → inc % 8 = 0 →
      mspaceIncSize ms inc σ = .ok ((), τ) → Life base (cap + inc) ms τ live
  | attached {a b cap ms ms' locked : Nat} {σ τ υ : State} {live : List Nat} :
      Life a cap ms σ live → Filed τ b cap → SameBytes a b cap σ τ →
      createMspaceWithBase b cap locked 0 τ = .ok (ms', υ) → ms' ≠ 0 →
      Life b cap ms' υ (live.map (rebase a b))

def Whatever (_ _ : Globals) : Prop := True

/-- The stretch at `a`, and its copy at `b`. -/
def shifting (a b n : Nat) (low : 64 ≤ a) (pos : 0 < b) (srcWord : a + n ≤ 2 ^ 64)
    (dstWord : b + n ≤ 2 ^ 64) (align : a % 8 = b % 8) : Relocation Globals where
  src := a
  dst := b
  size := n
  cell := Eq
  glob := Whatever
  exact := True
  low := low
  pos := pos
  srcWord := srcWord
  dstWord := dstWord
  align := align
  known := known_stays
  get := same_get
  lowBit := same_low
  setLow := same_setLow
  exactGet := same_unknown
  exactLow := same_unknownLow

section

variable {D : Trap → Prop} {σ τ : State} {a b base cap ms locked recreate k : Nat} {h : Heap}
  {live : List Nat}

theorem Filed.aim (F : Filed σ base cap) (pm : Nat) : Filed (aimed σ pm) base cap :=
  ⟨F.behind, F.align, F.word, F.mapped, F.null, F.known⟩

/-! Creation. -/

theorem Filed.confined (F : Filed σ base cap) : Filed (confine σ base cap) base cap := by
  have hb := F.behind
  refine ⟨F.behind, F.align, F.word, ⟨_, List.mem_cons_self, Nat.le_refl _, Nat.le_refl _⟩, ?_,
    F.known⟩
  simp [confine, Machine.mapped]
  omega

theorem Filed.buffer (F : Filed σ base cap) (h8 : cap % 8 = 0)
    (hk : 3 ≤ k ∧ k < 64 ∧ σ.glob.pageSize = 2 ^ k)
    (hpar : σ.get 8 (base + 8) = some 0 ∨ ∃ v, v.isPowerOfTwo ∧ σ.get 8 (base + 16) = some v)
    (hlarge : mstateSize + topFootSize < cap) : Buffer D σ base cap := by
  obtain ⟨hk3, hk64, hpage⟩ := hk
  have hl := hlarge
  simp only [mstateSize, topFootSize] at hl
  refine ⟨F.align, h8, hlarge, F.word, F.mapped, ?_, ?_, ?_, ?_⟩
  · intro e he
    have hin : e.1 + e.2 ≤ 48 := by
      simp only [paramWords, List.mem_cons, List.not_mem_nil, or_false] at he
      rcases he with rfl | rfl | rfl | rfl | rfl <;> decide
    obtain ⟨v, hv⟩ := F.get (n := e.2) (a := base + e.1) (by omega) (by omega)
    refine ⟨Machine.mapped_of_get hv, fun hn => ?_⟩
    rw [hv] at hn
    contradiction
  · rw [hpage]
    exact Nat.pow_lt_pow_right (by decide) hk64
  · rw [hpage]
    exact page_power hk64
  · intro hne hz
    cases hpar with
    | inl h0 => exact absurd h0 hne
    | inr hg =>
      obtain ⟨v, hv, hget⟩ := hg
      obtain rfl := Option.some.inj (hget.symm.trans hz)
      exact absurd hv Nat.not_isPowerOfTwo_zero

theorem Settled.left (hk : 3 ≤ k ∧ k < 64 ∧ σ.glob.pageSize = 2 ^ k)
    (hpar : σ.get 8 (paramPageSize base) = some 0 ∨ Settled σ base) (P : ParamsLeft σ τ base) :
    Settled τ base := by
  cases hpar with
  | inl h0 =>
    obtain ⟨hp, hg, v, hv, hm⟩ := P.new h0
    exact ⟨⟨v, hv, hm⟩, ⟨_, ⟨k, hk.2.2⟩, hp⟩, ⟨_, ⟨16, rfl⟩, hg⟩⟩
  | inr S =>
    obtain ⟨v, hv, h1⟩ := S.magic
    obtain ⟨w, hw, h2⟩ := S.page
    obtain ⟨g, hg, h3⟩ := S.granularity
    have hne : σ.get 8 (base + 8) ≠ some 0 := by
      intro h0
      obtain rfl := Option.some.inj (h2.symm.trans h0)
      exact Nat.not_isPowerOfTwo_zero hw
    have hold := P.old hne
    exact ⟨⟨v, hv, (hold _ _ (by simp [paramMagic]) (by simp [paramMagic])).trans h1⟩,
      ⟨w, hw, (hold _ _ (by simp [paramPageSize]) (by simp [paramPageSize])).trans h2⟩,
      ⟨g, hg, (hold _ _ (by simp [paramGranularity]) (by simp [paramGranularity])).trans h3⟩⟩

/-- A file becomes an image, or the capacity is refused. -/
theorem Filed.wp_create {Q : Nat → State → Prop} (F : Filed σ base cap) (h8 : cap % 8 = 0)
    (hk : 3 ≤ k ∧ k < 64 ∧ σ.glob.pageSize = 2 ^ k)
    (hpar : σ.get 8 (paramPageSize base) = some 0 ∨ Settled σ base) (hrec : recreate ≠ 0)
    (hlarge : mstateSize + topFootSize < cap)
    (h0 : ∀ τ page, τ.get 8 (paramPageSize base) = some page → ¬ Accepted cap page →
      ParamsLeft σ τ base → Q 0 τ)
    (hQ : ∀ τ, Living τ base cap [] (emptyHeap (base + 64) (base + cap)) → ParamsLeft σ τ base →
      Frame (Within base (base + cap)) (aimed σ base) τ → Q (base + 64) τ) :
    wp D (createMspaceWithBase base cap locked recreate) Q σ := by
  have hgran : σ.get 8 (base + 8) = some 0 ∨ ∃ v, v.isPowerOfTwo ∧ σ.get 8 (base + 16) = some v := by
    cases hpar with
    | inl h0 => exact Or.inl h0
    | inr S => exact Or.inr S.granularity
  have hrun : wp D (createMspaceWithBase base cap locked recreate) (fun r τ =>
      r = 0 ∧ ParamsLeft σ τ base ∧
        (∃ page, τ.get 8 (paramPageSize base) = some page ∧ ¬ Accepted cap page) ∨
      r = base + 64 ∧ ParamsLeft σ τ base ∧ Frame (Within base (base + cap)) (aimed σ base) τ ∧
        Held τ base cap [] (emptyHeap (base + 64) (base + cap))) σ := by
    apply (F.buffer h8 hk hgran hlarge).wp_createMspaceFront hrec
    · exact fun τ page hp hno P _ => Or.inl ⟨rfl, P, page, hp, fun hc => hno hc.2⟩
    · intro τ O hown _ _ hf P _
      exact Or.inr ⟨rfl, P, hf, O, List.Perm.refl _, hown⟩
  have hkeeps : wp (fun _ => True) (createMspaceWithBase base cap locked recreate)
      (fun _ τ => Filed τ base cap) σ := by
    apply F.wp_keeps (alike_createMspaceWithBase fileAt_params fileAt_aims
      (fileAt_moves.mpr ⟨Nat.le_refl _, rfl⟩))
    have hgran' : (confine σ base cap).get 8 (base + 8) = some 0 ∨
        ∃ v, v.isPowerOfTwo ∧ (confine σ base cap).get 8 (base + 16) = some v := by
      simp only [mstateSize, topFootSize] at hlarge
      cases hgran with
      | inl h0 => exact Or.inl (get_narrow h0 (by omega) (by omega))
      | inr hg =>
        obtain ⟨v, hv, hget⟩ := hg
        exact Or.inr ⟨v, hv, get_narrow hget (by omega) (by omega)⟩
    apply (F.confined.buffer h8 hk hgran' hlarge).wp_createMspaceWithBase hrec
    · exact fun _ _ _ => trivial
    · exact fun _ _ _ _ _ _ => trivial
  apply wp_mono (wp_also hrun hkeeps)
  intro r τ hend
  obtain ⟨⟨rfl, P, page, hp, hno⟩ | ⟨rfl, P, hf, H⟩, F'⟩ := hend
  · exact h0 τ page hp hno P
  · have hparams : τ.glob.pmparams = base := by
      rw [hf.glob]
      rfl
    exact hQ τ ⟨⟨F', hparams⟩, Settled.left hk hpar P, H⟩ P hf

theorem Filed.created (F : Filed σ base cap) (h8 : cap % 8 = 0)
    (hk : 3 ≤ k ∧ k < 64 ∧ σ.glob.pageSize = 2 ^ k)
    (hpar : σ.get 8 (paramPageSize base) = some 0 ∨ Settled σ base) (hrec : recreate ≠ 0)
    (hr : createMspaceWithBase base cap locked recreate σ = .ok (ms, τ)) (h0 : ms ≠ 0) :
    ms = base + 64 ∧ Living τ base cap [] (emptyHeap (base + 64) (base + cap)) ∧
      Frame (Within base (base + cap)) (aimed σ base) τ := by
  have hend : wp (fun _ => True) (createMspaceWithBase base cap locked recreate)
      (fun r τ => r ≠ 0 → r = base + 64 ∧
        Living τ base cap [] (emptyHeap (base + 64) (base + cap)) ∧
        Frame (Within base (base + cap)) (aimed σ base) τ) σ := by
    apply F.wp_create h8 hk hpar hrec (capacity_large hr h0)
    · exact fun _ _ _ _ _ hne => absurd rfl hne
    · exact fun τ L _ hf _ => ⟨rfl, L, hf⟩
  exact wp_ok hend hr h0

/-! Attachment. -/

/-- A process attaches to an image that is there, and nothing is written. -/
theorem Filed.wp_attach {Q : Nat → State → Prop} {w : Nat} (F : Filed τ b cap) (S : Settled τ b)
    (hpage : τ.get 8 (paramPageSize b) = some w) (h0 : ¬ Accepted cap w → Q 0 (aimed τ b))
    (hQ : Accepted cap w → Q (b + 64) (aimed τ b)) :
    wp D (createMspaceWithBase b cap locked 0) Q τ := by
  obtain ⟨v, hv, hmagic⟩ := S.magic
  have halign := F.align
  have hm : (aimed τ b).get 8 (paramMagic b) = some v := hmagic
  have hp : (aimed τ b).get 8 (paramPageSize b) = some w := hpage
  unfold createMspaceWithBase
  rw [wp_bind, wp_globals, wp_bind, wp_setGlobals]
  change wp D _ _ (aimed τ b)
  have hfirst : (if v ≠ 0 ∧ (0 : Nat) = 0 then 0 else 1) = 0 := if_pos ⟨hv, rfl⟩
  rw [wp_bind, wp_load hm, hfirst, wp_if_neg (by simp)]
  by_cases hlarge : cap > mstateSize + topFootSize
  · rw [wp_if_pos hlarge, wp_bind, wp_globals, wp_bind]
    change wp D (load 8 (paramPageSize b)) _ _
    rw [wp_load hp]
    by_cases hfit : cap < subSize 0 (addSize (mstateSize + topFootSize) w)
    · rw [wp_if_pos hfit, wp_bind]
      unfold initUserMstate
      rw [wp_if_pos rfl, wp_pure, wp_if_pos rfl, wp_pure]
      have hmem : chunk2mem (alignAsChunk (b + mallocParamsSize)) = b + 64 := by
        rw [alignAsChunk_self (by simp only [mallocParamsSize]; omega)]
        rfl
      rw [hmem]
      exact hQ ⟨hlarge, hfit⟩
    · rw [wp_if_neg hfit]
      exact h0 fun hc => hfit hc.2
  · rw [wp_if_neg hlarge]
    exact h0 fun hc => hlarge hc.1

theorem moved_live (f : Nat → Nat) (h : Heap) :
    (h.moved f).live = h.live.map fun e => (f e.1, e.2) := by
  simp only [Heap.live, Heap.moved, List.filter_map, List.map_map]
  rfl

theorem rebase_offset {o : Nat} (h0 : 0 < a + o) : rebase a b (a + o) = b + o := by
  unfold rebase
  rw [if_neg (by omega)]
  omega

/-- The words of the file are the same at both addresses. -/
theorem Filed.get_same {n o v : Nat} (Fa : Filed σ a cap) (F : Filed τ b cap)
    (hb : SameBytes a b cap σ τ) (ho : o + n ≤ cap) (hv : σ.get n (a + o) = some v) :
    (aimed τ b).get n (b + o) = some v := by
  have ha := Fa.behind
  have hbb := F.behind
  let R := shifting a b cap (by omega) (by omega) Fa.word F.word (Fa.align.trans F.align.symm)
  have M : R.Match (confine σ a cap) (aimed τ b) :=
    ⟨rfl, F.mapped, fun i hi => (hb i hi).symm, trivial⟩
  have hmove : Move R = rebase a b := rfl
  have hg := get_moved M (get_narrow hv (by omega) (by omega))
  rwa [hmove, rebase_offset (by omega)] at hg

/-- The image goes on at the address where the process has mapped it. -/
theorem Living.attached (L : Living σ a cap live h) (F : Filed τ b cap)
    (hb : SameBytes a b cap σ τ) :
    Living (aimed τ b) b cap (live.map (rebase a b)) (h.moved (rebase a b)) := by
  have H := L.held
  have Fa := L.homed.filed
  have ha := Fa.behind
  have hbb := F.behind
  have hhigh := H.ok.core.arena.high
  have hal : a % 8 = b % 8 := Fa.align.trans F.align.symm
  let R := shifting a b cap (by omega) (by omega) Fa.word F.word hal
  have M : R.Match (confine σ a cap) (aimed τ b) :=
    ⟨rfl, F.mapped, fun i hi => (hb i hi).symm, trivial⟩
  have hmove : Move R = rebase a b := rfl
  have hat : ∀ o, rebase a b (a + o) = b + o := fun o => rebase_offset (by omega)
  have O := (H.narrow Fa).moved M
  rw [hmove, hat, hat, hat] at O
  obtain ⟨v, hv, h1⟩ := L.settled.magic
  obtain ⟨w, hw, h2⟩ := L.settled.page
  obtain ⟨g, hg, h3⟩ := L.settled.granularity
  have h1' : (aimed τ b).get 8 (b + 0) = some v := Fa.get_same F hb (by omega) h1
  refine ⟨⟨F.aim b, rfl⟩, ⟨⟨v, hv, h1'⟩, ⟨w, hw, Fa.get_same F hb (by omega) h2⟩,
    ⟨g, hg, Fa.get_same F hb (by omega) h3⟩⟩, O, ?_, Fa.get_same F hb (by omega) H.ownHead⟩
  have hblocks := H.blocks.map (rebase a b)
  unfold Blocks
  rw [moved_live, List.map_map]
  rw [List.map_map] at hblocks
  have hsame : h.live.map (rebase a b ∘ blockOf) =
      h.live.map (blockOf ∘ fun e => (rebase a b e.1, e.2)) := by
    apply List.map_congr_left
    rintro ⟨p, s⟩ hp
    have hc := H.ok.core.chunk_bounds (mem_live.mp hp)
    simp only at hc
    show rebase a b (p + 16) = rebase a b p + 16
    have h16 := hat (p + 16 - a)
    have h0 := hat (p - a)
    rw [show a + (p + 16 - a) = p + 16 by omega] at h16
    rw [show a + (p - a) = p by omega] at h0
    omega
  rwa [hsame] at hblocks

/-- A process that attaches to the bytes of an image changes none of them. -/
theorem Living.reattached {ms' : Nat} {υ : State} (L : Living σ a cap live h) (F : Filed τ b cap)
    (hb : SameBytes a b cap σ τ) (hr : createMspaceWithBase b cap locked 0 τ = .ok (ms', υ))
    (h0 : ms' ≠ 0) : ms' = b + 64 ∧ υ = aimed τ b ∧
      Living (aimed τ b) b cap (live.map (rebase a b)) (h.moved (rebase a b)) := by
  have L' := L.attached F hb
  have S : Settled τ b := ⟨L'.settled.magic, L'.settled.page, L'.settled.granularity⟩
  have hend : wp (fun _ => True) (createMspaceWithBase b cap locked 0)
      (fun r υ => r ≠ 0 → r = b + 64 ∧ υ = aimed τ b) τ := by
    obtain ⟨w, _, hw⟩ := S.page
    apply F.wp_attach S hw
    · exact fun _ hne => absurd rfl hne
    · exact fun _ _ => ⟨rfl, rfl⟩
  obtain ⟨hms, hυ⟩ := wp_ok hend hr h0
  exact ⟨hms, hυ, L'⟩

/-! The whole life. -/

theorem life_living (R : Life base cap ms σ live) :
    ms = base + 64 ∧ ∃ h, Living σ base cap live h := by
  induction R with
  | created F h8 hk hpar hrec hr h0 =>
    obtain ⟨hms, L, _⟩ := F.created h8 hk hpar hrec hr h0
    exact ⟨hms, _, L⟩
  | served _ hq hr ih =>
    obtain ⟨rfl, h, L⟩ := ih
    obtain ⟨h', hans⟩ := wp_ok (L.wp_serve (D := fun _ => True) hq) hr
    exact ⟨rfl, h', hans.living⟩
  | grown _ F h8 hr ih =>
    obtain ⟨rfl, h, L⟩ := ih
    have hend := wp_ok (L.wp_incSize (D := fun _ => True) F h8) hr
    exact ⟨rfl, _, hend.1⟩
  | attached _ F hb hr h0 ih =>
    obtain ⟨_, h, L⟩ := ih
    obtain ⟨hms, rfl, L'⟩ := L.reattached F hb hr h0
    exact ⟨hms, _, L'⟩

end

end Mmdata.Proofs
