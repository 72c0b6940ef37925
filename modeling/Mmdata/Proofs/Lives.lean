import Mmdata.Proofs.Life
import Mmdata.Proofs.Blocks
import Mmdata.Proofs.Segment

namespace Mmdata.Proofs
open Lib Malloc

/-- The block at `p` goes on at `q`: as large as before, and with the same bytes. -/
structure Preserved (σ τ : State) (p q : Nat) : Prop where
  size : usableSize τ q = usableSize σ p
  bytes : ∀ i < usableSize σ p, τ.byte (q + i) = σ.byte (p + i)

section

variable {σ τ : State} {a b base cap inc ms locked j p : Nat} {h h' : Heap} {live live' : List Nat}
  {q : Request} {target : Option Nat}

theorem Answered.preserved (A : Answered σ base cap live h target live' τ h')
    (L : Living σ base cap live h) (hj : live[j]? = some p) (ht : target ≠ some j) :
    p ∈ live' ∧ Preserved σ τ p p := by
  obtain ⟨a, t, rfl, ha⟩ := L.held.blocks.chunk hj
  obtain ⟨ha', hsame⟩ := A.others j a t hj ha ht
  have O' := A.living.held.ok
  refine ⟨A.living.held.blocks.mem_iff.mpr (List.mem_map.mpr ⟨(a, t), ha', rfl⟩), ?_, ?_⟩
  · rw [O'.usableSize_eq ha', L.held.ok.usableSize_eq ha]
  · intro i hi
    rw [L.held.ok.usableSize_eq ha] at hi
    exact hsame _ (by omega) (by omega)

/-- In every state of its life an image has a sound heap, and its live blocks are aligned, in
the image, apart from each other, and all of their bytes can be read. -/
theorem life_sound (R : Life base cap ms σ live) : ms = base + 64 ∧ (∃ h, Sound σ ms h) ∧
    live.Pairwise (Clear σ) ∧ ∀ p ∈ live, p % 8 = 0 ∧ base + 1000 ≤ p ∧
      p + usableSize σ p ≤ base + cap ∧ ∀ i < usableSize σ p, ∃ v, σ.byte (p + i) = .known v := by
  obtain ⟨rfl, h, L⟩ := life_living R
  have O := L.held.ok
  refine ⟨rfl, ⟨h, L.held.sound⟩, O.clear L.held.blocks, fun p hp => ?_⟩
  obtain ⟨⟨a, t⟩, he, rfl⟩ := List.mem_map.mp (L.held.blocks.mem_iff.mp hp)
  have hb := O.core.chunk_bounds (mem_live.mp he)
  simp only at hb
  simp only [blockOf, O.usableSize_eq he]
  refine ⟨by omega, by omega, by omega, fun i hi => ?_⟩
  obtain ⟨v, hv⟩ := L.homed.filed.known (a + 16 + i - base) (by omega)
  rw [show base + (a + 16 + i - base) = a + 16 + i by omega] at hv
  exact ⟨v, hv⟩

theorem zeroed_filed : Filed zeroed 4096 65536 :=
  ⟨Nat.le_refl _, rfl, by decide, ⟨(4096, 69632), List.mem_cons_self, by decide, by decide⟩, rfl,
    fun _ _ => ⟨0, rfl⟩⟩

/-- An image with a live block between two free chunks. -/
def sample : Code (List Nat) := do
  let ms ← createMspaceWithBase 4096 65536 0 1
  let (_, live) ← serve ms [] (.call (.malloc 300))
  let (_, live) ← serve ms live (.call (.malloc 40))
  let (_, live) ← serve ms live (.call (.free 1))
  return live

set_option maxRecDepth 100000 in
theorem sample_live : result sample zeroed = some [5408] := by
  decide +kernel

set_option maxRecDepth 100000 in
theorem sample_life (hr : sample zeroed = .ok (live, σ)) : Life 4096 65536 4160 σ live := by
  have hms : result (createMspaceWithBase 4096 65536 0 1) zeroed = some 4160 := by decide +kernel
  obtain ⟨σ₀, h0⟩ := result_ok hms
  have hpage : 3 ≤ 12 ∧ 12 < 64 ∧ zeroed.glob.pageSize = 2 ^ 12 := ⟨by decide, by decide, rfl⟩
  have R₀ : Life 4096 65536 4160 σ₀ [] :=
    .created zeroed_filed rfl hpage (Or.inl rfl) (by decide) h0 (by decide)
  unfold sample at hr
  obtain ⟨ms, σ₁, h1, hr⟩ := bind_ok hr
  obtain ⟨rfl, rfl⟩ := Prod.mk.injEq .. ▸ Except.ok.inj (h0.symm.trans h1)
  obtain ⟨⟨v, live₁⟩, σ₁, h1, hr⟩ := bind_ok hr
  obtain ⟨⟨v', live₂⟩, σ₂, h2, hr⟩ := bind_ok hr
  obtain ⟨⟨v'', live₃⟩, σ₃, h3, hr⟩ := bind_ok hr
  cases hr
  have hfair : ∀ c, (Request.call c).Fair := fun _ => trivial
  exact .served (.served (.served R₀ (hfair _) h1) (hfair _) h2) (hfair _) h3

theorem sample_then {α : Type} {x : List Nat → Code α} {r : α}
    (hrun : result (sample >>= x) zeroed = some r) :
    ∃ σ τ, Life 4096 65536 4160 σ [5408] ∧ x [5408] σ = .ok (r, τ) := by
  obtain ⟨τ, hτ⟩ := result_ok hrun
  obtain ⟨live, σ, hr, hx⟩ := bind_ok hτ
  obtain ⟨σ', hr'⟩ := result_ok sample_live
  obtain rfl : live = [5408] := congrArg Prod.fst (Except.ok.inj (hr.symm.trans hr'))
  exact ⟨σ, τ, sample_life hr, hx⟩

theorem life_sound_sample : ∃ σ, sample zeroed = .ok ([5408], σ) ∧ (∃ h, Sound σ 4160 h) ∧
    5408 + usableSize σ 5408 ≤ 69632 := by
  obtain ⟨σ, hr⟩ := result_ok sample_live
  obtain ⟨_, hs, _, hall⟩ := life_sound (sample_life hr)
  exact ⟨σ, hr, hs, (hall 5408 List.mem_cons_self).2.2.1⟩

/-- In every state of its life an image serves every fair request, and its life goes on. The
call returns, it writes to the image only, and all live blocks but the one that the request is
about stay. -/
theorem life_serves (R : Life base cap ms σ live) (hq : q.Fair) :
    ∃ v live' τ, serve ms live q σ = .ok ((v, live'), τ) ∧ Life base cap ms τ live' ∧
      Frame (Within base (base + cap)) σ τ ∧
      ∀ j p, live[j]? = some p → q.target ≠ some j → p ∈ live' ∧ Preserved σ τ p p := by
  obtain ⟨rfl, h, L⟩ := life_living R
  obtain ⟨⟨v, live'⟩, τ, hr, h', A⟩ := ok_of_wp (L.wp_serve (D := fun _ => False) hq)
  exact ⟨v, live', τ, hr, .served R hq hr, A.frame, fun j p hj ht => A.preserved L hj ht⟩

theorem life_serves_sample : ∃ σ v live' τ, Life 4096 65536 4160 σ [5408] ∧
    serve 4160 [5408] (.memalign 64 100) σ = .ok ((v, live'), τ) ∧ Life 4096 65536 4160 τ live' ∧
    5408 ∈ live' ∧ Preserved σ τ 5408 5408 := by
  obtain ⟨σ, hr⟩ := result_ok sample_live
  have R := sample_life hr
  have hfair : (Request.memalign 64 100).Fair := show 64 ≤ 2 ^ 63 by decide
  obtain ⟨v, live', τ, hs, R', _, hkept⟩ := life_serves R hfair
  obtain ⟨hm, hp⟩ := hkept 0 5408 rfl (by decide)
  exact ⟨σ, v, live', τ, R, hs, R', hm, hp⟩

theorem Living.moved_preserved (L : Living σ a cap live h) (F : Filed τ b cap)
    (hb : SameBytes a b cap σ τ) (hp : p ∈ live) : Preserved σ (aimed τ b) p (rebase a b p) := by
  have L' := L.attached F hb
  obtain ⟨⟨q, s⟩, he, rfl⟩ := List.mem_map.mp (L.held.blocks.mem_iff.mp hp)
  have hc := L.held.ok.core.chunk_bounds (mem_live.mp he)
  have he' : (rebase a b q, s) ∈ (h.moved (rebase a b)).live := by
    rw [moved_live]
    exact List.mem_map_of_mem he
  have hmove : ∀ i, rebase a b (q + i) = rebase a b q + i := by
    intro i
    unfold rebase
    simp only at hc
    rw [if_neg (by omega), if_neg (by omega)]
    omega
  have hsize := L.held.ok.usableSize_eq he
  refine ⟨?_, fun i hi => ?_⟩
  · rw [blockOf, hmove, L'.held.ok.usableSize_eq he', hsize]
  · simp only [blockOf] at hi ⊢
    rw [hsize] at hi
    simp only at hc
    have hi' := hb (q + 16 + i - a) (by omega)
    rw [show a + (q + 16 + i - a) = q + 16 + i by omega] at hi'
    rw [← hi']
    unfold rebase
    rw [if_neg (by omega), show b + (q + 16 + i - a) = q + 16 + b - a + i by omega]
    rfl

/-- Wherever the bytes of an image are mapped, `create_mspace_with_base` attaches to it if it
accepts the capacity. It writes no byte, and every live block goes on at its old offset. -/
theorem life_attaches {w : Nat} (R : Life a cap ms σ live) (F : Filed τ b cap)
    (hb : SameBytes a b cap σ τ) (hw : σ.get 8 (paramPageSize a) = some w)
    (hcap : cap < subSize 0 (addSize (mstateSize + topFootSize) w)) :
    createMspaceWithBase b cap locked 0 τ = .ok (b + 64, aimed τ b) ∧
      Life b cap (b + 64) (aimed τ b) (live.map (rebase a b)) ∧
      ∀ p ∈ live, Preserved σ (aimed τ b) p (rebase a b p) := by
  obtain ⟨rfl, h, L⟩ := life_living R
  have L' := L.attached F hb
  have S : Settled τ b := ⟨L'.settled.magic, L'.settled.page, L'.settled.granularity⟩
  have hlarge : cap > mstateSize + topFootSize := by
    have htop := L.held.ok.core.tiled.le
    have hfits := L.held.ok.core.topFits
    simp only [mstateSize, topFootSize] at *
    omega
  have hend : wp (fun _ => False) (createMspaceWithBase b cap locked 0)
      (fun r υ => r = b + 64 ∧ υ = aimed τ b) τ := by
    have hhigh := L.held.ok.core.arena.high
    apply F.wp_attach S (L.homed.filed.get_same F hb (by omega) hw)
    · exact fun hno => absurd ⟨hlarge, hcap⟩ hno
    · exact fun _ => ⟨rfl, rfl⟩
  obtain ⟨_, _, hr, rfl, rfl⟩ := ok_of_wp hend
  exact ⟨hr, .attached R F hb hr (by omega), fun p hp => L.moved_preserved F hb hp⟩

/-- A process that has mapped the bytes from `a` on at `b`. -/
def mappedAt (σ : State) (a b cap : Nat) : State :=
  ⟨fun x => σ.byte (x - b + a), [(b, b + cap)], ⟨0, 4096⟩⟩

theorem mappedAt_bytes : SameBytes a b cap σ (mappedAt σ a b cap) := by
  intro i _
  show σ.byte (b + i - b + a) = σ.byte (a + i)
  rw [Nat.add_sub_cancel_left, Nat.add_comm]

set_option maxRecDepth 100000 in
theorem life_attaches_sample : ∃ σ υ, Life 4096 65536 4160 σ [5408] ∧
    createMspaceWithBase 1048576 65536 0 0 (mappedAt σ 4096 1048576 65536) = .ok (1048640, υ) ∧
    Life 1048576 65536 1048640 υ [1049888] ∧ Preserved σ υ 5408 1049888 := by
  have hrun : result (do
      let _ ← sample
      load 8 4104) zeroed = some 4096 := by
    decide +kernel
  obtain ⟨σ, τ, R, hload⟩ := sample_then hrun
  obtain ⟨hw, _⟩ := load_ok hload
  obtain ⟨_, h, L⟩ := life_living R
  have hbytes : SameBytes 4096 1048576 65536 σ (mappedAt σ 4096 1048576 65536) := mappedAt_bytes
  have F : Filed (mappedAt σ 4096 1048576 65536) 1048576 65536 := by
    refine ⟨by decide, rfl, by decide, ⟨_, List.mem_cons_self, Nat.le_refl _, Nat.le_refl _⟩, rfl,
      fun i hi => ?_⟩
    rw [hbytes i hi]
    exact L.homed.filed.known i hi
  obtain ⟨hc, R', hkept⟩ := life_attaches R F hbytes hw (by decide)
  exact ⟨σ, _, R, hc, R', hkept 5408 List.mem_cons_self⟩

theorem Living.grown_preserved (L : Living σ base cap live h)
    (L' : Living τ base (cap + inc) live (h.grow inc))
    (hf : Frame (Grown (base + 64) (base + cap) h.top inc) σ τ) (hp : p ∈ live) :
    Preserved σ τ p p := by
  have O := L.held.ok
  obtain ⟨⟨q, s⟩, he, rfl⟩ := List.mem_map.mp (L.held.blocks.mem_iff.mp hp)
  have hc := O.core.chunk_bounds (mem_live.mp he)
  have hlast := (O.core.tiled.mem (mem_live.mp he)).2.1
  have htop := O.core.topFits
  have he' : (q, s) ∈ (h.grow inc).live := he
  simp only at hc hlast
  refine ⟨?_, fun i hi => ?_⟩
  · simp only [blockOf, O.usableSize_eq he, L'.held.ok.usableSize_eq he']
  · simp only [blockOf, O.usableSize_eq he] at hi ⊢
    apply hf.byte
    simp only [Grown]
    omega

/-- Top serves what it is larger than. -/
theorem Living.serves_top {n : Nat} (L : Living σ base cap live h) (hn : n < maxRequest)
    (htop : request2size n < h.topsize) :
    ∃ v τ, mspaceMalloc (base + 64) n σ = .ok (v, τ) ∧ v ≠ 0 := by
  apply ok_of_wp
  apply wp_mspaceMalloc L.held.ok
  · exact fun hno => absurd (Or.inr (Or.inr htop)) (hno hn)
  · intro _ v τ h' s _ _ _ _ _
    omega

/-- An image whose file grows takes in all that is new: `mspace_inc_size` returns, the life of
the image goes on with the larger capacity, all live blocks stay, and a request that comes next
succeeds if the new memory alone has room for it. -/
theorem life_grows (R : Life base cap ms σ live) (F : Filed σ base (cap + inc))
    (h8 : inc % 8 = 0) :
    ∃ τ, mspaceIncSize ms inc σ = .ok ((), τ) ∧ Life base (cap + inc) ms τ live ∧
      (∀ p ∈ live, Preserved σ τ p p) ∧
      (∃ t, result (mspaceTopSize ms) σ = some t ∧ result (mspaceTopSize ms) τ = some (t + inc)) ∧
      ∀ n, n < maxRequest → request2size n ≤ inc →
        ∃ v υ, mspaceMalloc ms n τ = .ok (v, υ) ∧ v ≠ 0 := by
  obtain ⟨rfl, h, L⟩ := life_living R
  obtain ⟨_, τ, hr, L', hf⟩ := ok_of_wp (L.wp_incSize (D := fun _ => False) F h8)
  have O := L.held.ok
  have O' := L'.held.ok
  refine ⟨τ, hr, .grown R F h8 hr, fun p hp => L.grown_preserved L' hf hp, ⟨h.topsize, ?_, ?_⟩,
    fun n hn hfit => ?_⟩
  · apply result_of_wp
    rw [mspaceTopSize, topsize, wp_load O.core.scalars.topWord]
  · apply result_of_wp
    rw [mspaceTopSize, topsize, wp_load O'.core.scalars.topWord]
    rfl
  · apply L'.serves_top hn
    have htop := O.core.topFits
    simp only [Heap.grow]
    omega

set_option maxRecDepth 100000 in
/-- An image with a live block of 20000 bytes, and a request that it has no room for until its
file has grown. -/
theorem life_grows_half : ∃ σ τ υ, Life 4096 32768 4160 σ [5096] ∧
    result (mspaceMalloc 4160 32000) σ = some 0 ∧ mspaceIncSize 4160 32768 σ = .ok ((), τ) ∧
    Life 4096 65536 4160 τ [5096] ∧ Preserved σ τ 5096 5096 ∧
    mspaceMalloc 4160 32000 τ = .ok (25104, υ) := by
  have hrun : result (do
      let ms ← createMspaceWithBase 4096 32768 0 1
      let r ← serve ms [] (.call (.malloc 20000))
      return (ms, r)) zeroed = some (4160, 5096, [5096]) := by
    decide +kernel
  have hfull : result (do
      let ms ← createMspaceWithBase 4096 32768 0 1
      let _ ← serve ms [] (.call (.malloc 20000))
      mspaceMalloc ms 32000) zeroed = some 0 := by
    decide +kernel
  have hgrown : result (do
      let ms ← createMspaceWithBase 4096 32768 0 1
      let _ ← serve ms [] (.call (.malloc 20000))
      mspaceIncSize ms 32768
      mspaceMalloc ms 32000) zeroed = some 25104 := by
    decide +kernel
  obtain ⟨σ, hσ⟩ := result_ok hrun
  obtain ⟨ms, σ₀, h0, hrest⟩ := bind_ok hσ
  obtain ⟨r, υ, hs, hpure⟩ := bind_ok hrest
  cases hpure
  rw [result, bind_of_ok h0, bind_of_ok hs] at hfull hgrown
  have hpage : 3 ≤ 12 ∧ 12 < 64 ∧ zeroed.glob.pageSize = 2 ^ 12 := ⟨by decide, by decide, rfl⟩
  have F₀ : Filed zeroed 4096 32768 :=
    ⟨Nat.le_refl _, rfl, by decide, ⟨(4096, 69632), List.mem_cons_self, by decide, by decide⟩, rfl,
      fun _ _ => ⟨0, rfl⟩⟩
  obtain ⟨_, L₀, hf₀⟩ := F₀.created rfl hpage (Or.inl rfl) (by decide) h0 (by decide)
  have hfair : (Request.call (.malloc 20000)).Fair := trivial
  have R : Life 4096 32768 4160 σ [5096] :=
    .served (.created F₀ rfl hpage (Or.inl rfl) (by decide) h0 (by decide)) hfair hs
  obtain ⟨_, A⟩ := wp_ok (L₀.wp_serve (D := fun _ => True) hfair) hs
  have hf := hf₀.trans A.frame
  have F := A.living.homed.filed
  have F' : Filed σ 4096 (32768 + 32768) := by
    refine ⟨F.behind, F.align, by decide, ?_, F.null, fun i hi => ?_⟩
    · rw [hf.maps]
      exact ⟨(4096, 69632), List.mem_cons_self, by decide, by decide⟩
    · by_cases hin : i < 32768
      · exact F.known i hin
      · refine ⟨0, hf.byte _ fun hw => ?_⟩
        have hlt := hw.2
        omega
  obtain ⟨τ, hi, R', hkept, _, hmalloc⟩ := life_grows R F' rfl
  obtain ⟨v, υ, hv, _⟩ := hmalloc 32000 (by decide) (by decide)
  rw [bind_of_ok hi, hv] at hgrown
  obtain rfl : v = 25104 := Option.some.inj hgrown
  exact ⟨σ, τ, υ, R, hfull, hi, R', hkept 5096 List.mem_cons_self, hv⟩

/-- An image in use can be made anew: `create_mspace_with_base` keeps its parameters, forgets its
blocks, and a request that comes next succeeds if the empty heap has room for it. -/
theorem life_recreated {k w recreate : Nat} (R : Life base cap ms σ live)
    (hk : 3 ≤ k ∧ k < 64 ∧ σ.glob.pageSize = 2 ^ k) (hw : σ.get 8 (paramPageSize base) = some w)
    (hcap : cap < subSize 0 (addSize (mstateSize + topFootSize) w)) (hrec : recreate ≠ 0) :
    ∃ τ, createMspaceWithBase base cap locked recreate σ = .ok (ms, τ) ∧ Life base cap ms τ [] ∧
      Frame (Within base (base + cap)) (aimed σ base) τ ∧
      (∀ n a, base ≤ a → a + n ≤ base + mallocParamsSize → τ.get n a = σ.get n a) ∧
      (∃ h, Sound τ ms h ∧ h.chunks = [] ∧ h.topsize = cap - 1008) ∧
      ∀ n, n < maxRequest → request2size n < cap - 1008 →
        ∃ v υ, mspaceMalloc ms n τ = .ok (v, υ) ∧ v ≠ 0 := by
  obtain ⟨rfl, h, L⟩ := life_living R
  have hempty : (emptyHeap (base + 64) (base + cap)).topsize = cap - 1008 := by
    simp only [emptyHeap]
    omega
  have F := L.homed.filed
  have htop := L.held.ok.core.tiled.align L.held.ok.core.first_align
  have hle := L.held.ok.core.tiled.le
  have hfits := L.held.ok.core.topFits
  have hts := L.held.ok.core.topAlign
  have hal := F.align
  have hlarge : mstateSize + topFootSize < cap := by
    simp only [mstateSize, topFootSize]
    omega
  have hold : σ.get 8 (base + 8) ≠ some 0 := by
    obtain ⟨v, hv, hget⟩ := L.settled.page
    intro hz
    obtain rfl := Option.some.inj (hget.symm.trans hz)
    exact Nat.not_isPowerOfTwo_zero hv
  have hend : wp (fun _ => False) (createMspaceWithBase base cap locked recreate)
      (fun r τ => r = base + 64 ∧ Living τ base cap [] (emptyHeap (base + 64) (base + cap)) ∧
        ParamsLeft σ τ base ∧ Frame (Within base (base + cap)) (aimed σ base) τ) σ := by
    apply F.wp_create (by omega) hk (Or.inr L.settled) hrec hlarge
    · intro τ page hp hno P
      have hsame := P.old hold (base + 8) 8 (by omega) (by omega)
      obtain rfl : w = page := Option.some.inj (hw.symm.trans (hsame.symm.trans hp))
      exact absurd ⟨hlarge, hcap⟩ hno
    · exact fun τ L' P hf => ⟨rfl, L', P, hf⟩
  obtain ⟨_, τ, hr, rfl, L', P, hf⟩ := ok_of_wp hend
  refine ⟨τ, hr, .created F (by omega) hk (Or.inr L.settled) hrec hr (by omega), hf,
    fun n a h1 h2 => P.old hold a n h1 h2, ⟨_, L'.held.sound, rfl, ?_⟩, fun n hn hfit => ?_⟩
  · exact hempty
  · refine L'.serves_top hn ?_
    rw [hempty]
    exact hfit

set_option maxRecDepth 100000 in
theorem life_recreated_sample : ∃ σ τ, Life 4096 65536 4160 σ [5408] ∧
    createMspaceWithBase 4096 65536 0 1 σ = .ok (4160, τ) ∧ Life 4096 65536 4160 τ [] ∧
    ∃ h, Sound τ 4160 h ∧ h.chunks = [] ∧ h.topsize = 64528 := by
  have hrun : result (do
      let _ ← sample
      let page ← load 8 4104
      return (page, (← globals).pageSize)) zeroed = some (4096, 4096) := by
    decide +kernel
  obtain ⟨σ, τ, R, hrest⟩ := sample_then hrun
  obtain ⟨page, υ, hload, hglob⟩ := bind_ok hrest
  obtain ⟨hw, rfl⟩ := load_ok hload
  obtain ⟨g, ω, hg, hpure⟩ := bind_ok hglob
  cases hg
  obtain ⟨rfl, hsize⟩ := Prod.mk.injEq .. ▸ (Prod.mk.injEq .. ▸ Except.ok.inj hpure).1
  have hpage : 3 ≤ 12 ∧ 12 < 64 ∧ υ.glob.pageSize = 2 ^ 12 := ⟨by decide, by decide, hsize⟩
  have hnew : ∃ τ, createMspaceWithBase 4096 65536 0 1 υ = .ok (4160, τ) ∧ _ :=
    life_recreated R hpage hw (by decide) (by decide)
  obtain ⟨τ', hc, R', _, _, hempty, _⟩ := hnew
  exact ⟨υ, τ', R, hc, R', hempty⟩

end

end Mmdata.Proofs
