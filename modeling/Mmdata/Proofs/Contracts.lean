import Mmdata.Proofs.Life
import Mmdata.Proofs.Statistics
import Mmdata.Proofs.NoRoom

namespace Mmdata.Proofs
open Lib Malloc

/-- The blocks `new` have been given to a client that may have written to the block `taken`:
they are aligned, in the image and clear of each other and of the live blocks, these stay, and
`mspace_used` accounts for the new chunks. -/
structure NewBlocks (base cap ms : Nat) (live : List Nat) (taken : Nat) (σ : State)
    (new : List Nat) (τ : State) : Prop where
  aligned : ∀ p ∈ new, p % 8 = 0
  inside : ∀ p ∈ new, base + 1000 ≤ p ∧ p + usableSize τ p ≤ base + cap
  apart : (new ++ live).Pairwise (Clear τ)
  kept : ∀ p ∈ live, usableSize τ p = usableSize σ p ∧
    (p ≠ taken → ∀ i < usableSize σ p, τ.byte (p + i) = σ.byte (p + i))
  used : ∃ u, result (mspaceUsed ms) σ = some u ∧ result (mspaceUsed ms) τ =
    some ((u + (new.map fun p => usableSize τ p + 8).sum) % 2 ^ 64)

/-- Nothing fits a request of `bytes` bytes, unless all that fits is out of view. -/
def NoRoomFor (h : Heap) (bytes : Nat) : Prop :=
  bytes < maxRequest → InView h (request2size bytes) → NothingFits h (request2size bytes)

/-- The array for `n` pointers that a client passes: none, or a live block. -/
def Passed (σ : State) (live : List Nat) (n chunks : Nat) : Prop :=
  chunks = 0 ∨ chunks ∈ live ∧ 8 * n ≤ usableSize σ chunks

/-- The blocks `ps`, of at least the sizes `ns`, are new, and listed in the array at `v`: the one
that was passed, or a new one. -/
structure Distributed (base cap ms : Nat) (live : List Nat) (chunks : Nat) (ns ps : List Nat)
    (σ : State) (v : Nat) (τ : State) : Prop where
  sizes : List.Forall₂ (fun n p => n ≤ usableSize τ p) ns ps
  listed : ∀ j p, ps[j]? = some p → τ.get 8 (v + 8 * j) = some p
  array : chunks ≠ 0 → v = chunks
  room : 8 * ns.length ≤ usableSize τ v
  new : NewBlocks base cap ms live chunks σ (if chunks = 0 then ps ++ [v] else ps) τ

section

variable {D : Trap → Prop} {σ τ υ : State} {A : Nat → Prop} {base cap ms p s n e v alignment bytes : Nat}
  {h h' : Heap} {live live' sizes : List Nat} {Lst : List (Nat × Nat)} {target into : Option Nat}
  {cs : List Chunk} {zero : Prop} {a chunks : Nat} {ns : List Nat}

theorem Ok.used_word {m lo hi : Nat} (O : Ok σ m lo hi h) : result (mspaceUsed m) σ = some h.exts := by
  have hw : wp (fun _ => False) (mspaceUsed m) (fun u _ => u = h.exts) σ := by
    unfold mspaceUsed
    rw [exts, wp_load O.core.scalars.extsWord]
  exact result_of_wp hw

theorem Grants.usable_sum {K : State → Prop} {m lo hi : Nat} (G : Grants K υ m lo hi h Lst τ h') :
    ((Lst.map blockOf).map fun p => usableSize τ p + 8).sum = (Lst.map Prod.snd).sum := by
  rw [List.map_map]
  congr 1
  apply List.map_congr_left
  rintro ⟨p, s⟩ hp
  have hm := G.mem hp
  have hb := G.ok.core.chunk_bounds (mem_live.mp hm)
  simp only at hb
  simp only [Function.comp, blockOf, G.ok.usableSize_eq hm]
  omega

theorem Living.newBlocks {taken : Nat} (L : Living σ base cap live h)
    (hA : ∀ b, A b → ∃ k p s, target = some k ∧ live[k]? = some (p + 16) ∧ (p, s) ∈ h.live ∧
      p + 16 ≤ b ∧ b < p + s + 8)
    (ht : ∀ k, target = some k → live[k]? = some taken) (hf : Frame A σ υ)
    (G : Grants (fun σ => Homed σ base cap) υ (base + 64) (base + 48) (base + cap) h Lst τ h') :
    NewBlocks base cap (base + 64) live taken σ (Lst.map blockOf) τ := by
  have hans := L.granted hA hf G (List.Perm.refl _)
  refine ⟨?_, ?_, hans.living.held.ok.clear hans.living.held.blocks, ?_, h.exts,
    L.held.ok.used_word, ?_⟩
  · intro p hp
    obtain ⟨⟨a, t⟩, he, rfl⟩ := List.mem_map.mp hp
    have hb := G.ok.core.chunk_bounds (mem_live.mp (G.mem he))
    simp only at hb
    simp only [blockOf]
    omega
  · intro p hp
    obtain ⟨⟨a, t⟩, he, rfl⟩ := List.mem_map.mp hp
    have hm := G.mem he
    have hb := G.ok.core.chunk_bounds (mem_live.mp hm)
    simp only at hb
    simp only [blockOf, G.ok.usableSize_eq hm]
    omega
  · intro p hp
    obtain ⟨j, hj⟩ := List.mem_iff_getElem?.mp hp
    obtain ⟨a, t, rfl, ha⟩ := L.held.blocks.chunk hj
    rw [G.ok.usableSize_eq (G.keeps _ ha), L.held.ok.usableSize_eq ha]
    refine ⟨rfl, fun hne i hi => ?_⟩
    have hother : target ≠ some j := by
      intro he
      exact hne (Option.some.inj (hj.symm.trans (ht j he)))
    exact (hans.others j a t hj ha hother).2 _ (by omega) (by omega)
  · rw [G.ok.used_word, G.exts, G.usable_sum]

theorem Given.newBlocks (L : Living σ base cap live h) (G : Given σ base cap live h n v s τ h') :
    NewBlocks base cap (base + 64) live 0 σ [v + 16] τ ∧ n ≤ usableSize τ (v + 16) ∧
      usableSize τ (v + 16) = s - 8 := by
  have hsize := G.grants.ok.usableSize_eq (G.grants.mem List.mem_cons_self)
  have hlarge := G.large
  have hnew : NewBlocks base cap (base + 64) live 0 σ ([(v, s)].map blockOf) τ :=
    L.newBlocks (fun _ hb => hb.elim) (fun k (hk : none = some k) => by contradiction)
      (Frame.refl (fun _ => False) σ) G.grants
  refine ⟨hnew, ?_, hsize⟩
  omega

theorem Heap.Refuses.noRoomFor (hno : h.Refuses bytes) : NoRoomFor h bytes :=
  fun hb hview => nothingFits_iff.mpr fun hfits => hno hb (hview hfits)

/-- In any state in the life of an image, `mspace_memalign` returns null and changes nothing, and
what it asks for to find an aligned spot does not fit, or it returns a new block at a multiple of a power of two
that the alignment does not exceed, and keeps at most 24 bytes more than were asked for. -/
theorem memalign_contract (R : Life base cap ms σ live) : ∃ h, Sound σ ms h ∧
    ∀ alignment ≤ 2 ^ 63, ∀ bytes, ∃ v τ, mspaceMemalign ms alignment bytes σ = .ok (v, τ) ∧
      (v = 0 ∧ τ = σ ∧ (bytes < maxRequest → NoRoomFor h (memalignRequest alignment bytes)) ∨
        v ≠ 0 ∧ (∃ j, alignment ≤ 2 ^ j ∧ 2 ^ j ∣ v) ∧ bytes ≤ usableSize τ v ∧
          (8 < alignment → usableSize τ v ≤ request2size bytes + 24) ∧
          NewBlocks base cap ms live 0 σ [v] τ) := by
  obtain ⟨rfl, h, L⟩ := life_living R
  refine ⟨h, L.held.sound, fun alignment ha bytes => ?_⟩
  apply ok_of_wp
  apply L.wp_memalign ha
  · exact fun hno => Or.inl ⟨rfl, rfl, fun hb => (hno hb).noRoomFor⟩
  · intro v s j τ h' G hle hdvd hsmall
    obtain ⟨hnew, hlarge, hsize⟩ := G.newBlocks L
    refine Or.inr ⟨by omega, ⟨j, hle, hdvd⟩, hlarge, fun h8 => ?_, hnew⟩
    have hs := hsmall h8
    omega

set_option maxRecDepth 100000 in
theorem memalign_contract_sample : ∃ σ τ, Life 4096 65536 4160 σ [5408] ∧
    mspaceMemalign 4160 64 100 σ = .ok (5184, τ) ∧ NewBlocks 4096 65536 4160 [5408] 0 σ [5184] τ := by
  have hrun : result (sample >>= fun _ => mspaceMemalign 4160 64 100) zeroed = some 5184 := by
    decide +kernel
  obtain ⟨σ, τ, R, hr⟩ := sample_then hrun
  obtain ⟨h, _, hall⟩ := memalign_contract R
  obtain ⟨v, υ, hv, hend⟩ := hall 64 (by decide) 100
  obtain ⟨rfl, rfl⟩ := Prod.mk.injEq .. ▸ Except.ok.inj (hr.symm.trans hv)
  cases hend with
  | inl hno => exact absurd hno.1 (by decide)
  | inr hyes => exact ⟨σ, _, R, hr, hyes.2.2.2.2⟩

/-- In any state in the life of an image, `mspace_calloc` returns null and changes nothing, and
`n * e` bytes do not fit, or it returns a new block whose first `n * e` bytes are zero. -/
theorem calloc_contract (R : Life base cap ms σ live) : ∃ h, Sound σ ms h ∧
    ∀ n e, ∃ v τ, mspaceCalloc ms n e σ = .ok (v, τ) ∧ (v = 0 ∧ τ = σ ∧ NoRoomFor h (n * e) ∨
      v ≠ 0 ∧ n * e < 2 ^ 64 ∧ n * e ≤ usableSize τ v ∧
        (∀ i < n * e, τ.byte (v + i) = .known 0) ∧ NewBlocks base cap ms live 0 σ [v] τ) := by
  obtain ⟨rfl, h, L⟩ := life_living R
  refine ⟨h, L.held.sound, fun n e => ?_⟩
  apply ok_of_wp
  apply L.wp_calloc
  · intro hno
    refine Or.inl ⟨rfl, rfl, fun hb hc => ?_⟩
    have hreq : callocRequest n e = n * e := by
      simp only [maxRequest] at hb
      rw [callocRequest_eq, if_pos (by omega)]
    rw [hreq] at hno
    exact hno.noRoomFor hb hc
  · intro v s τ h' hlt G hz
    obtain ⟨hnew, hlarge, _⟩ := G.newBlocks L
    exact Or.inr ⟨by omega, hlt, hlarge, fun i hi => hz _ (by omega) (by omega), hnew⟩

set_option maxRecDepth 100000 in
theorem calloc_contract_sample : ∃ σ τ, Life 4096 65536 4160 σ [5408] ∧
    mspaceCalloc 4160 7 11 σ = .ok (5096, τ) ∧ (∀ i < 77, τ.byte (5096 + i) = .known 0) ∧
    NewBlocks 4096 65536 4160 [5408] 0 σ [5096] τ := by
  have hrun : result (sample >>= fun _ => mspaceCalloc 4160 7 11) zeroed = some 5096 := by
    decide +kernel
  obtain ⟨σ, τ, R, hr⟩ := sample_then hrun
  obtain ⟨h, _, hall⟩ := calloc_contract R
  obtain ⟨v, υ, hv, hend⟩ := hall 7 11
  obtain ⟨rfl, rfl⟩ := Prod.mk.injEq .. ▸ Except.ok.inj (hr.symm.trans hv)
  cases hend with
  | inl hno => exact absurd hno.1 (by decide)
  | inr hyes => exact ⟨σ, _, R, hr, hyes.2.2.2.1, hyes.2.2.2.2⟩

theorem Living.arrayOf (L : Living σ base cap live h) (hp : Passed σ live n chunks) :
    ∃ into, ArrayOf live h n into chunks ∧ ∀ k, into = some k → live[k]? = some chunks := by
  cases hp with
  | inl h0 =>
    subst h0
    exact ⟨none, .own, fun k hk => by contradiction⟩
  | inr hp =>
    obtain ⟨hm, hroom⟩ := hp
    obtain ⟨k, hk⟩ := List.mem_iff_getElem?.mp hm
    obtain ⟨p, s, rfl, hps⟩ := L.held.blocks.chunk hk
    have hb := L.held.ok.core.chunk_bounds (mem_live.mp hps)
    rw [L.held.ok.usableSize_eq hps] at hroom
    simp only at hb
    refine ⟨some k, .given hk hps (by omega), fun j hj => ?_⟩
    cases hj
    exact hk

theorem replicate_lt (he : e < maxRequest) : ∀ y ∈ List.replicate n e, y < maxRequest := by
  intro y hy
  rw [List.eq_of_mem_replicate hy]
  exact he

theorem ArrayOf.replicate (hA : ArrayOf live h n into chunks) :
    ArrayOf live h (List.replicate n e).length into chunks := by
  rw [List.length_replicate]
  exact hA

theorem GivenArray.distributed (L : Living σ base cap live h) (hns : ∀ y ∈ ns, y < maxRequest)
    (hA : ArrayOf live h ns.length into chunks)
    (ht : ∀ k, into = some k → live[k]? = some chunks)
    (G : GivenArray σ base cap live h (ns.map request2size) zero into chunks a cs τ h') :
    Distributed base cap (base + 64) live chunks ns (cs.map fun c => chunk2mem c.addr) σ a τ ∧
      (zero → ∀ p ∈ cs.map (fun c => chunk2mem c.addr), ∀ i < usableSize τ p,
        τ.byte (p + i) = .known 0) := by
  obtain ⟨S, hsup⟩ := G.supplies
  obtain ⟨υ, hf, grants⟩ := hsup.grants
  have hlen : (ns.map request2size).length = ns.length := List.length_map _
  have O := grants.ok
  rw [hlen] at hf
  have hnew := L.newBlocks (fun b hb => hA.inside hb) ht hf grants
  have hcs : (cs.map fun c => chunk2mem c.addr) = (pairs cs).map blockOf := by
    rw [pairs, List.map_map]
    rfl
  have hchunk : ∀ c ∈ cs, usableSize τ (chunk2mem c.addr) = c.size - 8 := by
    intro c hc
    apply O.usableSize_eq
    exact grants.mem (List.mem_append_left _ (List.mem_map.mpr ⟨c, hc, rfl⟩))
  have hslots := hsup.slots
  rw [hlen] at hslots
  refine ⟨⟨?_, ?_, ?_, ?_, ?_⟩, ?_⟩
  · apply List.forall₂_map_right_iff.mpr
    have hsizes := List.forall₂_map_left_iff.mp hsup.sizes
    have hboth : List.Forall₂ (fun n c => n ∈ ns ∧ c ∈ cs ∧ request2size n ≤ c.size) ns cs :=
      List.forall₂_iff_get.mpr ⟨hsizes.length_eq, fun i h1 h2 =>
        ⟨List.get_mem _ _, List.get_mem _ _, List.Forall₂.get hsizes h1 h2⟩⟩
    apply hboth.imp
    intro n c hc
    obtain ⟨hn, hcm, hle⟩ := hc
    obtain ⟨_, _, hge, _⟩ := request2size_spec (hns n hn)
    rw [hchunk c hcm]
    omega
  · intro j p hj
    rw [List.getElem?_map] at hj
    obtain ⟨c, hc, rfl⟩ := Option.map_eq_some_iff.mp hj
    exact hsup.listed j c hc
  · intro hne
    cases hslots with
    | own => exact absurd rfl hne
    | given => rfl
  · cases hslots with
    | own q s hs =>
      have hm := O.usableSize_eq (grants.mem (List.mem_append_right _ List.mem_cons_self))
      rw [hm]
      omega
    | given _ _ hne =>
      cases hA with
      | own => exact absurd rfl hne
      | given _ hp hs =>
        rw [O.usableSize_eq (grants.keeps _ hp)]
        omega
  · cases hslots with
    | own q s hs =>
      rw [if_pos rfl]
      rw [List.map_append, ← hcs] at hnew
      exact hnew
    | given _ _ hne =>
      rw [if_neg hne]
      rw [List.append_nil, ← hcs] at hnew
      exact hnew
  · intro hz p hp i hi
    obtain ⟨c, hc, rfl⟩ := List.mem_map.mp hp
    rw [hchunk c hc] at hi
    exact hsup.zeroed hz c hc _ (by simp only [chunk2mem]; omega) (by simp only [chunk2mem]; omega)

/-- In any state in the life of an image, `mspace_independent_comalloc` returns null and changes
nothing, and the elements and the array do not fit, or it returns an array, the one it was passed
if any, of new blocks of the sizes asked for. -/
theorem independent_comalloc_contract (R : Life base cap ms σ live) : ∃ h, Sound σ ms h ∧
    ∀ sizes chunks, (Request.independentComalloc sizes none).Fair →
      Passed σ live sizes.length chunks →
      ∃ v τ, mspaceIndependentComalloc ms sizes.length sizes chunks σ = .ok (v, τ) ∧
        (v = 0 ∧ τ = σ ∧ NoRoomFor h (iallocTotal (sizes.map request2size) chunks - 8) ∨
          v ≠ 0 ∧ ∃ ps, Distributed base cap ms live chunks sizes ps σ v τ) := by
  obtain ⟨rfl, h, L⟩ := life_living R
  refine ⟨h, L.held.sound, fun sizes chunks hq hp => ?_⟩
  obtain ⟨into, hA, ht⟩ := L.arrayOf hp
  have hfair : (Request.independentComalloc sizes into).Fair := hq
  apply ok_of_wp
  apply L.wp_independentComalloc hfair hA
  · exact fun hno => Or.inl ⟨rfl, rfl, hno.noRoomFor⟩
  · intro a cs τ h' G
    obtain ⟨S, hsup⟩ := G.supplies
    exact Or.inr ⟨hsup.array_ne, _, (G.distributed L hq.1 hA ht).1⟩

set_option maxRecDepth 100000 in
theorem independent_comalloc_contract_sample : ∃ σ v τ ps, Life 4096 65536 4160 σ [5408] ∧
    mspaceIndependentComalloc 4160 3 [10, 200, 30] 0 σ = .ok (v, τ) ∧
    Distributed 4096 65536 4160 [5408] 0 [10, 200, 30] ps σ v τ := by
  have hrun : result (sample >>= fun _ => mspaceIndependentComalloc 4160 3 [10, 200, 30] 0)
      zeroed = some 5376 := by
    decide +kernel
  obtain ⟨σ, τ, R, hr⟩ := sample_then hrun
  obtain ⟨h, _, hall⟩ := independent_comalloc_contract R
  have hfair : (Request.independentComalloc [10, 200, 30] none).Fair := by
    refine ⟨?_, ?_⟩ <;> decide
  obtain ⟨v, υ, hv, hend⟩ := hall [10, 200, 30] 0 hfair (Or.inl rfl)
  obtain ⟨rfl, rfl⟩ := Prod.mk.injEq .. ▸ Except.ok.inj (hr.symm.trans hv)
  cases hend with
  | inl hno => exact absurd hno.1 (by decide)
  | inr hyes =>
    obtain ⟨_, ps, hd⟩ := hyes
    exact ⟨σ, _, _, ps, R, hr, hd⟩

/-- The same for `mspace_independent_calloc`, whose blocks are of one size and zero. -/
theorem independent_calloc_contract (R : Life base cap ms σ live) : ∃ h, Sound σ ms h ∧
    ∀ n e chunks, (Request.independentCalloc n e none).Fair → Passed σ live n chunks →
      ∃ v τ, mspaceIndependentCalloc ms n e chunks σ = .ok (v, τ) ∧
        (v = 0 ∧ τ = σ ∧
            NoRoomFor h (iallocTotal (List.replicate n (request2size e)) chunks - 8) ∨
          v ≠ 0 ∧ ∃ ps, Distributed base cap ms live chunks (List.replicate n e) ps σ v τ ∧
            ∀ p ∈ ps, ∀ i < usableSize τ p, τ.byte (p + i) = .known 0) := by
  obtain ⟨rfl, h, L⟩ := life_living R
  refine ⟨h, L.held.sound, fun n e chunks hq hp => ?_⟩
  obtain ⟨into, hA, ht⟩ := L.arrayOf hp
  have hfair : (Request.independentCalloc n e into).Fair := hq
  apply ok_of_wp
  apply L.wp_independentCalloc hfair hA
  · exact fun hno => Or.inl ⟨rfl, rfl, hno.noRoomFor⟩
  · intro a cs τ h' G
    obtain ⟨S, hsup⟩ := G.supplies
    rw [← List.map_replicate] at G
    obtain ⟨hd, hz⟩ := G.distributed L (replicate_lt hq.1) hA.replicate ht
    exact Or.inr ⟨hsup.array_ne, _, hd, hz trivial⟩

set_option maxRecDepth 100000 in
theorem independent_calloc_contract_sample : ∃ σ v τ ps, Life 4096 65536 4160 σ [5408] ∧
    mspaceIndependentCalloc 4160 2 100 0 σ = .ok (v, τ) ∧
    Distributed 4096 65536 4160 [5408] 0 [100, 100] ps σ v τ := by
  have hrun : result (sample >>= fun _ => mspaceIndependentCalloc 4160 2 100 0) zeroed =
      some 5320 := by
    decide +kernel
  obtain ⟨σ, τ, R, hr⟩ := sample_then hrun
  obtain ⟨h, _, hall⟩ := independent_calloc_contract R
  have hfair : (Request.independentCalloc 2 100 none).Fair := by
    refine ⟨?_, ?_⟩ <;> decide
  obtain ⟨v, υ, hv, hend⟩ := hall 2 100 0 hfair (Or.inl rfl)
  obtain ⟨rfl, rfl⟩ := Prod.mk.injEq .. ▸ Except.ok.inj (hr.symm.trans hv)
  cases hend with
  | inl hno => exact absurd hno.1 (by decide)
  | inr hyes =>
    obtain ⟨_, ps, hd, _⟩ := hyes
    exact ⟨σ, _, _, ps, R, hr, hd⟩

/-- In every state in the life of an image its page size and granularity are powers of two, and
`mspace_mallopt` sets the parameter if the value is taken, and changes nothing otherwise. -/
theorem mallopt_contract (R : Life base cap ms σ live) : ∃ page granularity,
    page.isPowerOfTwo ∧ σ.get 8 (paramPageSize base) = some page ∧
    granularity.isPowerOfTwo ∧ σ.get 8 (paramGranularity base) = some granularity ∧
    ∀ paramNumber value,
      (Takes page paramNumber value →
        mspaceMallopt paramNumber value σ =
          .ok (1, σ.put 8 (paramOf base paramNumber) (sizeOfInt value)) ∧
        Life base cap ms (σ.put 8 (paramOf base paramNumber) (sizeOfInt value)) live) ∧
      (¬ Takes page paramNumber value → mspaceMallopt paramNumber value σ = .ok (0, σ)) := by
  obtain ⟨_, h, L⟩ := life_living R
  obtain ⟨page, hpow, hp⟩ := L.settled.page
  obtain ⟨granularity, hgran, hg⟩ := L.settled.granularity
  refine ⟨page, granularity, hpow, hp, hgran, hg, fun paramNumber value => ⟨fun ht => ?_, fun hno => ?_⟩⟩
  · have hr : mspaceMallopt paramNumber value σ =
        .ok (1, σ.put 8 (paramOf base paramNumber) (sizeOfInt value)) := by
      apply run_of_wp
      apply L.wp_mallopt hp
      · exact fun hno => absurd ht hno
      · exact fun _ _ => ⟨rfl, rfl⟩
    have hserve : serve ms live (.mallopt paramNumber value) σ =
        .ok ((1, live), σ.put 8 (paramOf base paramNumber) (sizeOfInt value)) := by
      simp only [serve, bind, hr, pure]
    have hfair : (Request.mallopt paramNumber value).Fair := trivial
    exact ⟨hr, .served R hfair hserve⟩
  · apply run_of_wp
    apply L.wp_mallopt hp
    · exact fun _ => ⟨rfl, rfl⟩
    · exact fun ht => absurd ht hno

set_option maxRecDepth 100000 in
theorem mallopt_contract_sample : ∃ σ τ, Life 4096 65536 4160 σ [5408] ∧
    mspaceMallopt (-1) 100000 σ = .ok (1, τ) ∧ Life 4096 65536 4160 τ [5408] := by
  obtain ⟨σ, hr⟩ := result_ok sample_live
  have R := sample_life hr
  obtain ⟨page, _, _, _, _, _, hall⟩ := mallopt_contract R
  obtain ⟨hv, R'⟩ := (hall (-1) 100000).1 (Or.inl rfl)
  exact ⟨σ, _, R, hv, R'⟩

end

end Mmdata.Proofs
