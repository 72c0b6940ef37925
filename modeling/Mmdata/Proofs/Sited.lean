import Mmdata.Proofs.RealHeap

namespace Mmdata.Proofs
open Lib Malloc Image

/-- What holds of an image of `cap` bytes behind `Meta` while it is used: `Meta` says where
the mspace is, `pmparams` points into the image, and the mspace holds the blocks `live`. -/
structure Sited (σ : State) (buf cap size : Nat) (live : List Nat) : Prop where
  nonnull : buf ≠ 0
  fits : 4096 + cap ≤ size
  pages : 4096 ∣ cap
  offset : σ.get 8 (mspaceOffset buf) = some (subSize (buf + 4096 + 64) buf)
  params : σ.glob.pmparams = buf + 4096
  trim : TrimOk Any σ (buf + 4096 + 64) (buf + 4096 + cap)
  heap : ∃ h, Held σ (buf + 4096) cap live h

/-- Nothing is mapped on the first page, `Meta` says that the mspace is null, and no block
is live. -/
structure NoMspace (σ : State) (buf : Nat) (live : List Nat) : Prop where
  nonnull : buf ≠ 0
  word : buf < 2 ^ 64
  offset : σ.get 8 (mspaceOffset buf) = some (subSize 0 buf)
  unmapped : ∀ m ∈ σ.maps, 4096 ≤ m.1
  none : live = []

/-- The first two members of `Meta` are the same. -/
def SameMeta (buf : Nat) (σ τ : State) : Prop := Frame (fun a => a < buf ∨ rootObject buf ≤ a) σ τ

section

variable {σ τ : State} {buf cap size ms n k : Nat} {live live' : List Nat} {libc : Libc}
  {c : Call} {K : Objects} {held : State → List Nat} {d d' : MMData}

/-- A call of the allocator keeps the image. -/
theorem Sited.perform {v : Nat} (I : Sited σ buf cap size live)
    (hr : Malloc.perform (buf + 4096 + 64) live c σ = .ok ((v, live'), τ)) :
    Sited τ buf cap size live' ∧ SameMeta buf σ τ := by
  obtain ⟨h, H⟩ := I.heap
  obtain ⟨h', hout⟩ := wp_ok (H.ok.wp_perform H.blocks fun _ => I.trim) hr
  have hf := hout.frame H.ok
  have hmeta : SameMeta buf σ τ := by
    apply hf.mono
    intro b hb
    have hl := hb.1
    exact Or.inr (by simp only [rootObject]; omega)
  refine ⟨⟨I.nonnull, I.fits, I.pages, ?_, ?_, I.trim.within hf, h', H.outcome hout⟩, hmeta⟩
  · rw [hf.get]
    · exact I.offset
    · intro b h1 h2 hb
      have hl := hb.1
      simp only [mspaceOffset] at h2
      omega
  · rw [hf.glob]
    exact I.params

theorem Sited.getMspace (I : Sited σ buf cap size live) :
    Image.getMspace buf σ = .ok (buf + 4096 + 64, σ) := by
  obtain ⟨h, H⟩ := I.heap
  have hword := H.ok.core.arena.word
  have hhigh := H.ok.core.arena.high
  have hget : wp (fun _ => False) (Image.getMspace buf)
      (fun v τ => v = buf + 4096 + 64 ∧ τ = σ) σ :=
    wp_getMspace I.offset (by omega) (by omega) ⟨rfl, rfl⟩
  obtain ⟨v, τ, hr, rfl, rfl⟩ := ok_of_wp hget
  exact hr

/-- `allocate` is a call of `mspace_malloc`. -/
theorem Sited.performs_allocate {v : Option Nat} (I : Sited σ buf cap size live)
    (hr : allocate libc buf k n σ = .ok (v, τ)) :
    Malloc.perform (buf + 4096 + 64) live (.malloc (mulSize n k)) σ =
      .ok ((v.getD 0, v.toList ++ live), τ) := by
  have hms := I.getMspace
  unfold allocate at hr
  rw [if_neg I.nonnull] at hr
  obtain ⟨ms, υ, hget, hrest⟩ := bind_ok hr
  cases hms.symm.trans hget
  obtain ⟨p, ω, hp, hpure⟩ := bind_ok hrest
  cases hpure
  simp only [Malloc.perform, bind, hp]
  by_cases h0 : p = 0
  · simp only [h0, if_true]
    rfl
  · simp only [if_neg h0]
    rfl

/-- `deallocate_ptr` of a live block is a call of `mspace_free`. -/
theorem Sited.performs_deallocate {p : Nat} (I : Sited σ buf cap size live)
    (hk : live[k]? = some p) (hr : deallocatePtr libc buf p σ = .ok ((), τ)) :
    Malloc.perform (buf + 4096 + 64) live (.free k) σ = .ok ((0, live.eraseIdx k), τ) := by
  have hms := I.getMspace
  obtain ⟨h, H⟩ := I.heap
  obtain ⟨a, s, rfl, _⟩ := H.blocks.chunk hk
  unfold deallocatePtr at hr
  rw [if_neg (by omega), if_neg I.nonnull] at hr
  obtain ⟨ms, υ, hget, hrest⟩ := bind_ok hr
  cases hms.symm.trans hget
  simp only [Malloc.perform, hk, bind, hrest]
  rfl

/-- A write to a block is a call too. -/
theorem Sited.performs_write {p i u : Nat} {b : UInt8} (I : Sited σ buf cap size live) (hp : p ∈ live)
    (hu : result (mspaceUsableSize p) σ = some u) (hi : i < u) :
    ∃ k, Malloc.perform (buf + 4096 + 64) live (.write k i b) σ =
      .ok ((0, live), σ.put 1 (p + i) b.toNat) := by
  obtain ⟨h, H⟩ := I.heap
  obtain ⟨k, hk⟩ := List.getElem?_of_mem hp
  obtain ⟨a, s, rfl, ha⟩ := H.blocks.chunk hk
  have hs : usableSize σ (a + 16) = s - 8 := H.ok.usableSize_eq ha
  rw [usableSize, hu] at hs
  have hb := H.ok.core.chunk_bounds (mem_live.mp ha)
  simp only [Option.getD_some] at hs hb
  have hmap : σ.mapped (a + 16 + i) 1 = true :=
    H.ok.core.arena.covers (by omega) (by omega)
  have hput : wp (fun _ => False) (Malloc.perform (buf + 4096 + 64) live (.write k i b))
      (fun r τ => r = (0, live) ∧ τ = σ.put 1 (a + 16 + i) b.toNat) σ := by
    simp only [Malloc.perform, hk, wp_bind]
    apply H.ok.wp_usableSize ha
    rw [wp_if_pos (by omega), wp_bind, wp_store hmap]
    exact ⟨rfl, rfl⟩
  obtain ⟨_, _, hr, rfl, rfl⟩ := ok_of_wp hput
  exact ⟨k, hr⟩

/-- Every use keeps the image. -/
theorem Sited.use (I : Sited σ buf cap size live) (hu : Use libc buf size (σ, live) (τ, live')) :
    Sited τ buf cap size live' ∧ SameMeta buf σ τ := by
  have hms := I.getMspace
  cases hu with
  | allocate hr => exact I.perform (I.performs_allocate hr)
  | @realloc _ _ _ k p bytes v hk hr =>
    unfold Image.realloc at hr
    rw [if_neg I.nonnull] at hr
    obtain ⟨ms, υ, hget, hrest⟩ := bind_ok hr
    cases hms.symm.trans hget
    obtain ⟨q, ω, hq, hpure⟩ := bind_ok hrest
    cases hpure
    apply I.perform (c := .realloc k bytes) (v := q)
    simp only [Malloc.perform, hk, bind, hq]
    by_cases h0 : q = 0
    · simp only [h0, if_true]
      rfl
    · simp only [if_neg h0]
      rfl
  | deallocate hk hr => exact I.perform (I.performs_deallocate hk hr)
  | write hp hu hi =>
    obtain ⟨k, hr⟩ := I.performs_write hp hu hi
    exact I.perform hr
  | elsewhere hf =>
    obtain ⟨h, H⟩ := I.heap
    have hfits := I.fits
    have hhigh := H.ok.core.arena.high
    have hmeta : SameMeta buf σ τ := by
      apply hf.mono
      intro b hb
      by_contra hno
      exact hb (Or.inl ⟨by omega, by omega⟩)
    refine ⟨⟨I.nonnull, hfits, I.pages, ?_, hf.glob ▸ I.params, I.trim.outside_frame hf ?_, h,
      H.outside hf ?_⟩, hmeta⟩
    · rw [hf.get]
      · exact I.offset
      · intro b h1 h2 hb
        simp only [mspaceOffset] at h1 h2
        exact hb (Or.inl ⟨by omega, by simp only [rootObject]; omega⟩)
    · rw [I.params]
      intro b h1 h2 hb
      exact hb (Or.inr ⟨by simp only [allocatorMetaSize]; omega, by omega⟩)
    · intro b h1 h2 hb
      exact hb (Or.inr ⟨by simp only [allocatorMetaSize]; omega, by omega⟩)

theorem NoMspace.getMspace (N : NoMspace σ buf live) : Image.getMspace buf σ = .ok (0, σ) := by
  have hget : wp (fun _ => False) (Image.getMspace buf) (fun v τ => v = 0 ∧ τ = σ) σ :=
    wp_getMspace N.offset (by decide) N.word ⟨rfl, rfl⟩
  obtain ⟨v, τ, hr, rfl, rfl⟩ := ok_of_wp hget
  exact hr

theorem NoMspace.load {a v : Nat} (N : NoMspace σ buf live) (ha : a < 4096)
    (hr : Lib.load n a σ = .ok (v, τ)) : False := by
  have hm : σ.mapped a n = false := by
    unfold Machine.mapped
    rw [List.any_eq_false]
    intro m hm
    have hlow := N.unmapped m hm
    simp only [Bool.and_eq_true, decide_eq_true_eq]
    omega
  unfold Lib.load at hr
  rw [hm] at hr
  contradiction

theorem NoMspace.dvOrTop {v : Option (Nat × Nat)} (N : NoMspace σ buf live)
    (hr : mallocFromDvOrTop 0 n σ = .ok (v, τ)) : False := by
  obtain ⟨_, _, hload, _⟩ := bind_ok hr
  exact N.load (by decide) hload

/-- Without an mspace every allocation faults. -/
theorem NoMspace.malloc {v : Nat} (N : NoMspace σ buf live)
    (hr : mspaceMalloc 0 n σ = .ok (v, τ)) : False := by
  unfold mspaceMalloc at hr
  by_cases hsmall : n ≤ maxSmallRequest
  · rw [if_pos hsmall] at hr
    obtain ⟨_, _, hfound, _⟩ := bind_ok hr
    obtain ⟨_, _, hload, _⟩ := bind_ok hfound
    exact N.load (by decide) hload
  · rw [if_neg hsmall] at hr
    by_cases hmax : n ≥ maxRequest
    · rw [if_pos hmax] at hr
      obtain ⟨_, _, hfound, _⟩ := bind_ok hr
      exact N.dvOrTop hfound
    · rw [if_neg hmax] at hr
      obtain ⟨_, _, hfound, _⟩ := bind_ok hr
      obtain ⟨_, _, hload, _⟩ := bind_ok hfound
      exact N.load (by decide) hload

theorem NoMspace.use (N : NoMspace σ buf live) (hu : Use libc buf size (σ, live) (τ, live')) :
    NoMspace τ buf live' := by
  have hnone := N.none
  subst hnone
  cases hu with
  | allocate hr =>
    unfold allocate at hr
    rw [if_neg N.nonnull] at hr
    obtain ⟨ms, υ, hget, hrest⟩ := bind_ok hr
    cases N.getMspace.symm.trans hget
    obtain ⟨p, ω, hp, _⟩ := bind_ok hrest
    exact (N.malloc hp).elim
  | realloc hk => contradiction
  | deallocate hk => contradiction
  | write hp => contradiction
  | elsewhere hf =>
    refine ⟨N.nonnull, N.word, ?_, hf.maps ▸ N.unmapped, rfl⟩
    rw [hf.get]
    · exact N.offset
    · intro b h1 h2 hb
      simp only [mspaceOffset] at h1 h2
      exact hb (Or.inl ⟨by omega, by simp only [rootObject]; omega⟩)

theorem NoMspace.uses {s t : State × List Nat} (N : NoMspace s.1 buf s.2)
    (hu : Uses libc buf size s t) : NoMspace t.1 buf t.2 := by
  induction hu with
  | refl => exact N
  | tail _ hstep ih => exact ih.use hstep

/-- What `CreateAllocator` leaves for the constructor of the naming table to find, where
`page` is the size of a page that `create_mspace_with_base` went by. -/
structure Laid (σ : State) (buf cap size : Nat) (page : Option Nat) : Prop where
  capacity : σ.get 8 (metaSize buf) = some cap
  heap : (¬ ∃ s ∈ page, Accepted cap s) ∧ NoMspace σ buf [] ∨
    (∃ s ∈ page, Accepted cap s) ∧ Sited σ buf cap size []

theorem SameMeta.capacity (hm : SameMeta buf σ τ) : τ.get 8 (metaSize buf) = σ.get 8 (metaSize buf) := by
  apply Frame.get hm
  intro b h1 h2 hb
  simp only [metaSize, rootObject] at h1 h2 hb
  omega

/-- `mspace_offset` is stored. -/
theorem laid_offset {page : Option Nat} (h0 : buf ≠ 0) (hword : buf + size ≤ 2 ^ 64) (hl : 8192 ≤ size)
    (hlow : ∀ m ∈ σ.maps, 4096 ≤ m.1) (hmap : ∃ r ∈ σ.maps, r.1 ≤ buf ∧ buf + size ≤ r.2)
    (hcap : σ.get 8 (metaSize buf) = some cap) (hfits : 4096 + cap ≤ size)
    (hpages : 4096 ∣ cap) (hno : ms = 0 → ¬ ∃ s ∈ page, Accepted cap s)
    (hms : ms ≠ 0 → (∃ s ∈ page, Accepted cap s) ∧ ms = buf + 4096 + 64 ∧
      σ.glob.pmparams = buf + 4096 ∧ TrimOk Any σ ms (buf + 4096 + cap) ∧
      ∃ h, Held σ (buf + 4096) cap [] h) :
    Laid (σ.put 8 (mspaceOffset buf) (subSize ms buf)) buf cap size page := by
  have hcov : σ.mapped (buf + 8) 8 = true := by
    obtain ⟨r, hr, hlo, hhi⟩ := hmap
    exact Machine.mapped_of_mem hr (by omega) (by omega)
  have hoff : (σ.put 8 (mspaceOffset buf) (subSize ms buf)).get 8 (mspaceOffset buf) =
      some (subSize ms buf) := Machine.get_put_same hcov (subSize_lt _ _)
  have hfs : Frame (Within (buf + 8) (buf + 16)) σ
      (σ.put 8 (mspaceOffset buf) (subSize ms buf)) :=
    (Frame.refl _ σ).put fun b h1 h2 => by
      simp only [mspaceOffset] at h1 h2
      exact ⟨by omega, by omega⟩
  constructor
  · rw [hfs.get]
    · exact hcap
    · intro b h1 h2 hb
      have hb1 := hb.1
      simp only [metaSize] at h2
      omega
  · by_cases hz : ms = 0
    · subst hz
      exact Or.inl ⟨hno rfl, h0, by omega, hoff, hlow, rfl⟩
    · obtain ⟨hacc, rfl, hpm, T, h, H⟩ := hms hz
      refine Or.inr ⟨hacc, h0, hfits, hpages, hoff, hpm, T.outside_frame hfs ?_, h, H.outside hfs ?_⟩
      · rw [hpm]
        intro b h1 h2 hb
        have hb2 := hb.2
        omega
      · intro b h1 h2 hb
        have hb2 := hb.2
        omega

/-- `CreateAllocator` returns 0 when the naming table has been constructed. -/
theorem created_laid {i : Int} (hi : i = size) (h0 : buf ≠ 0) (h63 : size < 2 ^ 63)
    (h8 : buf % 8 = 0) (hword : buf + size ≤ 2 ^ 64) (hk : 12 ≤ k) (hpage : σ.glob.pageSize = 2 ^ k)
    (hmap : ∃ r ∈ σ.maps, r.1 ≤ buf ∧ buf + size ≤ r.2) (hlow : ∀ m ∈ σ.maps, 4096 ≤ m.1)
    (hr : createAllocator K d buf i σ = .ok ((0, d'), τ)) :
    ∃ σ₁, σ₁.maps = σ.maps ∧
      Laid σ₁ buf ((size - 4096) / 2 ^ k * 2 ^ k) size (pageFound σ (buf + 4096)) ∧
      K.table (namingTable buf) buf σ₁ = .ok ((), τ) := by
  have hl : 8192 ≤ size := by
    have hends : CreateEnds d buf i σ (0, d') τ := wp_ok any_createAllocator hr
    cases hends with
    | created hlarge => omega
  have hspace : (attach d buf).allocator_ = buf := by
    rw [attach, if_pos h0]
  have hpow : 2 ^ 12 ∣ 2 ^ k := Nat.pow_dvd_pow 2 hk
  have hcap : 4096 ∣ (size - 4096) / 2 ^ k * 2 ^ k := Dvd.dvd.mul_left hpow _
  have hle := Nat.div_mul_le_self (size - 4096) (2 ^ k)
  have hend : wp Any (createAllocator K d buf i) (fun _ υ =>
      ∃ σ₁, σ₁.maps = σ.maps ∧
        Laid σ₁ buf ((size - 4096) / 2 ^ k * 2 ^ k) size (pageFound σ (buf + 4096)) ∧
        K.table (namingTable buf) buf σ₁ = .ok ((), υ)) σ := by
    apply wp_createAllocator_header hi (fun _ => trivial) hpage hmap hl h63
    intro σ₁ hk32 hf₁ hword₁
    generalize (size - 4096) / 2 ^ k * 2 ^ k = cap at hcap hle hword₁ ⊢
    have hmap₁ : ∃ r ∈ σ₁.maps, r.1 ≤ buf ∧ buf + size ≤ r.2 := hf₁.maps ▸ hmap
    have hpage₁ : σ₁.glob.pageSize = 2 ^ k := hf₁.glob ▸ hpage
    have hfound : pageFound σ₁ (buf + 4096) = pageFound σ (buf + 4096) := by
      unfold pageFound
      rw [hf₁.glob, hf₁.get]
      intro b h1 h2 hb
      have hb2 := hb.2
      simp only [paramPageSize] at h1
      omega
    rw [← hfound]
    have hcov : ∀ {a n : Nat}, buf ≤ a → a + n ≤ buf + size → σ₁.mapped a n = true := by
      intro a n h1 h2
      obtain ⟨r, hr, hlo, hhi⟩ := hmap₁
      exact Machine.mapped_of_mem hr (by omega) (by omega)
    -- what follows once the mspace has been created
    have hrest : ∀ ms τ,
        Frame (Within (buf + 4096) (buf + size)) (aimed σ₁ (buf + 4096)) τ →
        (ms = 0 → ¬ ∃ s ∈ pageFound σ₁ (buf + 4096), Accepted cap s) →
        (ms ≠ 0 → (∃ s ∈ pageFound σ₁ (buf + 4096), Accepted cap s) ∧ ms = buf + 4096 + 64 ∧
          TrimOk Any τ ms (buf + 4096 + cap) ∧ ∃ h, Held τ (buf + 4096) cap [] h) →
        wp Any (store 8 (mspaceOffset buf) (subSize ms buf)) (fun _ τ =>
          wp Any (K.table (namingTable buf) (attach d buf).allocator_) (fun _ υ =>
            ∃ σ₂, σ₂.maps = σ.maps ∧ Laid σ₂ buf cap size (pageFound σ₁ (buf + 4096)) ∧
              K.table (namingTable buf) buf σ₂ = .ok ((), υ)) τ) τ := by
      intro ms τ hf hno hheap
      have hmaps : τ.maps = σ₁.maps := hf.maps
      rw [mspaceOffset, wp_store (by rw [Machine.mapped_congr hmaps]; exact hcov (by omega) (by omega)), hspace]
      apply any_of_ok
      intro u υ ht
      refine ⟨τ.put 8 (mspaceOffset buf) (subSize ms buf), hmaps.trans hf₁.maps,
        laid_offset h0 hword hl ?_ ?_ ?_ (by omega) hcap hno ?_, ht⟩
      · rw [hmaps, hf₁.maps]
        exact hlow
      · rw [hmaps]
        exact hmap₁
      · rw [hf.get]
        · exact hword₁
        · intro b h1 h2 hb
          have hb1 := hb.1
          simp only [metaSize] at h2
          omega
      · intro hz
        obtain ⟨hacc, hat, T, hH⟩ := hheap hz
        exact ⟨hacc, hat, by rw [hf.glob]; rfl, T, hH⟩
    unfold createRest
    simp only [wp_bind, wp_pure]
    by_cases hz : cap = 0
    · have hsmall : ∀ a n, buf + 4096 ≤ a → a + n ≤ buf + 4096 + 48 →
          σ₁.mapped a n = true := fun a n h1 h2 => hcov (by omega) (by omega)
      apply wp_refused (by rw [hz]; exact Nat.zero_le _) hsmall
      · intro e he
        have hin : e.1 + e.2 ≤ 48 := by
          simp only [paramWords, List.mem_cons, List.not_mem_nil, or_false] at he
          rcases he with rfl | rfl | rfl | rfl | rfl <;> decide
        exact ⟨hsmall _ _ (by omega) (by omega), fun _ => trivial⟩
      · rw [hpage₁]
        exact Nat.pow_lt_pow_right (by decide) (by omega)
      · rw [hpage₁]
        exact page_power (by omega)
      · intro τ hf
        apply hrest 0 τ (hf.mono _)
        · rintro _ ⟨_, _, hlarge, _⟩
          omega
        · exact fun h => absurd rfl h
        · intro b hb
          have hb2 := hb.2
          exact ⟨hb.1, by omega⟩
    · have hwide : ∀ {τ : State},
          Frame (Within (buf + 4096) (buf + 4096 + cap)) (aimed σ₁ (buf + 4096)) τ →
          Frame (Within (buf + 4096) (buf + size)) (aimed σ₁ (buf + 4096)) τ := by
        intro τ hf
        apply hf.mono
        intro b hb
        have hb2 := hb.2
        exact ⟨hb.1, by omega⟩
      have B : Buffer Any σ₁ (buf + 4096) cap := by
        obtain ⟨r, hr, hlo, hhi⟩ := hmap₁
        refine page_buffer (fun _ _ => trivial) (show k < 64 by omega) hpage₁ (by omega) (by omega) ?_
          (by omega) ⟨r, hr, by omega, by omega⟩
        simp only [mstateSize, topFootSize]
        omega
      apply B.wp_createMspaceFront (by decide)
      · intro τ page hp hcut P hf
        refine hrest 0 τ (hwide hf) (fun _ => ?_) fun h => absurd rfl h
        rintro ⟨s, hs, hacc⟩
        cases (P.pageFound hp).symm.trans hs
        exact hcut hacc.2
      · intro τ O hown _ T hf P hacc
        obtain ⟨page, hp, hacc⟩ := hacc
        have hfit : ∃ s ∈ pageFound σ₁ (buf + 4096), Accepted cap s := ⟨page, P.pageFound hp, hacc⟩
        refine hrest _ τ (hwide hf) (fun h => ?_) fun _ =>
          ⟨hfit, rfl, T, _, O, List.Perm.refl _, hown⟩
        omega
  exact wp_ok hend hr

theorem Sited.uses {s t : State × List Nat} (I : Sited s.1 buf cap size s.2)
    (hu : Uses libc buf size s t) : Sited t.1 buf cap size t.2 ∧ SameMeta buf s.1 t.1 := by
  induction hu with
  | refl => exact ⟨I, Frame.refl _ _⟩
  | tail _ hstep ih =>
    obtain ⟨I', hm⟩ := ih.1.use hstep
    exact ⟨I', ih.2.trans hm⟩

/-- An image in which there is an mspace is fit for use. -/
theorem Laid.uses {υ : State} {page : Option Nat} (L : Laid σ buf cap size page) (hu : Uses libc buf size (σ, []) (υ, live))
    (hms : result (getMspace buf) υ = some ms) (hne : ms ≠ 0) :
    Sited υ buf cap size live ∧ υ.get 8 (metaSize buf) = some cap := by
  cases L.heap with
  | inl N =>
    have hget := (N.2.uses hu).getMspace
    rw [result, hget] at hms
    exact absurd (Option.some.inj hms).symm hne
  | inr I =>
    obtain ⟨I', hm⟩ := I.2.uses hu
    exact ⟨I', hm.capacity.trans L.capacity⟩

end

end Mmdata.Proofs
