import Mmdata.Image.Use
import Mmdata.Proofs.Blocks
import Mmdata.Proofs.FileRoot

namespace Mmdata.Proofs
open Lib Malloc Image

/-- Traps that old contents of a buffer can cause: an indeterminate parameter is read, or
a granularity of zero. -/
def Leftover (e : Trap) : Prop := e = .indeterminate ∨ e = .divZero

/-- The constructor of the naming table writes to the table. -/
def TableOk (K : Objects) (buf : Nat) : Prop :=
  ∀ space σ, σ.mapped (namingTable buf) maxNamingTableSize = true →
    wp Leftover (K.table (namingTable buf) space)
      (fun _ τ => Frame (Within (namingTable buf) (namingTable buf + maxNamingTableSize)) σ τ) σ

/-- The capacity that `CreateAllocator` passes on. -/
def capacityOf (memsize : Nat) : Nat := (memsize - 4096) / 4096 * 4096

/-- What `CreateAllocator` leaves of the mspace at `ms`, or of the null one. -/
structure Founded (D : Trap → Prop) (buf memsize ms : Nat) (τ : State) : Prop where
  offset : τ.get 8 (mspaceOffset buf) = some (subSize ms buf)
  params : τ.glob.pmparams = buf + 4096
  heap : ms ≠ 0 → ms = buf + 4096 + 64 ∧
    TrimOk D τ ms (buf + 4096 + capacityOf memsize) ∧
    ∃ h, Held τ (buf + 4096) (capacityOf memsize) [] h

/-- The object when its allocator has been given the space `buf`. -/
def attach (d : MMData) (buf : Nat) : MMData := if buf ≠ 0 then { d with allocator_ := buf } else d

section

variable {D : Trap → Prop} {σ τ : State} {W : Nat → Prop} {m lo hi base cap : Nat} {h : Heap}
  {live : List Nat} {buf memsize size ms : Nat} {K : Objects} {d : MMData}

theorem capacityOf_le (hl : 8192 ≤ memsize) : 4096 ≤ capacityOf memsize ∧
    4096 + capacityOf memsize ≤ memsize ∧ capacityOf memsize % 8 = 0 := by
  unfold capacityOf
  omega

/-- Writes outside the arena and to the blocks of clients leave the heap. -/
theorem Ok.outside (O : Ok σ m lo hi h) (hf : Frame W σ τ)
    (hW : ∀ b, m ≤ b → b < hi → W b → Payload h.chunks b) : Ok τ m lo hi h := by
  have C := O.core
  have hhigh := C.arena.high
  have htop := C.tiled.le
  obtain ⟨hpos, hfits⟩ := C.topFits
  have hlow : ∀ b, m ≤ b → b < hi → W b → m + 936 ≤ b ∧ b < h.top + 8 := by
    intro b h1 h2 hb
    have hpb := C.tiled.payload_bounds (hW b h1 h2 hb)
    omega
  have hin : ∀ b, TileWord h.chunks b → m ≤ b ∧ b < hi := by
    intro b hb
    have hwb := C.tiled.word_bounds hb
    omega
  have hbins : ∀ b, BinZone m h.inBins b → m ≤ b ∧ b < hi := by
    intro b hb
    have hbb := BinZone.bounds (C.spread inBins_free) hb
    omega
  refine ⟨⟨C.arena.frame hf ?_, C.scalars.frame hf ?_ ?_, C.tiled.frame hf ?_, ?_, C.topAlign,
    C.topFits, ?_, C.binned.frame (C.spread inBins_free) hf ?_⟩, O.dvOk⟩
  · intro b h1 h2 hb
    have hl := hlow b (by omega) (by omega) hb
    omega
  · intro b h1 h2 hb
    have hl := hlow b (by omega) (by omega) hb
    omega
  · intro b h1 h2 hb
    by_cases hbhi : b < hi
    · have hl := hlow b (by omega) hbhi hb
      omega
    · omega
  · intro b hb hw
    obtain ⟨h1, h2⟩ := hin b hb
    exact C.tiled.word_not_payload hb (hW b h1 h2 hw)
  · rw [hf.get (fun b h1 h2 hb => ?_)]
    · exact C.topHead
    · have hl := hlow b (by omega) (by omega) hb
      omega
  · rw [hf.get (fun b h1 h2 hb => ?_)]
    · exact C.topFoot
    · have hroom := C.foot_behind
      have hl := hlow b (by omega) (by omega) hb
      omega
  · intro b hb hw
    obtain ⟨h1, h2⟩ := hbins b hb
    exact (C.binZone_tile inBins_free hb).2.1 (hW b h1 h2 hw)

theorem Held.outside (H : Held σ base cap live h) (hf : Frame W σ τ)
    (hW : ∀ b, base + 56 ≤ b → b < base + cap → ¬ W b) : Held τ base cap live h := by
  refine ⟨H.ok.outside hf ?_, H.blocks, ?_⟩
  · intro b h1 h2 hb
    exact absurd hb (hW b (by omega) h2)
  · have hhigh := H.ok.core.arena.high
    rw [hf.get fun b h1 h2 => hW b h1 (by omega)]
    exact H.ownHead

theorem TrimOk.outside_frame (T : TrimOk D σ m hi) (hf : Frame W σ τ)
    (hW : ∀ b, σ.glob.pmparams + 16 ≤ b → b < σ.glob.pmparams + 24 → ¬ W b) :
    TrimOk D τ m hi := by
  have hget : τ.get 8 (σ.glob.pmparams + 16) = σ.get 8 (σ.glob.pmparams + 16) :=
    hf.get fun b h1 h2 => hW b h1 (by omega)
  refine ⟨?_, ?_, ?_, ?_⟩
  all_goals rw [hf.glob]
  · exact T.outside
  · rw [Machine.mapped_congr hf.maps]
    exact T.mapped
  · rw [hget]
    exact T.known
  · rw [hget]
    exact T.nonzero

/-- The mspace of an image, whatever is written outside it. -/
theorem Founded.outside (F : Founded D buf memsize ms σ) (hf : Frame W σ τ)
    (hW : ∀ b, W b → (b < buf + 8 ∨ buf + 16 ≤ b) ∧
      (b < buf + 4096 ∨ buf + 4096 + capacityOf memsize ≤ b)) (hl : 8192 ≤ memsize) :
    Founded D buf memsize ms τ := by
  have hc := (capacityOf_le hl).1
  refine ⟨?_, ?_, fun h0 => ?_⟩
  · rw [hf.get]
    · exact F.offset
    · intro b h1 h2 hb
      have hw := (hW b hb).1
      simp only [mspaceOffset] at h1 h2
      omega
  · rw [hf.glob]
    exact F.params
  · obtain ⟨hms, T, h, H⟩ := F.heap h0
    refine ⟨hms, T.outside_frame hf ?_, h, H.outside hf ?_⟩
    · rw [F.params]
      intro b h1 h2 hb
      have hw := (hW b hb).2
      omega
    · intro b h1 h2 hb
      have hw := (hW b hb).2
      omega

theorem toInt_page {k : Nat} (hk : k < 32) :
    toInt (2 ^ k) = (2 ^ k : Nat) ∨ toInt (2 ^ k) = -((2 ^ k : Nat) : Int) := by
  have hle : 2 ^ k ≤ 2 ^ 31 := Nat.pow_le_pow_right (by decide) (by omega)
  generalize 2 ^ k = page at hle ⊢
  unfold toInt
  split
  · exact Or.inl (by omega)
  · exact Or.inr (by omega)

/-- Rounding down to whole pages. The size of a page is made an `int`. -/
theorem wp_allignPage {Q : Int → State → Prop} {n k : Nat} (hk : 32 ≤ k → D .divZero)
    (hp : σ.glob.pageSize = 2 ^ k) (hQ : k < 32 → Q ((n / 2 ^ k * 2 ^ k : Nat) : Int) σ) :
    wp D (allignPage (n : Int)) Q σ := by
  have hpos : 0 < 2 ^ k := Nat.two_pow_pos k
  unfold allignPage
  rw [wp_bind, wp_globals, hp]
  simp only
  by_cases hk32 : k < 32
  · have hle : 2 ^ k ≤ 2 ^ 31 := Nat.pow_le_pow_right (by decide) (by omega)
    have hpage := toInt_page hk32
    have hmod : (n : Int).tmod (toInt (2 ^ k)) % 2 ^ 32 = ((n % 2 ^ k : Nat) : Int) := by
      have hself : (n : Int).tmod (toInt (2 ^ k)) = ((n % 2 ^ k : Nat) : Int) := by
        rw [Int.tmod_eq_emod_of_nonneg (by omega)]
        cases hpage with
        | inl h => rw [h]; exact (Int.natCast_emod n (2 ^ k)).symm
        | inr h => rw [h, Int.emod_neg]; exact (Int.natCast_emod n (2 ^ k)).symm
      have hlt := Nat.mod_lt n hpos
      rw [hself]
      omega
    have hdiv := Nat.div_add_mod' n (2 ^ k)
    rw [wp_if_neg (by omega), wp_pure, hmod]
    have hround : (if ((n % 2 ^ k : Nat) : Int) > 0 then (n : Int) - ((n % 2 ^ k : Nat) : Int)
        else (n : Int)) = ((n / 2 ^ k * 2 ^ k : Nat) : Int) := by
      split
      · omega
      · omega
    rw [hround]
    exact hQ hk32
  · have hz : toInt (2 ^ k) = 0 := by
      have hmod : 2 ^ k % 2 ^ 32 = 0 :=
        Nat.mod_eq_zero_of_dvd (Nat.pow_dvd_pow 2 (by omega))
      generalize 2 ^ k = page at hmod
      unfold toInt
      rw [if_pos (by omega)]
      omega
    rw [wp_if_pos hz, wp_bind]
    exact hk (by omega)

theorem toInt64_small {n : Nat} (h : n < 2 ^ 63) : toInt64 n = n := by
  have hself : toInt64 (toSizeT (n : Int)) = n := toInt64_toSizeT (by omega) (by omega)
  have hcast : toSizeT (n : Int) = n := by
    unfold toSizeT
    omega
  rw [hcast] at hself
  exact hself

theorem toSizeT_natCast {n : Nat} (h : n < 2 ^ 64) : toSizeT (n : Int) = n := by
  unfold toSizeT
  omega

/-- `getMspace` undoes the subtraction of `CreateAllocator`. -/
theorem wp_getMspace {Q : Nat → State → Prop}
    (hg : σ.get 8 (mspaceOffset buf) = some (subSize ms buf)) (hm : ms < 2 ^ 64)
    (hb : buf < 2 ^ 64) (hQ : Q ms σ) : wp D (getMspace buf) Q σ := by
  unfold getMspace
  rw [wp_bind, wp_load hg, wp_pure]
  have hback : addSize buf (subSize ms buf) = ms := by
    unfold addSize subSize
    omega
  rw [hback]
  exact hQ

theorem page_power {k : Nat} (hk : k < 64) : (2 ^ k : Nat) &&& subSize (2 ^ k) 1 = 0 := by
  have hlt : 2 ^ k < 2 ^ 64 := Nat.pow_lt_pow_right (by decide) hk
  have hpos : 0 < 2 ^ k := Nat.two_pow_pos k
  rw [subSize_le hpos hlt, Nat.and_two_pow_sub_one_eq_mod, Nat.mod_self]

/-- A buffer recreated by `create_mspace_with_base`, whatever it held before. -/
theorem page_buffer {k : Nat} (hD : ∀ e, Leftover e → D e) (hk : k < 64)
    (hp : σ.glob.pageSize = 2 ^ k) (h8 : base % 8 = 0) (hc8 : cap % 8 = 0)
    (hlarge : mstateSize + topFootSize < cap) (hw : base + cap ≤ 2 ^ 64)
    (hmap : ∃ r ∈ σ.maps, r.1 ≤ base ∧ base + cap ≤ r.2) : Buffer D σ base cap := by
  have hcov : ∀ a n, base ≤ a → a + n ≤ base + cap → σ.mapped a n = true := by
    intro a n h1 h2
    obtain ⟨r, hr, hlo, hhi⟩ := hmap
    exact Machine.mapped_of_mem hr (by omega) (by omega)
  refine ⟨h8, hc8, hlarge, hw, hmap, ?_, ?_, ?_, fun _ _ => hD _ (Or.inr rfl)⟩
  · intro e he
    have hin : e.1 + e.2 ≤ 48 := by
      simp only [paramWords, List.mem_cons, List.not_mem_nil, or_false] at he
      rcases he with rfl | rfl | rfl | rfl | rfl <;> decide
    simp only [mstateSize, topFootSize] at hlarge
    exact ⟨hcov _ _ (by omega) (by omega), fun _ => hD _ (Or.inl rfl)⟩
  · rw [hp]
    exact Nat.pow_lt_pow_right (by decide) hk
  · rw [hp]
    exact page_power hk

theorem image_buffer (hD : ∀ e, Leftover e → D e) (B : Buf σ buf memsize) (hl : 8192 ≤ memsize) :
    Buffer D σ (buf + 4096) (capacityOf memsize) := by
  obtain ⟨hc, hcm, hc8⟩ := capacityOf_le hl
  have hal := B.align
  have hw := B.word
  obtain ⟨r, hr, hlo, hhi⟩ := B.mapped
  refine page_buffer hD (show 12 < 64 by decide) (show _ = 2 ^ 12 from B.page) (by omega) hc8 ?_
    (by omega) ⟨r, hr, by omega, by omega⟩
  simp only [mstateSize, topFootSize]
  omega

/-- What `CreateAllocator` does once the capacity is known. -/
def createRest (K : Objects) (d : MMData) (buf cap : Nat) : Code (Int × MMData) := do
  let mspace ← createMspaceWithBase (buf + allocatorMetaSize) cap 0 1
  store 8 (mspaceOffset buf) (subSize mspace buf)
  let d := if buf ≠ 0 then { d with allocator_ := buf } else d
  K.table (namingTable buf) d.allocator_
  return (0, d)

/-- `CreateAllocator` up to the creation of the mspace: the rest of `Meta` is zero. -/
theorem wp_createAllocator_front {Q : Int × MMData → State → Prop} {i : Int} {k : Nat}
    (hi : i = memsize) (hk : 32 ≤ k → D .divZero) (hp : σ.glob.pageSize = 2 ^ k)
    (hmapped : ∃ r ∈ σ.maps, r.1 ≤ buf ∧ buf + memsize ≤ r.2) (hl : 8192 ≤ memsize)
    (h63 : memsize < 2 ^ 63)
    (hQ : ∀ τ, k < 32 → Frame (Within buf (buf + 4096)) σ τ →
      τ.get 8 (metaSize buf) = some ((memsize - 4096) / 2 ^ k * 2 ^ k) →
      (∀ b, buf + 8 ≤ b → b < buf + sizeofMeta → τ.byte b = .known 0) →
      wp D (createRest K d buf ((memsize - 4096) / 2 ^ k * 2 ^ k)) Q τ) :
    wp D (createAllocator K d buf i) Q σ := by
  have hmap : ∀ {τ : State} {a n : Nat}, τ.maps = σ.maps → buf ≤ a → a + n ≤ buf + memsize →
      τ.mapped a n = true := by
    intro τ a n hm h1 h2
    obtain ⟨r, hr, hlo, hhi⟩ := hmapped
    exact Machine.mapped_of_mem (hm ▸ hr) (by omega) (by omega)
  unfold createAllocator
  have hlarge : ¬ i < allocatorMetaSize * 2 := by
    simp only [allocatorMetaSize]
    omega
  have hmeta : sizeofMeta = 1296 := rfl
  simp only [metaSize]
  rw [wp_if_neg hlarge, wp_bind, wp_memset (hmap rfl (Nat.le_refl buf) (by omega))]
  have hsub : toSizeT (i - allocatorMetaSize) = memsize - 4096 := by
    have hcast : i - allocatorMetaSize = ((memsize - 4096 : Nat) : Int) := by
      simp only [allocatorMetaSize]
      omega
    rw [hcast, toSizeT_natCast (by omega)]
  have hget : ∀ (τ : State) (v : Nat), τ.maps = σ.maps → v < 2 ^ 64 →
      (τ.put 8 buf v).get 8 buf = some v := by
    intro τ v hm hv
    exact Machine.get_put_same (hmap hm (Nat.le_refl buf) (by omega)) (by omega)
  have hdiv := Nat.div_mul_le_self (memsize - 4096) (2 ^ k)
  rw [wp_bind, hsub, wp_store (hmap (by rfl) (Nat.le_refl buf) (by omega)), wp_bind,
    wp_load (hget _ _ (by rfl) (by omega)), wp_bind, toInt64_small (by omega)]
  refine wp_allignPage hk (by exact hp) fun hk32 => ?_
  rw [wp_bind, toSizeT_natCast (by omega),
    wp_store (hmap (by rfl) (Nat.le_refl buf) (by omega)), wp_bind,
    wp_load (hget _ _ (by rfl) (by omega))]
  refine hQ _ hk32 ((((Frame.refl _ σ).fill ?_).put ?_).put ?_) (hget _ _ (by rfl) (by omega)) ?_
  · intro b h1 h2
    exact ⟨by omega, by omega⟩
  · intro b h1 h2
    exact ⟨by omega, by omega⟩
  · intro b h1 h2
    exact ⟨by omega, by omega⟩
  · intro b h1 h2
    have hout : ¬ (buf ≤ b ∧ b < buf + 8) := by omega
    simp only [Machine.put, storeLE, if_neg hout, Machine.fill, fillBytes]
    exact if_pos ⟨by omega, h2⟩

theorem wp_createAllocator_header {Q : Int × MMData → State → Prop} {i : Int} {k : Nat}
    (hi : i = memsize) (hk : 32 ≤ k → D .divZero) (hp : σ.glob.pageSize = 2 ^ k)
    (hmapped : ∃ r ∈ σ.maps, r.1 ≤ buf ∧ buf + memsize ≤ r.2) (hl : 8192 ≤ memsize)
    (h63 : memsize < 2 ^ 63)
    (hQ : ∀ τ, k < 32 → Frame (Within buf (buf + 4096)) σ τ →
      τ.get 8 (metaSize buf) = some ((memsize - 4096) / 2 ^ k * 2 ^ k) →
      wp D (createRest K d buf ((memsize - 4096) / 2 ^ k * 2 ^ k)) Q τ) :
    wp D (createAllocator K d buf i) Q σ :=
  wp_createAllocator_front hi hk hp hmapped hl h63 fun τ hk32 hf hw _ => hQ τ hk32 hf hw

/-- `CreateAllocator` up to the construction of the naming table. -/
theorem wp_createAllocator {Q : State → Prop} {i : Int} (hD : ∀ e, Leftover e → D e)
    (hi : i = memsize) (B : Buf σ buf memsize) (hl : 8192 ≤ memsize) (h63 : memsize < 2 ^ 63)
    (hQ : ∀ ms τ, Frame (Within buf (buf + memsize)) (aimed σ (buf + 4096)) τ →
      Founded D buf memsize ms τ → ms < 2 ^ 64 →
      wp D (K.table (namingTable buf) (attach d buf).allocator_) (fun _ τ => Q τ) τ) :
    wp D (createAllocator K d buf i) (fun _ τ => Q τ) σ := by
  have hcm := (capacityOf_le hl).2.1
  have hal := B.align
  have hw := B.word
  have hmap : ∀ {τ : State} {a n : Nat}, τ.maps = σ.maps → buf ≤ a → a + n ≤ buf + memsize →
      τ.mapped a n = true := by
    intro τ a n hm h1 h2
    obtain ⟨r, hr, hlo, hhi⟩ := B.mapped
    exact Machine.mapped_of_mem (hm ▸ hr) (by omega) (by omega)
  apply wp_createAllocator_header hi (fun h => absurd h (by decide)) (show _ = 2 ^ 12 from B.page)
    B.mapped hl h63
  intro σ₁ _ hf₁ _
  have B₁ : Buf σ₁ buf memsize := ⟨hal, hf₁.glob ▸ B.page, hw, hf₁.maps ▸ B.mapped⟩
  -- what follows once the mspace has been created
  have hrest : ∀ ms τ, ms < 2 ^ 64 →
      Frame (Within (buf + 4096) (buf + 4096 + capacityOf memsize)) (aimed σ₁ (buf + 4096)) τ →
      (ms ≠ 0 → ms = buf + 4096 + 64 ∧ TrimOk D τ ms (buf + 4096 + capacityOf memsize) ∧
        ∃ h, Held τ (buf + 4096) (capacityOf memsize) [] h) →
      wp D (store 8 (mspaceOffset buf) (subSize ms buf)) (fun _ τ =>
        wp D (K.table (namingTable buf) (attach d buf).allocator_) (fun _ τ => Q τ) τ) τ := by
    intro ms τ hms hf hheap
    have hmaps : τ.maps = σ.maps := hf.maps.trans hf₁.maps
    rw [mspaceOffset, wp_store (hmap hmaps (by omega) (by omega))]
    have hfs : Frame (Within (buf + 8) (buf + 16)) τ (τ.put 8 (buf + 8) (subSize ms buf)) :=
      (Frame.refl _ τ).put fun b h1 h2 => ⟨h1, by omega⟩
    have hpm : τ.glob.pmparams = buf + 4096 := by
      rw [hf.glob]
      rfl
    apply hQ ms _ _ _ hms
    · have haim : Frame (Within buf (buf + memsize)) (aimed σ (buf + 4096))
          (aimed σ₁ (buf + 4096)) :=
        ⟨hf₁.maps, by simp only [aimed, hf₁.glob], fun a ha => hf₁.byte a fun hb =>
          ha ⟨hb.1, by have h2 := hb.2; omega⟩⟩
      apply haim.trans
      apply Frame.trans (hf.mono _) (hfs.mono _)
      · intro a ha
        have h1 := ha.1
        have h2 := ha.2
        exact ⟨by omega, by omega⟩
      · intro a ha
        have h1 := ha.1
        have h2 := ha.2
        exact ⟨by omega, by omega⟩
    · refine ⟨?_, hpm, fun h0 => ?_⟩
      · have hlt : subSize ms buf < 256 ^ 8 := by
          unfold subSize
          omega
        exact Machine.get_put_same (hmap hmaps (by omega) (by omega)) hlt
      · obtain ⟨hat, T, h, H⟩ := hheap h0
        refine ⟨hat, T.outside_frame hfs ?_, h, H.outside hfs ?_⟩
        · rw [hpm]
          intro b h1 h2 hb
          have h3 := hb.2
          omega
        · intro b h1 h2 hb
          have h3 := hb.2
          omega
  unfold createRest
  simp only [wp_bind, wp_pure]
  apply (image_buffer hD B₁ hl).wp_createMspaceWithBase (by decide)
  · intro τ _ hf
    exact hrest 0 τ (by decide) hf fun h0 => absurd rfl h0
  · intro τ O hown _ T hf
    have hword := O.core.arena.word
    have hhigh := O.core.arena.high
    apply hrest _ τ (by omega) hf
    intro _
    exact ⟨rfl, T, _, O, List.Perm.refl _, hown⟩

theorem table_within (hl : 8192 ≤ size) {a : Nat}
    (ha : Within (namingTable buf) (namingTable buf + maxNamingTableSize) a) :
    (buf + 16 ≤ a ∧ a < buf + 4096) ∧ Within buf (buf + size) a := by
  have h1 := ha.1
  have h2 := ha.2
  simp only [namingTable, maxRootStructSize, maxNamingTableSize] at h1 h2
  exact ⟨⟨by omega, by omega⟩, by omega, by omega⟩

/-- `CreateAllocator` writes to the buffer only, and leaves an mspace, or null. -/
theorem createAllocator_inside {i : Int} (hi : i = size) (hK : TableOk K buf)
    (B : Buf σ buf size) (hl : 8192 ≤ size) (h63 : size < 2 ^ 63) :
    wp Leftover (createAllocator K d buf i) (fun _ τ =>
      Frame (Within buf (buf + size)) (aimed σ (buf + 4096)) τ ∧
      ∃ ms, ms < 2 ^ 64 ∧ Founded Leftover buf size ms τ) σ := by
  have htable : ∀ ms τ, Frame (Within buf (buf + size)) (aimed σ (buf + 4096)) τ →
      Founded Leftover buf size ms τ → ms < 2 ^ 64 →
      wp Leftover (K.table (namingTable buf) (attach d buf).allocator_) (fun _ τ =>
        Frame (Within buf (buf + size)) (aimed σ (buf + 4096)) τ ∧
        ∃ ms, ms < 2 ^ 64 ∧ Founded Leftover buf size ms τ) τ := by
    intro ms τ hf F hms
    have hmapped : τ.mapped (namingTable buf) maxNamingTableSize = true := by
      obtain ⟨r, hr, hlo, hhi⟩ := B.mapped
      have hr' : r ∈ τ.maps := by
        rw [hf.maps]
        exact hr
      simp only [namingTable, maxRootStructSize, maxNamingTableSize]
      exact Machine.mapped_of_mem hr' (by omega) (by omega)
    apply wp_mono (hK _ τ hmapped)
    intro _ υ hfυ
    refine ⟨hf.trans (hfυ.mono fun a ha => (table_within hl ha).2), ms, hms, F.outside hfυ ?_ hl⟩
    intro a ha
    have hin := (table_within hl ha).1
    exact ⟨Or.inr hin.1, Or.inl hin.2⟩
  exact wp_createAllocator (fun _ he => he) hi B hl h63 htable

/-- A call writes to the buffer only, and so do the calls after it. -/
theorem inUse_held (hK : TableOk K buf) {memsize : Int} (U : InUse K buf memsize ms σ live) :
    ms = buf + 4096 + 64 ∧ 8192 ≤ memsize.toNat ∧
      TrimOk Leftover σ ms (buf + 4096 + capacityOf memsize.toNat) ∧
      ∃ h, Held σ (buf + 4096) (capacityOf memsize.toNat) live h := by
  induction U with
  | @created σ τ d d' ms h63 B hr hms h0 =>
    have hends : CreateEnds d buf memsize σ (0, d') τ := wp_ok any_createAllocator hr
    cases hends with
    | created hlarge =>
      have hcast : memsize = ((memsize.toNat : Nat) : Int) := by omega
      have hl : 8192 ≤ memsize.toNat := by omega
      have hinside := createAllocator_inside (d := d) hcast hK B hl (by omega)
      obtain ⟨_, ms', hms', F⟩ := wp_ok hinside hr
      have hword := B.word
      have hget : wp (fun _ => True) (getMspace buf) (fun v _ => v = ms') τ :=
        wp_getMspace F.offset hms' (by omega) rfl
      obtain ⟨υ, hυ⟩ := result_ok hms
      have he : ms = ms' := wp_ok hget hυ
      subst he
      obtain ⟨hat, T, h, H⟩ := F.heap h0
      exact ⟨hat, hl, T, h, H⟩
  | step _ hr ih =>
    obtain ⟨rfl, hl, T, h, H⟩ := ih
    obtain ⟨h', hout⟩ := wp_ok (H.ok.wp_perform H.blocks fun _ => T) hr
    exact ⟨rfl, hl, T.within (hout.frame H.ok), h', H.outcome hout⟩

/-- An image keeps to its buffer, whatever the buffer held: `CreateAllocator` and the calls
of clients write to no other byte, and the usable bytes of all blocks are in it. A run ends
in no trap but those that come of the old contents. -/
theorem image_stays_inside (hK : TableOk K buf) {memsize : Int} :
    (∀ σ d, 8192 ≤ memsize → memsize < 2 ^ 63 → Buf σ buf memsize.toNat →
      wp Leftover (createAllocator K d buf memsize)
        (fun _ τ => ∀ a, ¬ Within buf (buf + memsize.toNat) a → τ.byte a = σ.byte a) σ) ∧
    (∀ ms σ live, InUse K buf memsize ms σ live →
      (∀ p ∈ live, buf ≤ p ∧ p + usableSize σ p ≤ buf + memsize.toNat) ∧
      ∀ c, wp Leftover (perform ms live c)
        (fun _ τ => ∀ a, ¬ Within buf (buf + memsize.toNat) a → τ.byte a = σ.byte a) σ) := by
  constructor
  · intro σ d hlarge h63 B
    have hcast : memsize = ((memsize.toNat : Nat) : Int) := by omega
    apply wp_mono (createAllocator_inside hcast hK B (by omega) (by omega))
    intro _ τ hend a ha
    exact hend.1.byte a ha
  · intro ms σ live U
    obtain ⟨rfl, hl, T, h, H⟩ := inUse_held hK U
    have hcap := (capacityOf_le hl).2.1
    constructor
    · intro p hp
      obtain ⟨⟨a, s⟩, he, rfl⟩ := List.mem_map.mp (H.blocks.mem_iff.mp hp)
      have hb := H.ok.core.chunk_bounds (mem_live.mp he)
      simp only at hb
      simp only [blockOf]
      rw [H.ok.usableSize_eq he]
      omega
    · intro c
      apply wp_mono (H.ok.wp_perform H.blocks fun _ => T)
      intro r τ hout a ha
      obtain ⟨h', hR⟩ := hout
      apply (hR.frame H.ok).byte
      intro hb
      exact ha ⟨by have h1 := hb.1; omega, by have h2 := hb.2; omega⟩

theorem getMspace_same (hr : getMspace buf σ = .ok (ms, τ)) : τ = σ := by
  obtain ⟨v, υ, hload, hpure⟩ := bind_ok hr
  cases hpure
  exact (load_ok hload).2

theorem zeros_table : TableOk zeros buf := by
  intro space σ hm
  simp only [zeros]
  rw [wp_memset hm]
  exact (Frame.refl _ σ).fill fun b h1 h2 => ⟨h1, h2⟩

set_option maxRecDepth 100000 in
/-- An image of 16 pages, in which one block is given. -/
theorem image_stays_inside_zeros : ∃ σ p, InUse zeros 4096 65536 8256 σ [p] ∧ 4096 ≤ p ∧
    p + usableSize σ p ≤ 4096 + 65536 := by
  have hrun : result (do
      let made ← createAllocator zeros MMData.new 4096 65536
      let ms ← getMspace 4096
      let r ← perform ms [] (.malloc 100)
      return (made.1, ms, r.1, r.2)) zeroed = some (0, 8256, 9192, [9192]) := by
    decide +kernel
  obtain ⟨τ, hτ⟩ := result_ok hrun
  obtain ⟨⟨rc, d⟩, σ, hσ, hrest⟩ := bind_ok hτ
  obtain ⟨ms, υ, hυ, hrest⟩ := bind_ok hrest
  obtain ⟨⟨v, live⟩, ω, hω, hpure⟩ := bind_ok hrest
  obtain ⟨hvals, _⟩ := Prod.mk.inj (Except.ok.inj hpure)
  cases hvals
  have hsame := getMspace_same hυ
  subst hsame
  have B : Buf zeroed 4096 65536 := by
    refine ⟨by decide, rfl, by decide, (4096, 69632), List.mem_cons_self, by decide, by decide⟩
  have U : InUse zeros 4096 65536 8256 ω [9192] := by
    apply InUse.step _ hω
    exact .created (by decide) B hσ (by rw [result, hυ]) (by decide)
  have hin := ((image_stays_inside zeros_table).2 8256 ω [9192] U).1 9192 List.mem_cons_self
  exact ⟨ω, 9192, U, hin.1, hin.2⟩

end

end Mmdata.Proofs
