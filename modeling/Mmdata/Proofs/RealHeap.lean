import Mmdata.Proofs.ImageBounds

namespace Mmdata.Proofs
open Lib Malloc Image

/-- There is an mspace in the buffer, `mspace_offset` is where, and the segment that its
malloc_state records lies in the buffer. -/
def RealHeap (buf : Nat) (memsize : Int) (τ : State) : Prop :=
  ∃ ms, ms ≠ 0 ∧ buf ≤ ms ∧ (ms : Int) < buf + memsize ∧
    τ.get 8 (mspaceOffset buf) = some (ms - buf) ∧
    ∃ base size total, τ.getPtr (segBase (seg ms)) = some base ∧
      τ.get 8 (segSize (seg ms)) = some size ∧ τ.get 8 (footprint ms) = some total ∧
      buf ≤ base ∧ ((base + size : Nat) : Int) ≤ buf + memsize ∧
      ((base + total : Nat) : Int) ≤ buf + memsize

/-- A buffer of zeros at the start of a page, in a process with pages of `2 ^ k` bytes. -/
structure ZeroBuf (σ : State) (buf k : Nat) (memsize : Int) : Prop where
  page : σ.glob.pageSize = 2 ^ k
  align : 2 ^ k ∣ buf
  word : (buf : Int) + memsize ≤ 2 ^ 64
  mapped : ∃ r ∈ σ.maps, r.1 ≤ buf ∧ (buf : Int) + memsize ≤ r.2
  zero : ∀ a : Nat, buf ≤ a → (a : Int) < buf + memsize → σ.byte a = .known 0

/-- The constructor of the naming table returns, and writes to the table. -/
def TableDone (K : Objects) (buf : Nat) : Prop :=
  ∀ space σ, σ.mapped (namingTable buf) maxNamingTableSize = true →
    wp (fun _ => False) (K.table (namingTable buf) space)
      (fun _ τ => Frame (Within (namingTable buf) (namingTable buf + maxNamingTableSize)) σ τ) σ

section

variable {D : Trap → Prop} {σ τ : State} {buf memsize cap base k : Nat} {K : Objects} {d : MMData}

/-- With the parameters zero, a capacity that leaves no room is refused without a trap. -/
theorem wp_refused {Q : Nat → State → Prop} {locked : Nat} (hcap : cap ≤ mstateSize + topFootSize)
    (hmap : ∀ a n, base ≤ a → a + n ≤ base + 48 → σ.mapped a n = true)
    (hP : ParamsOk D σ base) (hpage : σ.glob.pageSize < 2 ^ 64)
    (hpow : σ.glob.pageSize &&& subSize σ.glob.pageSize 1 = 0)
    (hQ : ∀ τ, Frame (Within base (base + 48)) (aimed σ base) τ → Q 0 τ) :
    wp D (createMspaceWithBase base cap locked 1) Q σ := by
  have hsmall : ¬ cap > mstateSize + topFootSize := by omega
  unfold createMspaceWithBase
  rw [wp_bind, wp_globals, wp_bind, wp_setGlobals]
  simp only [wp_bind, paramMagic]
  change wp D _ _ (aimed σ base)
  obtain ⟨hm0, hk0⟩ := hP (0, 8) (by simp [paramWords])
  refine wp_load_any hm0 hk0 ?_
  intro magic _
  have hfirst : (if magic ≠ 0 ∧ (1 : Nat) = 0 then 0 else 1) = 1 := if_neg (fun hc => by omega)
  rw [hfirst, wp_if_pos (by decide), wp_bind]
  refine wp_initMparams rfl hP hmap hpage hpow ?_ ?_
  · intro _
    rw [wp_if_neg hsmall]
    exact hQ _ (Frame.refl _ _)
  · intro τ _ hf _ _ _
    rw [wp_if_neg hsmall]
    exact hQ τ hf

/-- Words of zero bytes. -/
theorem get_zeros {a n : Nat} (hz : ∀ b, a ≤ b → b < a + n → σ.byte b = .known 0)
    (hm : σ.mapped a n = true) : σ.get n a = some 0 := by
  have hself : σ.fill a n 0 = σ := by
    simp only [Machine.fill]
    congr 1
    funext b
    simp only [fillBytes]
    split
    · rename_i hb
      exact (hz b hb.1 hb.2).symm
    · rfl
  rw [← hself]
  exact Machine.get_fill_zero hm (Nat.le_refl a) (Nat.le_refl _)

/-- The buffer behind `Meta`, when it is zero. -/
structure ZeroRest (σ : State) (buf k size : Nat) : Prop where
  page : σ.glob.pageSize = 2 ^ k
  align : buf % 8 = 0
  word : buf + size ≤ 2 ^ 64
  mapped : ∃ r ∈ σ.maps, r.1 ≤ buf ∧ buf + size ≤ r.2
  zero : ∀ a, buf + 4096 ≤ a → a < buf + size → σ.byte a = .known 0

theorem ZeroRest.covers (Z : ZeroRest σ buf k memsize) (hm : τ.maps = σ.maps) {a n : Nat}
    (h1 : buf ≤ a) (h2 : a + n ≤ buf + memsize) : τ.mapped a n = true := by
  obtain ⟨r, hr, hlo, hhi⟩ := Z.mapped
  exact Machine.mapped_of_mem (hm ▸ hr) (by omega) (by omega)

theorem ZeroRest.get (Z : ZeroRest σ buf k memsize) {a n : Nat} (h1 : buf + 4096 ≤ a)
    (h2 : a + n ≤ buf + memsize) : σ.get n a = some 0 := by
  apply get_zeros _ (Z.covers rfl (by omega) h2)
  intro b hb1 hb2
  exact Z.zero b (by omega) (by omega)

theorem ZeroRest.params (Z : ZeroRest σ buf k memsize) (hl : 8192 ≤ memsize) :
    ParamsOk D σ (buf + 4096) := by
  intro e he
  have hin : e.1 + e.2 ≤ 48 := by
    simp only [paramWords, List.mem_cons, List.not_mem_nil, or_false] at he
    rcases he with rfl | rfl | rfl | rfl | rfl <;> decide
  refine ⟨Z.covers rfl (by omega) (by omega), fun hn => ?_⟩
  rw [Z.get (by omega) (by omega)] at hn
  contradiction

/-- The buffer that `create_mspace_with_base` gets, if the capacity leaves room. -/
theorem ZeroRest.buffer (Z : ZeroRest σ buf k memsize) (hl : 8192 ≤ memsize) (hk : k < 64)
    (hcap : cap % 8 = 0) (hroom : mstateSize + topFootSize < cap) (hin : 4096 + cap ≤ memsize) :
    Buffer D σ (buf + 4096) cap := by
  have hal := Z.align
  have hw := Z.word
  obtain ⟨r, hr, hlo, hhi⟩ := Z.mapped
  refine ⟨by omega, hcap, hroom, by omega, ⟨r, hr, by omega, by omega⟩, Z.params hl, ?_, ?_, ?_⟩
  · rw [Z.page]
    exact Nat.pow_lt_pow_right (by decide) hk
  · rw [Z.page]
    exact page_power hk
  · intro hne
    exact absurd (Z.get (by omega) (by omega)) hne

/-- What is recorded of an mspace: its offset and, when it is not null, its segment, which
starts behind the parameters and has the whole capacity. -/
def Recorded (buf cap : Nat) (τ : State) : Prop :=
  if cap = 0 then τ.get 8 (mspaceOffset buf) = some (subSize 0 buf)
  else τ.get 8 (mspaceOffset buf) = some 4160 ∧
    τ.getPtr (segBase (seg (buf + 4160))) = some (buf + 4144) ∧
    τ.get 8 (segSize (seg (buf + 4160))) = some cap ∧
    τ.get 8 (footprint (buf + 4160)) = some cap

theorem Recorded.frame (R : Recorded buf cap σ) {W : Nat → Prop} (hf : Frame W σ τ)
    (hW : ∀ b, W b → buf + 16 ≤ b ∧ b < buf + 4096) : Recorded buf cap τ := by
  have hoff : τ.get 8 (mspaceOffset buf) = σ.get 8 (mspaceOffset buf) := by
    apply hf.get
    intro b h1 h2 hb
    have hw := hW b hb
    simp only [mspaceOffset] at h2
    omega
  have hg : ∀ a, buf + 4096 ≤ a → τ.get 8 a = σ.get 8 a := by
    intro a ha
    apply hf.get
    intro b h1 h2 hb
    have hw := hW b hb
    omega
  have hp : τ.getPtr (segBase (seg (buf + 4160))) = σ.getPtr (segBase (seg (buf + 4160))) := by
    apply hf.getPtr
    intro b h1 h2 hb
    have hw := hW b hb
    simp only [segBase, seg] at h1
    omega
  unfold Recorded at R ⊢
  split at R
  · rename_i h0
    rw [if_pos h0, hoff]
    exact R
  · rename_i h0
    rw [if_neg h0, hoff, hp, hg _ (by simp only [segSize, seg]; omega),
      hg _ (by simp only [footprint]; omega)]
    exact R

/-- `CreateAllocator` with a zero buffer returns 0, whatever it has created. -/
theorem ZeroRest.wp_createRest (Z : ZeroRest σ buf k memsize) (hK : TableDone K buf)
    (hl : 8192 ≤ memsize) (h63 : memsize < 2 ^ 63) (hk : k < 32) (hcap : cap % 8 = 0)
    (hroom : cap = 0 ∨ 4096 ≤ cap) (hin : 4096 + cap ≤ memsize) :
    wp (fun _ => False) (createRest K d buf cap) (fun r τ => r.1 = 0 ∧ Recorded buf cap τ) σ := by
  have hw := Z.word
  have hpage : 2 ^ k < 2 ^ 32 := Nat.pow_lt_pow_right (by decide) hk
  -- the table does not reach what is recorded
  have htable : ∀ υ ms, υ.maps = σ.maps → Recorded buf cap (υ.put 8 (mspaceOffset buf) (subSize ms buf)) →
      wp (fun _ => False) (store 8 (mspaceOffset buf) (subSize ms buf)) (fun _ υ =>
        wp (fun _ => False) (K.table (namingTable buf) (attach d buf).allocator_)
          (fun _ υ => True ∧ Recorded buf cap υ) υ) υ := by
    intro υ ms hm R
    rw [wp_store (Z.covers hm (by simp only [mspaceOffset]; omega)
      (by simp only [mspaceOffset]; omega))]
    apply wp_mono (hK _ _ _)
    · intro _ ω hf
      refine ⟨trivial, R.frame hf ?_⟩
      intro b hb
      exact (table_within hl hb).1
    · apply Z.covers hm
      all_goals
        simp only [namingTable, maxRootStructSize, maxNamingTableSize]
        omega
  have hself : ∀ (υ : State) v, υ.maps = σ.maps → v < 2 ^ 64 →
      (υ.put 8 (mspaceOffset buf) v).get 8 (mspaceOffset buf) = some v := by
    intro υ v hm hv
    exact Machine.get_put_same (Z.covers hm (by simp only [mspaceOffset]; omega)
      (by simp only [mspaceOffset]; omega)) hv
  unfold createRest
  simp only [wp_bind, wp_pure]
  cases hroom with
  | inl h0 =>
    apply wp_refused
    · rw [h0]
      exact Nat.zero_le _
    · intro a n h1 h2
      simp only [allocatorMetaSize] at h1 h2
      exact Z.covers rfl (by omega) (by omega)
    · exact Z.params hl
    · rw [Z.page]
      omega
    · rw [Z.page]
      exact page_power (by omega)
    · intro υ hf
      apply htable υ 0 hf.maps
      unfold Recorded
      rw [if_pos h0]
      exact hself υ _ hf.maps (subSize_lt _ _)
  | inr hbig =>
    have B : Buffer (fun _ => False) σ (buf + 4096) cap := by
      apply Z.buffer hl (by omega) hcap _ hin
      simp only [mstateSize, topFootSize]
      omega
    apply B.wp_createMspaceWithBase (by decide)
    · intro υ hno _
      refine absurd ?_ (hno (Z.get (by omega) (by omega)))
      rw [Z.page]
      generalize 2 ^ k = page at hpage
      simp only [subSize, addSize, mstateSize, topFootSize]
      omega
    · intro υ O _ hfoot _ hf
      have S := O.core.scalars
      apply htable υ _ hf.maps
      have hsub : subSize (buf + 4096 + 64) buf = 4160 := by
        simp only [subSize]
        omega
      have hne : cap ≠ 0 := by omega
      have hsize : buf + 4096 + cap + 48 - (buf + 4096 + 48) = cap := by omega
      unfold Recorded
      rw [if_neg hne, hsub]
      refine ⟨hself υ _ hf.maps (by decide), ?_, ?_, ?_⟩
      · rw [Machine.getPtr_put_ne (by simp only [mspaceOffset, segBase, seg]; omega)]
        exact S.segBase
      · rw [Machine.get_put_ne (by simp only [mspaceOffset, segSize, seg]; omega)]
        exact hsize ▸ S.segSize
      · rw [Machine.get_put_ne (by simp only [mspaceOffset, footprint]; omega)]
        exact hfoot

/-- The recorded offset is that of one address only. -/
theorem Recorded.real_iff (R : Recorded buf cap τ) (hw : buf + memsize ≤ 2 ^ 64)
    (hin : 4096 + cap ≤ memsize) (hl : 8192 ≤ memsize) :
    RealHeap buf (memsize : Int) τ ↔ cap ≠ 0 ∧ 4144 + cap ≤ memsize := by
  unfold Recorded at R
  by_cases h0 : cap = 0
  · rw [if_pos h0] at R
    constructor
    · rintro ⟨ms, hne, hle, hlt, hoff, _⟩
      rw [R] at hoff
      have he := Option.some.inj hoff
      unfold subSize at he
      omega
    · exact fun h => absurd h0 h.1
  · rw [if_neg h0] at R
    obtain ⟨hoff, hbase, hsize, hfoot⟩ := R
    constructor
    · rintro ⟨ms, _, hle, _, hoff', b, size, _, hbase', hsize', _, _, hend, _⟩
      rw [hoff] at hoff'
      have hms : ms = buf + 4160 := by
        have he := Option.some.inj hoff'
        omega
      subst hms
      rw [hbase] at hbase'
      rw [hsize] at hsize'
      cases hbase'
      cases hsize'
      exact ⟨h0, by omega⟩
    · rintro ⟨_, hend⟩
      refine ⟨buf + 4160, by omega, by omega, by omega, ?_, _, _, _, hbase, hsize, hfoot, by omega,
        by omega, by omega⟩
      rw [hoff]
      congr 1
      omega

theorem ZeroBuf.mapped_nat {i : Int} (Z : ZeroBuf σ buf k i) (hi : i = memsize) :
    ∃ r ∈ σ.maps, r.1 ≤ buf ∧ buf + memsize ≤ r.2 := by
  obtain ⟨r, hr, hlo, hhi⟩ := Z.mapped
  exact ⟨r, hr, hlo, by omega⟩

/-- `CreateAllocator` with a zero buffer returns 0 if the size of a page is an `int`. -/
theorem ZeroBuf.wp_createAllocator {i : Int} (Z : ZeroBuf σ buf k i) (hi : i = memsize)
    (hK : TableDone K buf) (hk : 12 ≤ k) (hk32 : k < 32) (hl : 8192 ≤ memsize)
    (h63 : memsize < 2 ^ 63) :
    wp (fun _ => False) (createAllocator K d buf i)
      (fun r τ => r.1 = 0 ∧ Recorded buf ((memsize - 4096) / 2 ^ k * 2 ^ k) τ) σ := by
  have hword := Z.word
  have hpage : 2 ^ 12 ∣ 2 ^ k := Nat.pow_dvd_pow 2 hk
  have halign : 4096 ∣ buf := hpage.trans Z.align
  have hcap : 4096 ∣ (memsize - 4096) / 2 ^ k * 2 ^ k := Dvd.dvd.mul_left hpage _
  have hle := Nat.div_mul_le_self (memsize - 4096) (2 ^ k)
  apply wp_createAllocator_header hi (fun h => by omega) Z.page (Z.mapped_nat hi) hl h63
  intro τ _ hf _
  have ZR : ZeroRest τ buf k memsize := by
    refine ⟨hf.glob ▸ Z.page, by omega, by omega, hf.maps ▸ Z.mapped_nat hi, ?_⟩
    intro a h1 h2
    rw [hf.byte a (fun hb => by have h3 := hb.2; omega)]
    exact Z.zero a (by omega) (by omega)
  exact ZR.wp_createRest hK hl h63 hk32 (by omega) (by omega) (by omega)

theorem ZeroBuf.created {i : Int} (Z : ZeroBuf σ buf k i) (hi : i = memsize)
    (hK : TableDone K buf) (hk : 12 ≤ k) (hk32 : k < 32) (hl : 8192 ≤ memsize)
    (h63 : memsize < 2 ^ 63) : ∃ d' τ, createAllocator K d buf i σ = .ok ((0, d'), τ) ∧
      Recorded buf ((memsize - 4096) / 2 ^ k * 2 ^ k) τ := by
  obtain ⟨⟨rc, d'⟩, τ, hr, hrc, R⟩ := ok_of_wp (Z.wp_createAllocator hi hK hk hk32 hl h63)
  cases hrc
  exact ⟨d', τ, hr, R⟩

/-- `CreateAllocator` with a zero buffer returns 0 only with a real heap, exactly when it
returns 0 for no buffer of the size, or the buffer has a whole page behind `Meta`, and the
parameters fit into what the rounding leaves. -/
theorem real_heap_iff {i : Int} (hk : 12 ≤ k) (hK : TableDone K buf) (h63 : i < 2 ^ 63)
    (Z : ZeroBuf σ buf k i) :
    (∀ d d' τ, createAllocator K d buf i σ = .ok ((0, d'), τ) → RealHeap buf i τ) ↔
      i < 8192 ∨ 32 ≤ k ∨
        ((2 ^ k : Nat) : Int) ≤ i - 4096 ∧ 48 ≤ (i - 4096) % ((2 ^ k : Nat) : Int) := by
  by_cases hsmall : i < 8192
  · apply iff_of_true _ (Or.inl hsmall)
    intro d d' τ hr
    have hends : CreateEnds d buf i σ (0, d') τ := wp_ok any_createAllocator hr
    cases hends with
    | created hlarge => omega
  obtain ⟨n, hn⟩ := Int.eq_ofNat_of_zero_le (show 0 ≤ i by omega)
  have hword := Z.word
  have hl : 8192 ≤ n := by omega
  by_cases hk32 : 32 ≤ k
  · apply iff_of_true _ (Or.inr (Or.inl hk32))
    intro d d' τ hr
    have hnever : wp Any (createAllocator K d buf i) (fun _ _ => False) σ := by
      apply wp_createAllocator_header hn (fun _ => trivial) Z.page (Z.mapped_nat hn) hl (by omega)
      intro _ hlt
      omega
    exact (wp_ok hnever hr).elim
  have hle := Nat.div_mul_le_self (n - 4096) (2 ^ k)
  have hdiv := Nat.div_add_mod' (n - 4096) (2 ^ k)
  have hrest := fun d => Z.wp_createAllocator (d := d) hn hK hk (by omega) hl (by omega)
  have hreal : ∀ τ, Recorded buf ((n - 4096) / 2 ^ k * 2 ^ k) τ → (RealHeap buf i τ ↔
      (n - 4096) / 2 ^ k * 2 ^ k ≠ 0 ∧ 4144 + (n - 4096) / 2 ^ k * 2 ^ k ≤ n) := by
    intro τ R
    rw [hn]
    exact R.real_iff (by omega) (by omega) hl
  have hruns : (∀ d d' τ, createAllocator K d buf i σ = .ok ((0, d'), τ) → RealHeap buf i τ) ↔
      (n - 4096) / 2 ^ k * 2 ^ k ≠ 0 ∧ 4144 + (n - 4096) / 2 ^ k * 2 ^ k ≤ n := by
    constructor
    · intro h
      obtain ⟨d', τ, hr, R⟩ :=
        Z.created (d := MMData.new) hn hK hk (by omega) hl (by omega)
      exact (hreal τ R).mp (h _ _ _ hr)
    · intro hc d d' τ hr
      exact (hreal τ (wp_ok (hrest d) hr).2).mpr hc
  rw [hruns, hn, show ((n : Int) - 4096) = ((n - 4096 : Nat) : Int) by omega, ← Int.natCast_emod]
  have hfits : (n - 4096) / 2 ^ k * 2 ^ k ≠ 0 ↔ 2 ^ k ≤ n - 4096 := by
    rw [Nat.mul_ne_zero_iff, Nat.div_ne_zero_iff]
    exact ⟨fun h => h.1.2, fun h => ⟨⟨by omega, h⟩, by omega⟩⟩
  rw [hfits]
  generalize (n - 4096) / 2 ^ k * 2 ^ k = cap at hdiv
  generalize (n - 4096) % 2 ^ k = left at hdiv
  omega

theorem zeros_done : TableDone zeros buf := by
  intro space σ hm
  simp only [zeros]
  rw [wp_memset hm]
  exact (Frame.refl _ σ).fill fun b h1 h2 => ⟨h1, h2⟩

theorem zeroed_zero {i : Int} (hi : i ≤ 65536) : ZeroBuf zeroed 4096 12 i :=
  ⟨rfl, by decide, by omega, ⟨_, List.mem_cons_self, by decide, by simp only [Nat.cast_ofNat]; omega⟩,
    fun _ _ _ => rfl⟩

/-- A buffer whose rounding leaves 48 bytes. -/
theorem real_heap_zeroed : ∃ d' τ,
    createAllocator zeros MMData.new 4096 61488 zeroed = .ok ((0, d'), τ) ∧
      RealHeap 4096 61488 τ := by
  obtain ⟨d', τ, hr, _⟩ := (zeroed_zero (i := 61488) (by decide)).created (d := MMData.new)
    (show (61488 : Int) = (61488 : Nat) from rfl) zeros_done (by decide) (by decide) (by decide) (by decide)
  exact ⟨d', τ, hr, (real_heap_iff (by decide) zeros_done (by decide)
    (zeroed_zero (i := 61488) (by decide))).mpr (Or.inr (Or.inr (by decide))) _ _ _ hr⟩

/-- A buffer of 16 whole pages of 4096 bytes: its segment ends 48 bytes behind it. -/
theorem segment_leaves_buffer : ∃ d' τ,
    createAllocator zeros MMData.new 4096 65536 zeroed = .ok ((0, d'), τ) ∧
      ¬ RealHeap 4096 65536 τ := by
  obtain ⟨d', τ, hr, R⟩ := (zeroed_zero (i := 65536) (by decide)).created (d := MMData.new)
    (show (65536 : Int) = (65536 : Nat) from rfl) zeros_done (by decide) (by decide) (by decide) (by decide)
  refine ⟨d', τ, hr, fun h => ?_⟩
  have hc := (R.real_iff (by decide) (by decide) (by decide)).mp h
  exact absurd hc.2 (by decide)

end

end Mmdata.Proofs
