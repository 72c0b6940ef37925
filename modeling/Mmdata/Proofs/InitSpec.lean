import Mmdata.Proofs.ReallocSpec

namespace Mmdata.Proofs
open Lib Malloc

/-- The words of a malloc_state that creation writes before it sets up top. -/
structure Blank (σ : State) (m lo hi : Nat) : Prop where
  least : σ.getPtr (m + 24) = some lo
  maps : σ.get 4 m = some 0 ∧ σ.get 4 (m + 4) = some 0
  dvPtr : σ.getPtr (m + 32) = some 0
  dvWord : σ.get 8 (m + 8) = some 0
  extsWord : σ.get 8 (m + 920) = some 0
  checkWord : ∃ v, σ.get 8 (m + 56) = some v
  segBase : σ.getPtr (m + 880) = some lo
  segSize : σ.get 8 (m + 888) = some (hi + 48 - lo)
  segNext : σ.getPtr (m + 896) = some 0
  flags : ∃ v, σ.get 4 (m + 872) = some v
  ownHead : σ.get 8 (m - 8) = some (headWord 936 true true)
  footprintWord : σ.get 8 (m + 856) = some (hi + 48 - lo)
  maxFootprintWord : σ.get 8 (m + 864) = some (hi + 48 - lo)

/-- The bytes `Blank` does not read. -/
def Unread (m hi b : Nat) : Prop :=
  m + 16 ≤ b ∧ b < m + 24 ∨ m + 40 ≤ b ∧ b < m + 56 ∨ m + 72 ≤ b ∧ b < m + 856 ∨
    m + 904 ≤ b ∧ b < m + 912 ∨ m + 928 ≤ b ∧ b < hi

/-- The heap right after creation. -/
def emptyHeap (m hi : Nat) : Heap :=
  { chunks := []
    bins := ⟨fun _ => [], fun _ => .nil⟩
    dv := 0
    dvsize := 0
    top := m + 920
    topsize := hi - m - 944
    exts := 0 }

section

variable {D : Trap → Prop} {σ τ υ : State} {W : Nat → Prop} {m lo hi base cap : Nat}

theorem Blank.frame (S : Blank σ m lo hi) (hm : 8 ≤ m) (hf : Frame (Unread m hi) σ τ) :
    Blank τ m lo hi := by
  have hp : ∀ a, (∀ b, a ≤ b → b < a + 8 → ¬ Unread m hi b) → τ.getPtr a = σ.getPtr a :=
    fun a ha => hf.getPtr ha
  have hg : ∀ n a, (∀ b, a ≤ b → b < a + n → ¬ Unread m hi b) → τ.get n a = σ.get n a :=
    fun n a ha => hf.get ha
  obtain ⟨h1, h2⟩ := S.maps
  obtain ⟨v, hv⟩ := S.checkWord
  obtain ⟨w, hw⟩ := S.flags
  refine ⟨?_, ⟨?_, ?_⟩, ?_, ?_, ?_, ⟨v, ?_⟩, ?_, ?_, ?_, ⟨w, ?_⟩, ?_, ?_, ?_⟩
  · rw [hp _ (by intro b h1 h2 hb; simp only [Unread] at hb; omega)]
    exact S.least
  · rw [hg _ _ (by intro b h1 h2 hb; simp only [Unread] at hb; omega)]
    exact h1
  · rw [hg _ _ (by intro b h1 h2 hb; simp only [Unread] at hb; omega)]
    exact h2
  · rw [hp _ (by intro b h1 h2 hb; simp only [Unread] at hb; omega)]
    exact S.dvPtr
  · rw [hg _ _ (by intro b h1 h2 hb; simp only [Unread] at hb; omega)]
    exact S.dvWord
  · rw [hg _ _ (by intro b h1 h2 hb; simp only [Unread] at hb; omega)]
    exact S.extsWord
  · rw [hg _ _ (by intro b h1 h2 hb; simp only [Unread] at hb; omega)]
    exact hv
  · rw [hp _ (by intro b h1 h2 hb; simp only [Unread] at hb; omega)]
    exact S.segBase
  · rw [hg _ _ (by intro b h1 h2 hb; simp only [Unread] at hb; omega)]
    exact S.segSize
  · rw [hp _ (by intro b h1 h2 hb; simp only [Unread] at hb; omega)]
    exact S.segNext
  · rw [hg _ _ (by intro b h1 h2 hb; simp only [Unread] at hb; omega)]
    exact hw
  · rw [hg _ _ (by intro b h1 h2 hb; simp only [Unread] at hb; omega)]
    exact S.ownHead
  · rw [hg _ _ (by intro b h1 h2 hb; simp only [Unread] at hb; omega)]
    exact S.footprintWord
  · rw [hg _ _ (by intro b h1 h2 hb; simp only [Unread] at hb; omega)]
    exact S.maxFootprintWord

/-- A counted loop keeps an invariant that knows the counter. -/
theorem wp_forLoop {body : Nat → Code Unit} {I : Nat → State → Prop} {n k : Nat}
    (hstep : ∀ i τ, k ≤ i → i < k + n → I i τ → wp D (body i) (fun _ υ => I (i + 1) υ) τ)
    (h : I k σ) : wp D (forLoop body n k) (fun _ τ => I (k + n) τ) σ := by
  induction n generalizing k σ with
  | zero => exact h
  | succ n ih =>
    rw [forLoop, wp_bind]
    apply wp_mono (hstep k σ (Nat.le_refl k) (by omega) h)
    intro _ τ hI
    have hrest := ih (fun i υ h1 h2 => hstep i υ (by omega) (by omega)) hI
    rwa [show k + 1 + n = k + (n + 1) by omega] at hrest

theorem Blank.setFlags {v : Nat} (S : Blank σ m lo hi) (hm : 8 ≤ m) (hv : v < 2 ^ 32)
    (hmap : σ.mapped (m + 872) 4 = true) : Blank (σ.put 4 (m + 872) v) m lo hi := by
  obtain ⟨h1, h2⟩ := S.maps
  obtain ⟨w, hw⟩ := S.checkWord
  refine ⟨?_, ⟨?_, ?_⟩, ?_, ?_, ?_, ⟨w, ?_⟩, ?_, ?_, ?_, ⟨v, ?_⟩, ?_, ?_, ?_⟩
  all_goals try simp (disch := omega) only [Machine.get_put_ne, Machine.getPtr_put_ne]
  · exact S.least
  · exact h1
  · exact h2
  · exact S.dvPtr
  · exact S.dvWord
  · exact S.extsWord
  · exact hw
  · exact S.segBase
  · exact S.segSize
  · exact S.segNext
  · exact Machine.get_put_same hmap (by omega)
  · exact S.ownHead
  · exact S.footprintWord
  · exact S.maxFootprintWord

/-- The bytes of a new image. -/
def Within (lo hi b : Nat) : Prop := lo ≤ b ∧ b < hi

theorem alignAsChunk_self (h8 : lo % 8 = 0) : alignAsChunk lo = lo := by
  have hz : chunk2mem lo &&& chunkAlignMask = 0 := by
    simp only [chunk2mem, chunkAlignMask, and_seven]
    omega
  simp only [alignAsChunk, alignOffset, hz, if_true, Nat.add_zero]

theorem headWord_own : mstateSize ||| pinuseBit ||| cinuseBit = headWord 936 true true := by
  decide

/-- The stores of creation up to the loops over the bins, with the parameters
`v` and `w` that they copy. -/
def blankStores (σ : State) (lo cap v w : Nat) : State :=
  (((((((((((((σ.fill (lo + 16) 936 0).put 8 (lo + 8) (headWord 936 true true)).putPtr
    (lo + 16 + 24) lo).putPtr (lo + 16 + 880) lo).putPtr (lo + 16 + 880 + 16) 0).put 8
    (lo + 16 + 864) cap).put 8 (lo + 16 + 856) cap).put 8 (lo + 16 + 880 + 8) cap).put 8
    (lo + 16 + 64) v).put 8 (lo + 16 + 56) maxReleaseCheckRate).put 4 (lo + 16 + 872) w).putPtr
    (lo + 16 + 912) 0).put 8 (lo + 16 + 920) 0).putPtr (lo + 16 + 32) 0

theorem blankStores_frame {v w : Nat} (hlo : lo + 960 < hi) :
    Frame (Within lo hi) σ (blankStores σ lo cap v w) := by
  have hin : ∀ {τ : State} {n a v : Nat}, Frame (Within lo hi) σ τ → lo ≤ a → a + n ≤ hi →
      Frame (Within lo hi) σ (τ.put n a v) :=
    fun hf h1 h2 => hf.put (fun b h3 h4 => ⟨by omega, by omega⟩)
  have hinp : ∀ {τ : State} {a t : Nat}, Frame (Within lo hi) σ τ → lo ≤ a → a + 8 ≤ hi →
      Frame (Within lo hi) σ (τ.putPtr a t) :=
    fun hf h1 h2 => hf.putPtr (fun b h3 h4 => ⟨by omega, by omega⟩)
  have hf₀ : Frame (Within lo hi) σ (σ.fill (lo + 16) 936 0) :=
    (Frame.refl _ σ).fill (fun b h1 h2 => ⟨by omega, by omega⟩)
  unfold blankStores
  refine hinp (hin (hinp (hin (hin (hin (hin (hin (hin (hinp (hinp (hinp (hin hf₀ ?_ ?_) ?_ ?_)
    ?_ ?_) ?_ ?_) ?_ ?_) ?_ ?_) ?_ ?_) ?_ ?_) ?_ ?_) ?_ ?_) ?_ ?_) ?_ ?_) ?_ ?_
  all_goals omega

theorem blankStores_blank {v w : Nat} (h8 : lo % 8 = 0) (hlo : lo + 960 < hi) (hhi : hi ≤ 2 ^ 64)
    (hmap : ∀ a n, lo ≤ a → a + n ≤ hi → σ.mapped a n = true) (hw : w < 2 ^ 32)
    (hcap : cap = hi + 48 - lo) (hcap' : cap < 2 ^ 64) :
    Blank (blankStores σ lo cap v w) (lo + 16) lo hi := by
  unfold blankStores
  have hself : ∀ (τ : State) n a v, τ.maps = σ.maps → lo ≤ a → a + n ≤ hi → v < 256 ^ n →
      (τ.put n a v).get n a = some v := by
    intro τ n a v hτ h1 h2 h3
    apply Machine.get_put_same _ h3
    rw [Machine.mapped_congr hτ]
    exact hmap a n h1 h2
  have hptr : ∀ (τ : State) a t, τ.maps = σ.maps → lo ≤ a → a + 8 ≤ hi → a % 8 = 0 →
      t = 0 ∨ t = lo → (τ.putPtr a t).getPtr a = some t := by
    intro τ a t hτ h1 h2 h3 h4
    apply Machine.getPtr_putPtr_same _ _ (by omega) (by omega) h3 (by omega)
    · rw [Machine.mapped_congr hτ]
      exact hmap a 8 h1 h2
    · cases h4 with
      | inl h4 => exact Or.inl h4
      | inr h4 =>
        apply Or.inr
        rw [Machine.mapped_congr hτ, h4]
        exact hmap lo 1 (Nat.le_refl lo) (by omega)
  have hzero : ∀ k b, lo + 16 ≤ b → b + k ≤ lo + 16 + 936 →
      (σ.fill (lo + 16) 936 0).get k b = some 0 :=
    fun k b h1 h2 => Machine.get_fill_zero (hmap b k (by omega) (by omega)) h1 h2
  refine ⟨?_, ⟨?_, ?_⟩, ?_, ?_, ?_, ⟨maxReleaseCheckRate, ?_⟩, ?_, ?_, ?_, ⟨w, ?_⟩, ?_, ?_, ?_⟩
  all_goals try simp (disch := omega) only [Machine.get_put_ne, Machine.getPtr_put_ne,
    Machine.get_putPtr_ne, Machine.getPtr_putPtr_ne]
  · exact hptr _ _ _ rfl (by omega) (by omega) (by omega) (Or.inr rfl)
  · exact hzero 4 _ (by omega) (by omega)
  · exact hzero 4 _ (by omega) (by omega)
  · exact hptr _ _ _ rfl (by omega) (by omega) (by omega) (Or.inl rfl)
  · exact hzero 8 _ (by omega) (by omega)
  · exact hself _ 8 _ _ rfl (by omega) (by omega) (by omega)
  · exact hself _ 8 _ _ rfl (by omega) (by omega) (by decide)
  · exact hptr _ _ _ rfl (by omega) (by omega) (by omega) (Or.inr rfl)
  · rw [← hcap]
    exact hself _ 8 _ _ rfl (by omega) (by omega) (by omega)
  · exact hptr _ _ _ rfl (by omega) (by omega) (by omega) (Or.inl rfl)
  · exact hself _ 4 _ _ rfl (by omega) (by omega) (by omega)
  · rw [show lo + 16 - 8 = lo + 8 by omega]
    exact hself _ 8 _ _ rfl (by omega) (by omega) (headWord_lt (by omega))
  · rw [← hcap]
    exact hself _ 8 _ _ rfl (by omega) (by omega) (by omega)
  · rw [← hcap]
    exact hself _ 8 _ _ rfl (by omega) (by omega) (by omega)

/-- A malloc_state with empty bins and all memory in top, but for its segment flags. -/
structure Fresh (σ : State) (m lo hi : Nat) : Prop where
  blank : Blank σ m lo hi
  trees : ∀ i < 32, σ.getPtr (treebinAt m i) = some 0
  topPtr : σ.getPtr (m + 40) = some (m + 920)
  topWord : σ.get 8 (m + 16) = some (hi - m - 944)
  topHead : σ.get 8 (m + 928) = some (headWord (hi - m - 944) true false)
  topFoot : σ.get 8 (hi - 16) = some topFootSize
  trimWord : ∃ v, σ.get 8 (m + 48) = some v

/-- The parameters that creation reads, as offsets and sizes. -/
def paramWords : List (Nat × Nat) := [(0, 8), (8, 8), (16, 8), (32, 8), (40, 4)]

/-- The parameters at `pm` can be read. Where one is indeterminate, that counts
as tolerated. -/
def ParamsOk (D : Trap → Prop) (σ : State) (pm : Nat) : Prop :=
  ∀ e ∈ paramWords, σ.mapped (pm + e.1) e.2 = true ∧
    (σ.get e.2 (pm + e.1) = none → D .indeterminate)

/-- The memory and the parameters that creation works with. -/
structure Room (D : Trap → Prop) (σ : State) (lo hi : Nat) : Prop where
  align : lo % 8 = 0
  alignEnd : hi % 8 = 0
  large : lo + 960 < hi
  word : hi ≤ 2 ^ 64
  mapped : ∃ r ∈ σ.maps, r.1 ≤ lo ∧ hi ≤ r.2
  params : ParamsOk D σ σ.glob.pmparams
  outside : σ.glob.pmparams + 48 ≤ lo ∨ hi ≤ σ.glob.pmparams

theorem Room.covers (R : Room D σ lo hi) (hτ : τ.maps = σ.maps) {a n : Nat} (h1 : lo ≤ a)
    (h2 : a + n ≤ hi) : τ.mapped a n = true := by
  obtain ⟨r, hr, hl, hh⟩ := R.mapped
  rw [Machine.mapped_congr hτ]
  exact Machine.mapped_of_mem hr (Nat.le_trans hl h1) (Nat.le_trans h2 hh)

/-- A load of a parameter, also later on. -/
theorem Room.wp_param {Q : Nat → State → Prop} {a n : Nat} (R : Room D σ lo hi)
    (hf : Frame (Within lo hi) σ τ) (hp : (a, n) ∈ paramWords) (hn : a + n ≤ 48)
    (hQ : ∀ v, v < 256 ^ n → Q v τ) : wp D (load n (σ.glob.pmparams + a)) Q τ := by
  obtain ⟨hm, hk⟩ := R.params (a, n) hp
  have hout := R.outside
  apply wp_load_any
  · rw [Machine.mapped_congr hf.maps]
    exact hm
  · rw [hf.get (by intro b h3 h4 hb; simp only [Within] at hb; omega)]
    exact hk
  · intro v hv
    exact hQ v (Machine.get_lt hv)

theorem Room.wp_store {Q : Unit → State → Prop} {a n v : Nat} (R : Room D σ lo hi)
    (hτ : τ.maps = σ.maps) (h1 : lo ≤ a) (h2 : a + n ≤ hi) (hQ : Q () (τ.put n a v)) :
    wp D (store n a v) Q τ := by
  rw [Lib.wp_store (R.covers hτ h1 h2)]
  exact hQ

theorem Room.wp_storePtr {Q : Unit → State → Prop} {a t : Nat} (R : Room D σ lo hi)
    (hτ : τ.maps = σ.maps) (h1 : lo ≤ a) (h2 : a + 8 ≤ hi) (hQ : Q () (τ.putPtr a t)) :
    wp D (storePtr a t) Q τ := by
  rw [Lib.wp_storePtr (R.covers hτ h1 h2)]
  exact hQ

/-- The loop that empties the tree bins. -/
theorem Room.wp_clearTrees {Q : Unit → State → Prop} (R : Room D σ lo hi)
    (hτ : τ.maps = σ.maps) (hQ : ∀ υ, (∀ i < 32, υ.getPtr (treebinAt (lo + 16) i) = some 0) →
      Frame (fun b => lo + 616 ≤ b ∧ b < lo + 872) τ υ → Q () υ) :
    wp D (forLoop (fun i => storePtr (treebinAt (lo + 16) i) 0) 32 0) Q τ := by
  have h8 := R.align
  have hlarge := R.large
  have hword := R.word
  have hloop : wp D (forLoop (fun i => storePtr (treebinAt (lo + 16) i) 0) 32 0) (fun _ υ =>
      (∀ i < 0 + 32, υ.getPtr (treebinAt (lo + 16) i) = some 0) ∧
        Frame (fun b => lo + 616 ≤ b ∧ b < lo + 872) τ υ) τ := by
    apply wp_forLoop (I := fun k υ => (∀ i < k, υ.getPtr (treebinAt (lo + 16) i) = some 0) ∧
      Frame (fun b => lo + 616 ≤ b ∧ b < lo + 872) τ υ)
    · intro k υ _ hk hI
      obtain ⟨hp, hf⟩ := hI
      simp only [treebinAt] at hp ⊢
      refine R.wp_storePtr (hf.maps.trans hτ) (by omega) (by omega) ?_
      constructor
      · intro i hi
        by_cases he : i = k
        · rw [he]
          apply Machine.getPtr_putPtr_same _ (Or.inl rfl) (by omega) (by omega) (by omega) (by omega)
          exact R.covers (hf.maps.trans hτ) (by omega) (by omega)
        · rw [Machine.getPtr_putPtr_ne (by omega)]
          exact hp i (by omega)
      · exact hf.putPtr (fun b h1 h2 => by omega)
    · exact ⟨fun i hi => by omega, Frame.refl _ τ⟩
  exact wp_mono hloop (fun _ υ h => hQ υ h.1 h.2)

theorem Room.wp_initBins {Q : Unit → State → Prop} (R : Room D σ lo hi) (hτ : τ.maps = σ.maps)
    (hQ : ∀ υ, Frame (fun b => lo + 88 ≤ b ∧ b < lo + 616) τ υ → Q () υ) :
    wp D (initBins (lo + 16)) Q τ := by
  have hlarge := R.large
  have hloop : wp D (initBins (lo + 16)) (fun _ υ =>
      Frame (fun b => lo + 88 ≤ b ∧ b < lo + 616) τ υ) τ := by
    apply wp_forLoop (I := fun _ υ => Frame (fun b => lo + 88 ≤ b ∧ b < lo + 616) τ υ)
    · intro k υ _ hk hf
      simp only [wp_bind, smallbinAt, bk, fd]
      refine R.wp_storePtr (hf.maps.trans hτ) (by omega) (by omega) ?_
      refine R.wp_storePtr (hf.maps.trans hτ) (by omega) (by omega) ?_
      exact (hf.putPtr (fun b h1 h2 => by omega)).putPtr (fun b h1 h2 => by omega)
    · exact Frame.refl _ τ
  exact wp_mono hloop (fun _ υ h => hQ υ h)

/-- `init_user_mstate` makes an empty heap. -/
theorem Room.wp_initUserMstate {Q : Nat → State → Prop} (R : Room D σ lo hi)
    (hcap : cap = hi + 48 - lo) (hcap' : cap < 2 ^ 64)
    (hQ : ∀ τ, Fresh τ (lo + 16) lo hi → Frame (Within lo hi) σ τ → Q (lo + 16) τ) :
    wp D (initUserMstate lo cap 1) Q σ := by
  have h8 := R.align
  have h8' := R.alignEnd
  have hlarge := R.large
  have hword := R.word
  unfold initUserMstate
  simp only [alignAsChunk_self h8, chunk2mem, headWord_own, head, leastAddr, seg, segBase, segNext,
    segSize, maxFootprint, footprint, magic, releaseChecks, mflags, extp, exts, dv]
  have hms : σ.mapped (lo + 16) 936 = true := R.covers rfl (by omega) (by omega)
  rw [wp_if_neg (by omega), wp_bind, mstateSize, wp_memset hms]
  simp only [wp_bind]
  refine R.wp_store rfl (by omega) (by omega) ?_
  refine R.wp_storePtr rfl (by omega) (by omega) ?_
  refine R.wp_storePtr rfl (by omega) (by omega) ?_
  refine R.wp_storePtr rfl (by omega) (by omega) ?_
  refine R.wp_store rfl (by omega) (by omega) ?_
  refine R.wp_store rfl (by omega) (by omega) ?_
  refine R.wp_store rfl (by omega) (by omega) ?_
  have hin : ∀ {τ : State} {n a v : Nat}, Frame (Within lo hi) σ τ → lo ≤ a → a + n ≤ hi →
      Frame (Within lo hi) σ (τ.put n a v) :=
    fun hf h1 h2 => hf.put (fun b h3 h4 => ⟨by omega, by omega⟩)
  have hinp : ∀ {τ : State} {a t : Nat}, Frame (Within lo hi) σ τ → lo ≤ a → a + 8 ≤ hi →
      Frame (Within lo hi) σ (τ.putPtr a t) :=
    fun hf h1 h2 => hf.putPtr (fun b h3 h4 => ⟨by omega, by omega⟩)
  have hf₀ : Frame (Within lo hi) σ (σ.fill (lo + 16) 936 0) :=
    (Frame.refl _ σ).fill (fun b h1 h2 => ⟨by omega, by omega⟩)
  rw [wp_globals]
  simp only [Machine.glob_put, Machine.glob_putPtr, Machine.glob_fill, paramMagic]
  refine R.wp_param (a := 0) ?_ (by simp [paramWords]) (by omega) ?_
  · refine hin (hin (hin (hinp (hinp (hinp (hin hf₀ ?_ ?_) ?_ ?_) ?_ ?_) ?_ ?_) ?_ ?_) ?_ ?_) ?_ ?_
    all_goals omega
  intro v hv
  refine R.wp_store rfl (by omega) (by omega) ?_
  refine R.wp_store rfl (by omega) (by omega) ?_
  rw [wp_globals]
  simp only [Machine.glob_put, Machine.glob_putPtr, Machine.glob_fill, paramDefaultMflags]
  refine R.wp_param ?_ (by simp [paramWords]) (by omega) ?_
  · refine hin (hin (hin (hin (hin (hinp (hinp (hinp (hin hf₀ ?_ ?_) ?_ ?_) ?_ ?_) ?_ ?_) ?_ ?_)
      ?_ ?_) ?_ ?_) ?_ ?_) ?_ ?_
    all_goals omega
  intro w hw
  refine R.wp_store rfl (by omega) (by omega) ?_
  refine R.wp_storePtr rfl (by omega) (by omega) ?_
  refine R.wp_store rfl (by omega) (by omega) ?_
  refine R.wp_storePtr rfl (by omega) (by omega) ?_
  change wp D _ _ (blankStores σ lo cap v w)
  have hB : Blank (blankStores σ lo cap v w) (lo + 16) lo hi :=
    blankStores_blank h8 hlarge hword (fun a n h1 h2 => R.covers rfl h1 h2) hw hcap hcap'
  have hfB : Frame (Within lo hi) σ (blankStores σ lo cap v w) := blankStores_frame hlarge
  generalize blankStores σ lo cap v w = τ at *
  refine R.wp_clearTrees hfB.maps ?_
  intro τ₂ htrees hf₂
  have hB₂ := hB.frame (by omega) (hf₂.mono (fun b hb => by simp only [Unread]; omega))
  obtain ⟨f, hf⟩ := hB₂.flags
  have hf32 : f ||| 4 < 2 ^ 32 := Nat.or_lt_two_pow (Machine.get_lt hf) (by decide)
  rw [wp_update hf]
  have hB₃ := hB₂.setFlags (by omega) hf32 (Machine.mapped_of_get hf)
  have hf₃ : Frame (Within lo hi) σ (τ₂.put 4 (lo + 16 + 872) (f ||| 4)) :=
    hin (hfB.trans (hf₂.mono (fun b hb => ⟨by omega, by omega⟩))) (by omega) (by omega)
  have htrees₃ : ∀ i < 32, (τ₂.put 4 (lo + 16 + 872) (f ||| 4)).getPtr
      (treebinAt (lo + 16) i) = some 0 := by
    intro i hi
    simp only [treebinAt] at htrees ⊢
    rw [Machine.getPtr_put_ne (by omega)]
    exact htrees i hi
  generalize τ₂.put 4 (lo + 16 + 872) (f ||| 4) = τ₃ at *
  refine R.wp_initBins hf₃.maps ?_
  intro τ₄ hf₄
  have hB₄ := hB₃.frame (by omega) (hf₄.mono (fun b hb => by simp only [Unread]; omega))
  have hmn := hB₄.ownHead
  rw [show lo + 16 - 8 = lo + 8 by omega] at hmn
  rw [wp_chunksize hmn (by decide)]
  have hp8 : chunk2mem (lo + 936) &&& chunkAlignMask = 0 := by
    simp only [chunk2mem, chunkAlignMask, and_seven]
    omega
  have hsize : subSize (subSize (lo + cap) (lo + 936)) topFootSize = hi - (lo + 16) - 944 := by
    simp only [subSize, topFootSize]
    omega
  have hts8 : (hi - (lo + 16) - 944) % 8 = 0 := by omega
  unfold initTop
  simp only [hsize, alignOffset, hp8, if_true, Nat.add_zero, wp_bind, top, topsize, head, trimCheck]
  rw [subSize_le (by omega) (by omega), Nat.sub_zero, or_pinuse hts8]
  have hf₄' : Frame (Within lo hi) σ τ₄ := hf₃.trans (hf₄.mono (fun b hb => ⟨by omega, by omega⟩))
  refine R.wp_storePtr hf₄'.maps (by omega) (by omega) ?_
  refine R.wp_store hf₄'.maps (by omega) (by omega) ?_
  refine R.wp_store hf₄'.maps (by omega) (by omega) ?_
  refine R.wp_store hf₄'.maps (by omega) (by omega) ?_
  rw [wp_globals]
  simp only [Machine.glob_put, Machine.glob_putPtr, hf₄'.glob, paramTrimThreshold]
  have hf₅ : Frame (Within lo hi) σ ((((τ₄.putPtr (lo + 16 + 40) (lo + 936)).put 8 (lo + 16 + 16)
      (hi - (lo + 16) - 944)).put 8 (lo + 936 + 8) (headWord (hi - (lo + 16) - 944) true false)).put
        8 (lo + 936 + (hi - (lo + 16) - 944) + 8) topFootSize) := by
    refine hin (hin (hin (hinp hf₄' ?_ ?_) ?_ ?_) ?_ ?_) ?_ ?_
    all_goals omega
  refine R.wp_param hf₅ (by simp [paramWords]) (by omega) ?_
  intro u hu
  refine R.wp_store hf₅.maps (by omega) (by omega) ?_
  rw [wp_pure]
  have hself : ∀ (τ : State) a v, τ.maps = σ.maps → lo ≤ a → a + 8 ≤ hi → v < 256 ^ 8 →
      (τ.put 8 a v).get 8 a = some v :=
    fun τ a v hτ h1 h2 h3 => Machine.get_put_same (R.covers hτ h1 h2) h3
  have hmaps := hf₄'.maps
  refine hQ _ ⟨?_, ?_, ?_, ?_, ?_, ?_, u, ?_⟩ (hin hf₅ (by omega) (by omega))
  · apply hB₄.frame (by omega)
    refine (((((Frame.refl _ τ₄).putPtr ?_).put ?_).put ?_).put ?_).put ?_
    all_goals
      intro b h1 h2
      simp only [Unread]
      omega
  · intro i hi
    have ht := hf₄.getPtr (a := treebinAt (lo + 16) i) (by
      intro b h1 h2
      simp only [treebinAt] at h1
      omega)
    simp only [treebinAt] at ht htrees₃ ⊢
    simp (disch := omega) only [Machine.getPtr_put_ne, Machine.getPtr_putPtr_ne]
    rw [ht]
    exact htrees₃ i hi
  · simp (disch := omega) only [Machine.getPtr_put_ne]
    exact Machine.getPtr_putPtr_same (R.covers hmaps (by omega) (by omega))
      (Or.inr (R.covers hmaps (by omega) (by omega))) (by omega) (by omega) (by omega) (by omega)
  · simp (disch := omega) only [Machine.get_put_ne]
    exact hself _ _ _ hmaps (by omega) (by omega) (by omega)
  · simp (disch := omega) only [Machine.get_put_ne]
    exact hself _ _ _ hmaps (by omega) (by omega) (headWord_lt (by omega))
  · simp (disch := omega) only [Machine.get_put_ne]
    rw [show lo + 936 + (hi - (lo + 16) - 944) + 8 = hi - 16 by omega]
    exact hself _ _ _ hmaps (by omega) (by omega) (by decide)
  · exact hself _ _ _ hmaps (by omega) (by omega) hu

/-- With its segment marked extern, a fresh malloc_state is an empty heap. -/
theorem Fresh.ok (S : Fresh σ m lo hi) (h8 : m % 8 = 0) (h8' : hi % 8 = 0) (hpos : 0 < lo)
    (hlo : lo ≤ m)
    (hhi : m + 944 < hi) (hword : hi ≤ 2 ^ 64) (hmap : ∃ r ∈ σ.maps, r.1 ≤ m ∧ hi ≤ r.2)
    (hflags : σ.get 4 (m + 904) = some externBit) : Ok σ m lo hi (emptyHeap m hi) := by
  have B := S.blank
  obtain ⟨hsm, htm⟩ := B.maps
  have hts8 : (hi - m - 944) % 8 = 0 := by omega
  refine ⟨⟨⟨h8, hpos, hlo, by omega, hword, hmap, B.least⟩, ⟨B.dvPtr, B.dvWord, S.topPtr, S.topWord,
    B.extsWord, S.trimWord, B.checkWord, B.segBase, B.segSize, B.segNext, hflags, B.footprintWord,
    B.maxFootprintWord, B.flags⟩, ⟨rfl, rfl⟩, ?_, hts8, ⟨?_, ?_⟩, S.topFoot, ⟨⟨0, hsm, ?_⟩, ⟨0, htm, ?_⟩, ?_, ?_, ?_, ?_, ?_, ?_, ?_⟩⟩, Or.inl ⟨rfl, rfl⟩⟩
  · exact S.topHead
  · show 0 < hi - m - 944
    omega
  · show m + 920 + (hi - m - 944) + 24 = hi
    omega
  · intro i _
    simp [emptyHeap]
  · intro i _
    simp [emptyHeap]
  · intro i _ hne
    exact absurd rfl hne
  · intro i hi32
    exact ⟨S.trees i hi32, m + 920, ⟨by omega, by omega, by omega⟩, trivial⟩
  · intro i _ a
    simp [emptyHeap, Heap.inBins]
  · intro i _ a s
    simp [emptyHeap, Heap.inBins, Trie.entries]
  · intro i _
    exact List.nodup_nil
  · intro i _
    exact List.nodup_nil
  · intro i _
    exact trivial

/-- `init_mparams` leaves parameters alone that hold a page size, and else sets
all of them, but for a magic number that is not zero. -/
theorem wp_initMparamsFront {Q : Unit → State → Prop} {pm : Nat} (hpm : σ.glob.pmparams = pm)
    (hP : ParamsOk D σ pm) (hmap : ∀ a n, pm ≤ a → a + n ≤ pm + 48 → σ.mapped a n = true)
    (hpage : σ.glob.pageSize < 2 ^ 64)
    (hpow : σ.glob.pageSize &&& subSize σ.glob.pageSize 1 = 0)
    (hold : σ.get 8 (pm + 8) ≠ some 0 → Q () σ)
    (hnew : ∀ τ, σ.get 8 (pm + 8) = some 0 → Frame (Within pm (pm + 48)) σ τ → ParamsOk D τ pm →
      τ.get 8 (pm + 8) = some σ.glob.pageSize → τ.get 8 (pm + 16) = some defaultGranularity →
      (∃ v, v ≠ 0 ∧ τ.get 8 pm = some v) → Q () τ) :
    wp D initMparams Q σ := by
  unfold initMparams
  rw [wp_bind, wp_globals, hpm]
  simp only [wp_bind, paramPageSize, paramMmapThreshold, paramTrimThreshold, paramDefaultMflags,
    paramMagic, paramGranularity]
  obtain ⟨hm, hk⟩ := hP (8, 8) (by simp [paramWords])
  apply wp_load_any hm hk
  intro v hv
  by_cases hv0 : v = 0
  · rw [wp_if_pos hv0]
    subst hv0
    have hmap' : ∀ {τ : State} {a n : Nat}, τ.maps = σ.maps → pm ≤ a → a + n ≤ pm + 48 →
        τ.mapped a n = true := by
      intro τ a n hτ h1 h2
      rw [Machine.mapped_congr hτ]
      exact hmap a n h1 h2
    have hst : ∀ {R : Unit → State → Prop} {τ : State} {n a v : Nat}, τ.maps = σ.maps → pm ≤ a →
        a + n ≤ pm + 48 → R () (τ.put n a v) → wp D (store n a v) R τ := by
      intro R τ n a v hτ h1 h2 hR
      rw [wp_store (hmap' hτ h1 h2)]
      exact hR
    -- the page size and the granularity come last
    have hend : ∀ τ, Frame (Within pm (pm + 48)) σ τ → (∃ v, v ≠ 0 ∧ τ.get 8 pm = some v) →
        (∃ v, τ.get 8 (pm + 32) = some v) → (∃ v, τ.get 4 (pm + 40) = some v) →
        wp D (store 8 (pm + 8) σ.glob.pageSize) (fun _ τ =>
          wp D (store 8 (pm + 16) defaultGranularity) (fun _ τ =>
            wp D (check (decide (defaultGranularity &&& defaultGranularity - 1 = 0))) (fun _ τ =>
              wp D (check (decide (σ.glob.pageSize &&& subSize σ.glob.pageSize 1 = 0))) Q τ) τ) τ)
          τ := by
      intro τ hf hmagic htrim hflags
      obtain ⟨v₁, hne, h1⟩ := hmagic
      obtain ⟨v₂, h2⟩ := htrim
      obtain ⟨v₃, h3⟩ := hflags
      have hf' : Frame (Within pm (pm + 48)) σ ((τ.put 8 (pm + 8) σ.glob.pageSize).put 8 (pm + 16)
          defaultGranularity) :=
        (hf.put (fun b h1 h2 => ⟨by omega, by omega⟩)).put (fun b h1 h2 => ⟨by omega, by omega⟩)
      have hg : ((τ.put 8 (pm + 8) σ.glob.pageSize).put 8 (pm + 16) defaultGranularity).get 8
          (pm + 16) = some defaultGranularity :=
        Machine.get_put_same (hmap' hf.maps (by omega) (by omega)) (by decide)
      refine hst hf.maps (by omega) (by omega) ?_
      refine hst hf.maps (by omega) (by omega) ?_
      rw [wp_check (by decide), wp_check (decide_eq_true hpow)]
      have hpg : ((τ.put 8 (pm + 8) σ.glob.pageSize).put 8 (pm + 16) defaultGranularity).get 8
          (pm + 8) = some σ.glob.pageSize := by
        rw [Machine.get_put_ne (by omega)]
        exact Machine.get_put_same (hmap' hf.maps (by omega) (by omega)) (by omega)
      have hm1 : ((τ.put 8 (pm + 8) σ.glob.pageSize).put 8 (pm + 16) defaultGranularity).get 8
          pm = some v₁ := by
        rw [Machine.get_put_ne (by omega), Machine.get_put_ne (by omega)]
        exact h1
      refine hnew _ hv hf' ?_ hpg hg ⟨v₁, hne, hm1⟩
      intro e he
      simp only [paramWords, List.mem_cons, List.not_mem_nil, or_false] at he
      obtain he | he | he | he | he := he
      all_goals subst he
      · refine ⟨hmap' hf'.maps (by omega) (by omega), fun hn => ?_⟩
        simp (disch := omega) only [Machine.get_put_ne, Nat.add_zero, h1] at hn
        contradiction
      · refine ⟨hmap' hf'.maps (by omega) (by omega), fun hn => ?_⟩
        simp (disch := omega) only [Machine.get_put_ne] at hn
        rw [Machine.get_put_same (hmap' hf.maps (by omega) (by omega)) (by omega)] at hn
        contradiction
      · refine ⟨hmap' hf'.maps (by omega) (by omega), fun hn => ?_⟩
        simp only [hg] at hn
        contradiction
      · refine ⟨hmap' hf'.maps (by omega) (by omega), fun hn => ?_⟩
        simp (disch := omega) only [Machine.get_put_ne, h2] at hn
        contradiction
      · refine ⟨hmap' hf'.maps (by omega) (by omega), fun hn => ?_⟩
        simp (disch := omega) only [Machine.get_put_ne, h3] at hn
        contradiction
    have hfs : Frame (Within pm (pm + 48)) σ (((σ.put 8 (pm + 24) defaultMmapThreshold).put 8
        (pm + 32) defaultTrimThreshold).put 4 (pm + 40) defaultFlags) :=
      (((Frame.refl _ σ).put (fun b h1 h2 => ⟨by omega, by omega⟩)).put
        (fun b h1 h2 => ⟨by omega, by omega⟩)).put (fun b h1 h2 => ⟨by omega, by omega⟩)
    have hself : ∀ (τ : State) n a v, τ.maps = σ.maps → pm ≤ a → a + n ≤ pm + 48 → v < 256 ^ n →
        (τ.put n a v).get n a = some v :=
      fun τ n a v hτ h1 h2 h3 => Machine.get_put_same (hmap' hτ h1 h2) h3
    simp only [wp_bind]
    refine hst rfl (by omega) (by omega) ?_
    refine hst rfl (by omega) (by omega) ?_
    refine hst rfl (by omega) (by omega) ?_
    obtain ⟨hm0, hk0⟩ := hP (0, 8) (by simp [paramWords])
    refine wp_load_any (hmap' hfs.maps (by omega) (by omega)) ?_ ?_
    · simp (disch := omega) only [Machine.get_put_ne]
      exact hk0
    · intro magic hmagic
      have htrim : ∃ v, (((σ.put 8 (pm + 24) defaultMmapThreshold).put 8 (pm + 32)
          defaultTrimThreshold).put 4 (pm + 40) defaultFlags).get 8 (pm + 32) = some v := by
        refine ⟨defaultTrimThreshold, ?_⟩
        rw [Machine.get_put_ne (by omega)]
        exact hself _ 8 _ _ rfl (by omega) (by omega) (by decide)
      have hflags : ∃ v, (((σ.put 8 (pm + 24) defaultMmapThreshold).put 8 (pm + 32)
          defaultTrimThreshold).put 4 (pm + 40) defaultFlags).get 4 (pm + 40) = some v :=
        ⟨defaultFlags, hself _ 4 _ _ rfl (by omega) (by omega) (by decide)⟩
      generalize ((σ.put 8 (pm + 24) defaultMmapThreshold).put 8 (pm + 32)
        defaultTrimThreshold).put 4 (pm + 40) defaultFlags = τ at *
      by_cases hz : magic = 0
      · rw [wp_if_pos hz]
        simp only [wp_bind]
        refine hst hfs.maps (by omega) (by omega) ?_
        obtain ⟨v₂, h2⟩ := htrim
        obtain ⟨v₃, h3⟩ := hflags
        apply hend _ (hfs.put (fun b h1 h2 => ⟨by omega, by omega⟩))
        · exact ⟨_, by decide, hself _ 8 _ _ hfs.maps (by omega) (by omega) (by decide)⟩
        · exact ⟨v₂, by rw [Machine.get_put_ne (by omega)]; exact h2⟩
        · exact ⟨v₃, by rw [Machine.get_put_ne (by omega)]; exact h3⟩
      · rw [wp_if_neg hz]
        simp only [wp_bind]
        exact hend τ hfs ⟨magic, hz, hmagic⟩ htrim hflags
  · rw [wp_if_neg hv0, wp_pure]
    apply hold
    rw [hv]
    intro he
    exact hv0 (Option.some.inj he)

theorem wp_initMparams {Q : Unit → State → Prop} {pm : Nat} (hpm : σ.glob.pmparams = pm)
    (hP : ParamsOk D σ pm) (hmap : ∀ a n, pm ≤ a → a + n ≤ pm + 48 → σ.mapped a n = true)
    (hpage : σ.glob.pageSize < 2 ^ 64)
    (hpow : σ.glob.pageSize &&& subSize σ.glob.pageSize 1 = 0)
    (hold : σ.get 8 (pm + 8) ≠ some 0 → Q () σ)
    (hnew : ∀ τ, σ.get 8 (pm + 8) = some 0 → Frame (Within pm (pm + 48)) σ τ → ParamsOk D τ pm →
      τ.get 8 (pm + 8) = some σ.glob.pageSize → τ.get 8 (pm + 16) = some defaultGranularity →
      Q () τ) :
    wp D initMparams Q σ :=
  wp_initMparamsFront hpm hP hmap hpage hpow hold fun τ hz hf hP' hp hg _ => hnew τ hz hf hP' hp hg

/-- The parameters at `pm` after creation: those of before where they held a page size. -/
structure ParamsLeft (σ τ : State) (pm : Nat) : Prop where
  old : σ.get 8 (pm + 8) ≠ some 0 → ∀ a n, pm ≤ a → a + n ≤ pm + 48 → τ.get n a = σ.get n a
  new : σ.get 8 (pm + 8) = some 0 → τ.get 8 (pm + 8) = some σ.glob.pageSize ∧
    τ.get 8 (pm + 16) = some defaultGranularity ∧ ∃ v, v ≠ 0 ∧ τ.get 8 pm = some v

theorem ParamsLeft.frame {pm : Nat} (P : ParamsLeft σ τ pm) (hf : Frame W τ υ)
    (hW : ∀ b, W b → pm + 48 ≤ b) : ParamsLeft σ υ pm := by
  have hget : ∀ a n, a + n ≤ pm + 48 → υ.get n a = τ.get n a := by
    intro a n h
    apply hf.get
    intro b _ h2 hb
    have hw := hW b hb
    omega
  refine ⟨fun h0 a n h1 h2 => (hget a n h2).trans (P.old h0 a n h1 h2), fun h0 => ?_⟩
  obtain ⟨h1, h2, v, hv, h3⟩ := P.new h0
  exact ⟨(hget _ _ (by omega)).trans h1, (hget _ _ (by omega)).trans h2, v, hv,
    (hget _ _ (by omega)).trans h3⟩

/-- The check of a capacity, given the size of a page. -/
def Accepted (cap page : Nat) : Prop :=
  cap > mstateSize + topFootSize ∧ cap < subSize 0 (addSize (mstateSize + topFootSize) page)

instance (cap page : Nat) : Decidable (Accepted cap page) := inferInstanceAs (Decidable (_ ∧ _))

/-- The size of a page that `create_mspace_with_base` goes by at `base`: the one that it finds
there, or else that of the process. -/
def pageFound (σ : State) (base : Nat) : Option Nat :=
  (σ.get 8 (paramPageSize base)).map fun v => if v = 0 then σ.glob.pageSize else v

theorem ParamsLeft.pageFound {pm page : Nat} (P : ParamsLeft σ τ pm)
    (hp : τ.get 8 (pm + 8) = some page) : pageFound σ pm = some page := by
  unfold Proofs.pageFound
  by_cases h0 : σ.get 8 (pm + 8) = some 0
  · rw [paramPageSize, h0, Option.map_some, if_pos rfl, ← hp, (P.new h0).1]
  · have hold : τ.get 8 (pm + 8) = σ.get 8 (pm + 8) := P.old h0 _ _ (by omega) (by omega)
    rw [hp] at hold
    rw [← hold] at h0
    rw [paramPageSize, ← hold, Option.map_some, if_neg fun h => h0 (congrArg some h)]

/-- What `create_mspace_with_base` needs of its buffer when asked to recreate. -/
structure Buffer (D : Trap → Prop) (σ : State) (base cap : Nat) : Prop where
  align : base % 8 = 0
  alignSize : cap % 8 = 0
  large : mstateSize + topFootSize < cap
  word : base + cap ≤ 2 ^ 64
  mapped : ∃ r ∈ σ.maps, r.1 ≤ base ∧ base + cap ≤ r.2
  params : ParamsOk D σ base
  page : σ.glob.pageSize < 2 ^ 64
  pagePower : σ.glob.pageSize &&& subSize σ.glob.pageSize 1 = 0
  granularity : σ.get 8 (base + 8) ≠ some 0 → σ.get 8 (base + 16) = some 0 → D .divZero

theorem Buffer.covers (R : Buffer D σ base cap) (hτ : τ.maps = σ.maps) {a n : Nat}
    (h1 : base ≤ a) (h2 : a + n ≤ base + cap) : τ.mapped a n = true := by
  obtain ⟨r, hr, hl, hh⟩ := R.mapped
  rw [Machine.mapped_congr hτ]
  exact Machine.mapped_of_mem hr (Nat.le_trans hl h1) (Nat.le_trans h2 hh)

/-- The last two stores of creation. -/
theorem Fresh.finish {w : Nat} (S : Fresh σ m lo hi) (hm : 8 ≤ m) (hw : w < 2 ^ 32)
    (h1 : σ.mapped (m + 872) 4 = true) (h2 : σ.mapped (m + 904) 4 = true) (hhi : m + 944 < hi) :
    Fresh ((σ.put 4 (m + 904) externBit).put 4 (m + 872) w) m lo hi ∧
      ((σ.put 4 (m + 904) externBit).put 4 (m + 872) w).get 4 (m + 904) = some externBit := by
  obtain ⟨v, hv⟩ := S.trimWord
  refine ⟨⟨?_, ?_, ?_, ?_, ?_, ?_, v, ?_⟩, ?_⟩
  · have hf : Frame (Unread m hi) σ (σ.put 4 (m + 904) externBit) :=
      (Frame.refl _ σ).put (fun b h3 h4 => by simp only [Unread]; omega)
    exact (S.blank.frame hm hf).setFlags hm hw h1
  · intro i hi32
    have ht := S.trees i hi32
    simp only [treebinAt] at ht ⊢
    rw [Machine.getPtr_put_ne (by omega), Machine.getPtr_put_ne (by omega)]
    exact ht
  · rw [Machine.getPtr_put_ne (by omega), Machine.getPtr_put_ne (by omega)]
    exact S.topPtr
  · rw [Machine.get_put_ne (by omega), Machine.get_put_ne (by omega)]
    exact S.topWord
  · rw [Machine.get_put_ne (by omega), Machine.get_put_ne (by omega)]
    exact S.topHead
  · rw [Machine.get_put_ne (by omega), Machine.get_put_ne (by omega)]
    exact S.topFoot
  · rw [Machine.get_put_ne (by omega), Machine.get_put_ne (by omega)]
    exact hv
  · rw [Machine.get_put_ne (by omega)]
    exact Machine.get_put_same h2 (by decide)

/-- The process points `pmparams` to `pm`. -/
def aimed (σ : State) (pm : Nat) : State := { σ with glob := { σ.glob with pmparams := pm } }

/-- A buffer is recreated: the heap is empty, or the capacity is refused for the page size that
the parameters now have. Bytes outside the buffer keep their values. -/
theorem Buffer.wp_createMspaceFront {Q : Nat → State → Prop} {locked recreate : Nat}
    (R : Buffer D σ base cap) (hrec : recreate ≠ 0)
    (h0 : ∀ τ page, τ.get 8 (base + 8) = some page →
      ¬ cap < subSize 0 (addSize (mstateSize + topFootSize) page) → ParamsLeft σ τ base →
      Frame (Within base (base + cap)) (aimed σ base) τ → Q 0 τ)
    (hQ : ∀ τ, Ok τ (base + 64) (base + 48) (base + cap) (emptyHeap (base + 64) (base + cap)) →
      τ.get 8 (base + 56) = some (headWord 936 true true) →
      τ.get 8 (base + 64 + 856) = some cap → TrimOk D τ (base + 64) (base + cap) →
      Frame (Within base (base + cap)) (aimed σ base) τ → ParamsLeft σ τ base →
      (∃ page, τ.get 8 (base + 8) = some page ∧ Accepted cap page) → Q (base + 64) τ) :
    wp D (createMspaceWithBase base cap locked recreate) Q σ := by
  have h8 := R.align
  have h8' := R.alignSize
  have hlarge := R.large
  have hword := R.word
  have hmap : ∃ r ∈ σ.maps, r.1 ≤ base + 48 ∧ base + cap ≤ r.2 := by
    obtain ⟨r, hr, hl, hh⟩ := R.mapped
    exact ⟨r, hr, by omega, hh⟩
  -- the heap is set up once the parameters are
  have hmain : ∀ τ, Frame (Within base (base + 48)) (aimed σ base) τ → ParamsOk D τ base →
      ParamsLeft σ τ base →
      (τ.get 8 (base + 16) = some 0 → D .divZero) →
      wp D (if cap > mstateSize + topFootSize then do
          let pageSize ← load 8 (paramPageSize (← globals).pmparams)
          if cap < subSize 0 (addSize (mstateSize + topFootSize) pageSize) then do
            let m ← initUserMstate (base + mallocParamsSize) cap 1
            if (1 : Nat) = 0 then return m
            store 4 (segFlags (seg m)) externBit
            update 4 (mflags m) fun w => if locked ≠ 0 then w ||| 0 else clearBits w 0
            return m
          else return 0
        else return 0) Q τ := by
    intro τ hf hP hleft hgran
    have hfb : Frame (Within base (base + cap)) (aimed σ base) τ := by
      simp only [mstateSize, topFootSize] at hlarge
      exact hf.mono (fun b hb => ⟨hb.1, by have hr := hb.2; omega⟩)
    rw [wp_if_pos hlarge]
    simp only [mstateSize, topFootSize] at hlarge
    simp only [wp_bind, paramPageSize]
    have hglob : τ.glob.pmparams = base := by
      rw [hf.glob]
      rfl
    rw [wp_globals, hglob]
    obtain ⟨hm, hk⟩ := hP (8, 8) (by simp [paramWords])
    apply wp_load_any hm hk
    intro pageSize hps
    by_cases hfit : cap < subSize 0 (addSize (mstateSize + topFootSize) pageSize)
    · rw [wp_if_pos hfit]
      have hroom : Room D τ (base + 48) (base + cap) := by
        refine ⟨by omega, by omega, by omega, hword, ?_, hglob ▸ hP, Or.inl (by omega)⟩
        rw [hf.maps]
        exact hmap
      simp only [wp_bind, mallocParamsSize]
      refine hroom.wp_initUserMstate (by omega) (Nat.lt_trans hfit (subSize_lt _ _)) ?_
      intro υ hfresh hfυ
      rw [wp_if_neg (by decide)]
      simp only [wp_bind, seg, segFlags, mflags]
      refine hroom.wp_store hfυ.maps (by omega) (by omega) ?_
      obtain ⟨w, hw⟩ := hfresh.blank.flags
      rw [wp_update (by rw [Machine.get_put_ne (by omega)]; exact hw), wp_pure]
      have hw' : (if locked ≠ 0 then w ||| 0 else clearBits w 0) < 2 ^ 32 := by
        have hw32 := Machine.get_lt hw
        by_cases hl : locked ≠ 0
        · rw [if_pos hl, Nat.or_zero]
          omega
        · rw [if_neg hl]
          simp only [clearBits]
          omega
      generalize (if locked ≠ 0 then w ||| 0 else clearBits w 0) = w' at *
      have hfω : Frame (Within (base + 48) (base + cap)) τ ((υ.put 4 (base + 48 + 16 + 880 + 24)
          externBit).put 4 (base + 48 + 16 + 872) w') :=
        (hfυ.put (fun b h1 h2 => ⟨by omega, by omega⟩)).put (fun b h1 h2 => ⟨by omega, by omega⟩)
      obtain ⟨hfresh', hext⟩ := hfresh.finish (by omega) hw'
        (hroom.covers hfυ.maps (by omega) (by omega)) (hroom.covers hfυ.maps (by omega) (by omega))
        (by omega)
      have hmaps : ((υ.put 4 (base + 48 + 16 + 880 + 24) externBit).put 4 (base + 48 + 16 + 872)
          w').maps = σ.maps := hfω.maps.trans hf.maps
      have hO := hfresh'.ok (by omega) (by omega) (by omega) (by omega) (by omega) hword (by
        obtain ⟨r, hr, hl, hh⟩ := hmap
        exact ⟨r, by rw [Machine.maps_put, Machine.maps_put]; exact hmaps ▸ hr, by omega, hh⟩) hext
      have hfoot := hfresh'.blank.footprintWord
      rw [show base + cap + 48 - (base + 48) = cap by omega] at hfoot
      have hg : ∀ a, base ≤ a → a + 8 ≤ base + 48 → ((υ.put 4 (base + 48 + 16 + 880 + 24)
          externBit).put 4 (base + 48 + 16 + 872) w').get 8 a = τ.get 8 a := by
        intro a h1 h2
        apply hfω.get
        intro b h3 h4 hb
        have hl := hb.1
        omega
      refine hQ _ hO hfresh'.blank.ownHead hfoot ?_ (hfb.trans (hfω.mono (fun b hb => ⟨by
        have hl := hb.1
        omega, hb.2⟩))) (hleft.frame hfω fun b hb => hb.1)
        ⟨pageSize, (hg _ (by omega) (by omega)).trans hps, R.large, hfit⟩
      have hgl : ((υ.put 4 (base + 48 + 16 + 880 + 24) externBit).put 4 (base + 48 + 16 + 872)
          w').glob.pmparams = base := by
        rw [hfω.glob, hglob]
      obtain ⟨hm16, hk16⟩ := hP (16, 8) (by simp [paramWords])
      refine ⟨?_, ?_, ?_, ?_⟩
      all_goals rw [hgl]
      · exact Or.inl (by omega)
      · exact R.covers hmaps (by omega) (by omega)
      · rw [hg _ (by omega) (by omega)]
        exact hk16
      · rw [hg _ (by omega) (by omega)]
        exact hgran
    · rw [wp_if_neg hfit]
      exact h0 τ pageSize hps hfit hleft hfb
  have hcov : ∀ a n, base ≤ a → a + n ≤ base + 48 → (aimed σ base).mapped a n = true := by
    intro a n h1 h2
    simp only [mstateSize, topFootSize] at hlarge
    exact R.covers rfl h1 (by omega)
  unfold createMspaceWithBase
  rw [wp_bind, wp_globals, wp_bind, wp_setGlobals]
  simp only [wp_bind, paramMagic]
  change wp D _ _ (aimed σ base)
  obtain ⟨hm0, hk0⟩ := R.params (0, 8) (by simp [paramWords])
  refine wp_load_any hm0 hk0 ?_
  intro magic _
  have hfirst : (if magic ≠ 0 ∧ recreate = 0 then 0 else 1) = 1 := if_neg (fun hc => hrec hc.2)
  rw [hfirst, wp_if_pos (by decide), wp_bind]
  refine wp_initMparamsFront rfl R.params hcov R.page R.pagePower ?_ ?_
  · intro hold
    exact hmain _ (Frame.refl _ _) R.params ⟨fun _ _ _ _ _ => rfl, fun hz => absurd hz hold⟩
      (R.granularity hold)
  · intro τ hz hf hP hpg hgran hmagic
    have hg : τ.get 8 (base + 16) = some defaultGranularity := hgran
    refine hmain τ hf hP ⟨fun hne => absurd hz hne, fun _ => ⟨hpg, hgran, hmagic⟩⟩ ?_
    rw [hg]
    intro he
    exact absurd (Option.some.inj he) (by decide)

/-- A buffer is recreated: the capacity is refused, or the heap is empty. Bytes
outside the buffer keep their values. Where the buffer brings no page size along, the
capacity is refused for that of the process. -/
theorem Buffer.wp_createMspaceWithBase {Q : Nat → State → Prop} {locked recreate : Nat}
    (R : Buffer D σ base cap) (hrec : recreate ≠ 0)
    (h0 : ∀ τ, (σ.get 8 (base + 8) = some 0 →
        ¬ cap < subSize 0 (addSize (mstateSize + topFootSize) σ.glob.pageSize)) →
      Frame (Within base (base + cap)) (aimed σ base) τ → Q 0 τ)
    (hQ : ∀ τ, Ok τ (base + 64) (base + 48) (base + cap) (emptyHeap (base + 64) (base + cap)) →
      τ.get 8 (base + 56) = some (headWord 936 true true) →
      τ.get 8 (base + 64 + 856) = some cap → TrimOk D τ (base + 64) (base + cap) →
      Frame (Within base (base + cap)) (aimed σ base) τ → Q (base + 64) τ) :
    wp D (createMspaceWithBase base cap locked recreate) Q σ := by
  apply R.wp_createMspaceFront hrec
  · intro τ page hpage hno P hf
    refine h0 τ (fun hz => ?_) hf
    rwa [Option.some.inj ((P.new hz).1.symm.trans hpage)]
  · exact fun τ O hown hfoot T hf _ _ => hQ τ O hown hfoot T hf

end

end Mmdata.Proofs
