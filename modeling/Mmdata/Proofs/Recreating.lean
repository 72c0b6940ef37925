import Mmdata.Lib.Definite
import Mmdata.Proofs.Opening
import Mmdata.Proofs.Params

namespace Mmdata.Proofs
open Lib Malloc Image

/-- What `CreateAllocator` asks `create_mspace_with_base` for, with pages of `2 ^ k` bytes. -/
def wholePages (k memsize : Nat) : Nat := (memsize - 4096) / 2 ^ k * 2 ^ k

/-- A buffer that `CreateAllocator` accepts, whatever it holds. -/
structure Prior (σ : State) (buf k : Nat) (memsize : Int) : Prop where
  nonnull : buf ≠ 0
  align : buf % 8 = 0
  pages : 12 ≤ k ∧ k < 32
  page : σ.glob.pageSize = 2 ^ k
  large : 8192 ≤ memsize
  small : memsize < 2 ^ 63
  word : buf + memsize.toNat ≤ 2 ^ 64
  mapped : ∃ r ∈ σ.maps, r.1 ≤ buf ∧ buf + memsize.toNat ≤ r.2

/-- What two processes have of an image. -/
structure SameImage (buf ms : Nat) (P : Params) (σ τ : State) : Prop where
  mspace : result (getMspace buf) σ = some ms ∧ result (getMspace buf) τ = some ms
  header : ∀ a, buf ≤ a → a < buf + sizeofMeta → τ.byte a = σ.byte a
  params : ParamsAt σ (buf + allocatorMetaSize) P ∧ ParamsAt τ (buf + allocatorMetaSize) P
  state : ∀ a, ms ≤ a → a < ms + mstateSize → τ.byte a = σ.byte a
  topHead : ∃ t v, σ.getPtr (top ms) = some t ∧ τ.getPtr (top ms) = some t ∧
    σ.get 8 (head t) = some v ∧ τ.get 8 (head t) = some v

/-- The granularity is not zero, or the call does not make top exceed the trim threshold. -/
def TrimsWell (σ : State) (ms : Nat) (live : List Nat) (c : Call) : Prop :=
  Granular σ ∨ ¬ Trims σ ms live c

/-- The same calls in two processes whose buffers held different things, with the same parameters
among them. -/
inductive Recreated (K : Objects) (buf k : Nat) (memsize : Int) (ms : Nat) :
    State → State → List Nat → Prop
  | created {σ τ σ' τ' : State} {P : Params} {d e d' e' : MMData} : Prior σ buf k memsize →
      Prior τ buf k memsize → Brings σ (buf + allocatorMetaSize) P →
      Brings τ (buf + allocatorMetaSize) P → Accepted (wholePages k memsize.toNat) P.pageSize →
      createAllocator K d buf memsize σ = .ok ((0, d'), σ') →
      createAllocator K e buf memsize τ = .ok ((0, e'), τ') →
      result (getMspace buf) σ' = some ms → Recreated K buf k memsize ms σ' τ' []
  | step {σ τ σ' τ' : State} {live : List Nat} {c : Call} {r r' : Nat × List Nat} :
      Recreated K buf k memsize ms σ τ live → TrimsWell σ ms live c →
      perform ms live c σ = .ok (r, σ') → perform ms live c τ = .ok (r', τ') →
      Recreated K buf k memsize ms σ' τ' r.2

/-- `Meta` before the mspace is made: its size, and zeros. -/
structure Headed (buf size : Nat) (σ τ : State) : Prop where
  frame : Frame (Within buf (buf + 4096)) σ τ
  word : τ.get 8 (metaSize buf) = some size
  zeros : ∀ a, buf + 8 ≤ a → a < buf + sizeofMeta → τ.byte a = .known 0

/-- So it is, and the parameters are set. -/
structure Renewed (buf k cap : Nat) (P : Params) (σ τ : State) : Prop where
  maps : τ.maps = σ.maps
  glob : τ.glob = ⟨buf + 4096, 2 ^ k⟩
  params : ParamsAt τ (buf + 4096) P
  word : τ.get 8 (metaSize buf) = some cap
  zeros : ∀ a, buf + 8 ≤ a → a < buf + sizeofMeta → τ.byte a = .known 0

/-- The mspace `m` is entered in `Meta`, and the naming table is made. -/
def entered (f : Nat → Cell → Cell) (buf m : Nat) (σ : State) : State :=
  remade f (namingTable buf) maxNamingTableSize (σ.put 8 (mspaceOffset buf) (subSize m buf))

section

variable {σ τ V : State} {f : Nat → Cell → Cell} {I : State → Prop}
  {base cap locked m p n k a buf : Nat} {P : Params} {K : Objects} {d e : MMData} {memsize : Int} {live : List Nat}

/-! Creation overwrites the whole malloc_state. -/

theorem keeps_check (b : Bool) : Keeps I (check b) fun _ => True := by
  unfold check
  split
  · exact keeps_pure trivial
  · exact keeps_trap ⟨by decide, by decide, by decide⟩

theorem keeps_chunksize : Keeps I (chunksize p) fun _ => True :=
  keeps_bind keeps_load fun _ _ => keeps_pure trivial

theorem keeps_forLoop {f : Nat → Code Unit} (h : ∀ i, Keeps I (f i) fun _ => True) :
    Keeps I (forLoop f n k) fun _ => True := by
  induction n generalizing k with
  | zero => exact keeps_pure trivial
  | succ n ih => exact keeps_bind (h k) fun _ _ => ih

theorem keeps_initMparams (hI : Robust I) : Keeps I initMparams fun _ => True := by
  unfold initMparams
  refine keeps_bind keeps_globals fun g _ => keeps_bind keeps_load fun v _ => keeps_if (fun _ => ?_)
    fun _ => keeps_pure trivial
  have hrest : Keeps I (do
      store 8 (paramPageSize g.pmparams) g.pageSize
      store 8 (paramGranularity g.pmparams) defaultGranularity
      check (defaultGranularity &&& (defaultGranularity - 1) = 0)
      check (g.pageSize &&& subSize g.pageSize 1 = 0)) fun _ => True :=
    keeps_bind (keeps_store hI) fun _ _ => keeps_bind (keeps_store hI) fun _ _ =>
      keeps_bind (keeps_check _) fun _ _ => keeps_check _
  refine keeps_bind (keeps_store hI) fun _ _ => keeps_bind (keeps_store hI) fun _ _ =>
    keeps_bind (keeps_store hI) fun _ _ => keeps_bind keeps_load fun w _ => keeps_if (fun _ => ?_)
      fun _ => hrest
  exact keeps_bind (keeps_store hI) fun _ _ => hrest

theorem keeps_initBins (hI : Robust I) : Keeps I (initBins m) fun _ => True :=
  keeps_forLoop fun _ => keeps_bind (keeps_storePtr hI) fun _ _ => keeps_storePtr hI

theorem keeps_initTop (hI : Robust I) : Keeps I (initTop m p n) fun _ => True := by
  unfold initTop
  refine keeps_bind (keeps_storePtr hI) fun _ _ => keeps_bind (keeps_store hI) fun _ _ =>
    keeps_bind (keeps_store hI) fun _ _ => keeps_bind (keeps_store hI) fun _ _ =>
    keeps_bind keeps_globals fun _ _ => keeps_bind keeps_load fun _ _ => keeps_store hI

/-- The whole malloc_state is written. -/
theorem wp_initUserMstate_definite (σ : State) : wp Plain (initUserMstate base cap 1)
    (fun m τ => Definite m mstateSize τ) σ := by
  have hI : Robust (Definite (chunk2mem (alignAsChunk base)) mstateSize : State → Prop) :=
    robust_definite
  unfold initUserMstate
  rw [wp_if_neg (by decide)]
  refine wp_mono (wp_memset_definite (R := fun m => m = chunk2mem (alignAsChunk base)) ?_ σ) ?_
  · refine keeps_bind (keeps_store hI) fun _ _ => ?_
    refine keeps_bind (keeps_storePtr hI) fun _ _ => ?_
    refine keeps_bind (keeps_storePtr hI) fun _ _ => ?_
    refine keeps_bind (keeps_storePtr hI) fun _ _ => ?_
    refine keeps_bind (keeps_store hI) fun _ _ => ?_
    refine keeps_bind (keeps_store hI) fun _ _ => ?_
    refine keeps_bind (keeps_store hI) fun _ _ => ?_
    refine keeps_bind keeps_globals fun _ _ => keeps_bind keeps_load fun _ _ => ?_
    refine keeps_bind (keeps_store hI) fun _ _ => ?_
    refine keeps_bind (keeps_store hI) fun _ _ => ?_
    refine keeps_bind keeps_globals fun _ _ => keeps_bind keeps_load fun _ _ => ?_
    refine keeps_bind (keeps_store hI) fun _ _ => ?_
    refine keeps_bind (keeps_storePtr hI) fun _ _ => ?_
    refine keeps_bind (keeps_store hI) fun _ _ => ?_
    refine keeps_bind (keeps_storePtr hI) fun _ _ => ?_
    refine keeps_bind (keeps_forLoop fun _ => keeps_storePtr hI) fun _ _ => ?_
    refine keeps_bind (keeps_update hI) fun _ _ => ?_
    refine keeps_bind (keeps_initBins hI) fun _ _ => ?_
    refine keeps_bind keeps_chunksize fun _ _ => ?_
    exact keeps_bind (keeps_initTop hI) fun _ _ => keeps_pure rfl
  · intro m τ h
    exact h.1 ▸ h.2

theorem wp_createSettled_definite (σ : State) : wp Plain (createSettled base cap locked)
    (fun m τ => m ≠ 0 → Definite m mstateSize τ) σ := by
  unfold createSettled
  by_cases hcap : cap > mstateSize + topFootSize
  · rw [wp_if_pos hcap, wp_bind, wp_globals, wp_bind]
    apply wp_plain keeps_load
    intro page τ
    by_cases hfit : cap < subSize 0 (addSize (mstateSize + topFootSize) page)
    · rw [wp_if_pos hfit, wp_bind]
      apply wp_mono (wp_initUserMstate_definite τ)
      intro m υ hdef
      rw [wp_if_neg (by decide)]
      have hD : Robust (Definite m mstateSize : State → Prop) := robust_definite
      have hend : Keeps (Definite m mstateSize) (do
          store 4 (segFlags (seg m)) externBit
          update 4 (mflags m) fun w => if locked ≠ 0 then w ||| 0 else clearBits w 0
          return m) fun r => r = m :=
        keeps_bind (keeps_store hD) fun _ _ => keeps_bind (keeps_update hD) fun _ _ =>
          keeps_pure rfl
      apply wp_mono (hend υ hdef)
      intro r ω h _
      exact h.1 ▸ h.2
    · rw [wp_if_neg hfit]
      exact fun h0 => absurd rfl h0
  · rw [wp_if_neg hcap]
    exact fun h0 => absurd rfl h0

/-- Creation ends in no trap but plain ones, and it leaves no byte of the malloc_state as it was. -/
theorem wp_createMspace_definite (σ : State) : wp Plain (createMspaceWithBase base cap locked 1)
    (fun m τ => m ≠ 0 → Definite m mstateSize τ) σ := by
  unfold createMspaceWithBase
  rw [wp_bind, wp_globals, wp_bind, wp_setGlobals, wp_bind]
  apply wp_plain keeps_load
  intro magic τ
  have hfirst : (if magic ≠ 0 ∧ (1 : Nat) = 0 then 0 else 1) = 1 :=
    if_neg (fun hc => absurd hc.2 (by decide))
  rw [hfirst, wp_if_pos (by decide), wp_bind]
  apply wp_plain (keeps_initMparams robust_true)
  intro _ υ
  exact wp_createSettled_definite υ

/-- An mspace is created in both. -/
theorem create_agree (low : 64 ≤ base) (word : base + cap ≤ 2 ^ 64) (h8 : base % 8 = 0)
    (hc8 : cap % 8 = 0) (hacc : Accepted cap P.pageSize) (h0 : P.pageSize ≠ 0)
    (hσ : ParamsAt σ base P) (hτ : ParamsAt τ base P)
    (hmσ : ∃ r ∈ σ.maps, r.1 ≤ base ∧ base + cap ≤ r.2)
    (hmτ : ∃ r ∈ τ.maps, r.1 ≤ base ∧ base + cap ≤ r.2) (hg : τ.glob = σ.glob)
    (hpage : σ.glob.pageSize < 2 ^ 64)
    (hpow : σ.glob.pageSize &&& subSize σ.glob.pageSize 1 = 0) :
    ∃ V σ' τ', createMspaceWithBase base cap locked 1 σ = .ok (base + 64, σ') ∧
      createMspaceWithBase base cap locked 1 τ = .ok (base + 64, τ') ∧
      Agreed base cap V σ' τ' ∧ Beside base cap σ σ' ∧ Beside base cap τ τ' ∧
      Held V base cap [] (emptyHeap (base + 64) (base + cap)) ∧ ParamsAt V base P ∧
      V.glob.pmparams = base ∧ Definite (base + 64) mstateSize V := by
  have hlarge := hacc.1
  have hP : ParamsAt (common σ τ base cap) base P :=
    hσ.both hτ (by simp only [mstateSize, topFootSize] at hlarge; omega)
  have B : Buffer (fun e => e = .divZero) (common σ τ base cap) base cap :=
    ⟨h8, hc8, hlarge, word, ⟨_, List.mem_cons_self, Nat.le_refl _, Nat.le_refl _⟩, hP.ok, hpage,
      hpow, fun _ _ => rfl⟩
  have hset : (common σ τ base cap).get 8 (base + 8) ≠ some 0 := by
    rw [hP.page]
    exact fun h => h0 (Option.some.inj h)
  have hparams : ∀ V, ParamsLeft (common σ τ base cap) V base → ParamsAt V base P := by
    intro V hleft f hf
    have hin := fields_within hf
    rw [hleft.old hset _ _ (Nat.le_add_right _ _) (by omega)]
    exact hP f hf
  have hrun : wp (fun e => e = .divZero) (createMspaceWithBase base cap locked 1) (fun m V =>
      m = base + 64 ∧ Held V base cap [] (emptyHeap (base + 64) (base + cap)) ∧
        ParamsAt V base P ∧ V.glob.pmparams = base) (common σ τ base cap) := by
    apply B.wp_createMspaceFront (by decide)
    · intro V page hpg hno hleft _
      have hp := (hparams V hleft).page
      rw [hpg] at hp
      cases hp
      exact absurd hacc.2 hno
    · intro V O hown _ _ hf hleft _
      exact ⟨rfl, ⟨O, List.Perm.refl _, hown⟩, hparams V hleft, by rw [hf.glob]; rfl⟩
  have hplain := @wp_createMspace_definite base cap locked (common σ τ base cap)
  cases hV : createMspaceWithBase base cap locked 1 (common σ τ base cap) with
  | error e =>
    have hdiv := wp_error hplain hV
    exact absurd (wp_error hrun hV) hdiv.1
  | ok p =>
    obtain ⟨m, V⟩ := p
    obtain ⟨rfl, H, hPV, hpm⟩ := wp_ok hrun hV
    have A := agreed_common low word hmσ hmτ hg
    have hA := @alike_createMspaceWithBase (vague base cap low word) base base cap locked 1
      vague_params vague_aims ⟨Nat.le_refl _, rfl⟩
    obtain ⟨σ', τ', hrσ, hrτ, A', hbσ, hbτ⟩ := A.run hA (fun _ h => vague_points h) hV
    exact ⟨V, σ', τ', hrσ, hrτ, A', hbσ, hbτ, H, hPV, hpm, wp_ok hplain hV (by omega)⟩

/-- `CreateAllocator` up to the creation of the mspace. -/
theorem Prior.headed (B : Prior σ buf k memsize) (K : Objects) (d : MMData) :
    ∃ τ, Headed buf (wholePages k memsize.toNat) σ τ ∧
      createAllocator K d buf memsize σ = createRest K d buf (wholePages k memsize.toNat) τ := by
  have hlarge := B.large
  have hsmall := B.small
  have hpages := B.pages
  -- the run ends as one of the rest does
  have hrun : wp (fun e => ∃ τ, Headed buf (wholePages k memsize.toNat) σ τ ∧
        createRest K d buf (wholePages k memsize.toNat) τ = .error e)
      (createAllocator K d buf memsize) (fun r υ => ∃ τ,
        Headed buf (wholePages k memsize.toNat) σ τ ∧
        createRest K d buf (wholePages k memsize.toNat) τ = .ok (r, υ)) σ := by
    apply wp_createAllocator_front (show memsize = (memsize.toNat : Int) by omega)
      (fun h => by omega) B.page B.mapped (by omega) (by omega)
    intro τ _ hf hw hz
    unfold wp
    split
    · rename_i r υ hr
      exact ⟨τ, ⟨hf, hw, hz⟩, hr⟩
    · rename_i e he
      exact ⟨τ, ⟨hf, hw, hz⟩, he⟩
  unfold wp at hrun
  split at hrun
  · rename_i r υ hr
    obtain ⟨τ, H, h⟩ := hrun
    exact ⟨τ, H, hr.trans h.symm⟩
  · rename_i e he
    obtain ⟨τ, H, h⟩ := hrun
    exact ⟨τ, H, he.trans h.symm⟩

theorem wholePages_le {memsize : Nat} (hk : 12 ≤ k) (hl : 4096 ≤ memsize) :
    4096 + wholePages k memsize ≤ memsize ∧ wholePages k memsize % 8 = 0 := by
  have hle := Nat.div_mul_le_self (memsize - 4096) (2 ^ k)
  have h8 : 8 ∣ 2 ^ k := Nat.pow_dvd_pow 2 (show 3 ≤ k by omega)
  refine ⟨by unfold wholePages; omega, ?_⟩
  exact Nat.mod_eq_zero_of_dvd (Dvd.dvd.mul_left h8 _)

/-- What is mapped of the buffer. -/
theorem Prior.covers (B : Prior σ buf k memsize) (hm : τ.maps = σ.maps) {a n : Nat}
    (h1 : buf ≤ a) (h2 : a + n ≤ buf + memsize.toNat) : τ.mapped a n = true := by
  obtain ⟨r, hr, hr1, hr2⟩ := B.mapped
  exact Machine.mapped_of_mem (hm ▸ hr) (by omega) (by omega)

/-- `CreateAllocator` up to the creation of the mspace, with the parameters set first. -/
theorem Prior.renewed (B : Prior σ buf k memsize) (hB : Brings σ (buf + 4096) P)
    (hacc : Accepted (wholePages k memsize.toNat) P.pageSize) (K : Objects) (d : MMData) :
    ∃ σ₁ τ, createAllocator K d buf memsize σ =
        createRest K d buf (wholePages k memsize.toNat) σ₁ ∧
      createMspaceWithBase (buf + 4096) (wholePages k memsize.toNat) 0 1 σ₁ =
        createMspaceWithBase (buf + 4096) (wholePages k memsize.toNat) 0 1 τ ∧
      Renewed buf k (wholePages k memsize.toNat) P σ τ := by
  have hlarge := B.large
  have hpages := B.pages
  have hcap := (wholePages_le hpages.1 (show 4096 ≤ memsize.toNat by omega)).1
  have hroom := hacc.1
  simp only [mstateSize, topFootSize] at hroom
  have hlt : 2 ^ k < 2 ^ 64 := Nat.pow_lt_pow_right (by decide) (by omega)
  have hpos : 0 < 2 ^ k := Nat.two_pow_pos k
  have hmeta : sizeofMeta = 1296 := rfl
  obtain ⟨σ₁, H, hr⟩ := B.headed K d
  have hf₁ := H.frame
  have hpage : σ₁.glob.pageSize = 2 ^ k := by rw [hf₁.glob, B.page]
  have hB₁ : Brings σ₁ (buf + 4096) P := hB.frame hf₁ fun b h1 _ hb => Nat.not_lt.mpr h1 hb.2
  obtain ⟨τ, hf, hP, he⟩ := hB₁.settle (fun a n h1 h2 => B.covers hf₁.maps (by omega) (by omega))
    (by omega) (by omega) (by rw [hpage]; exact page_power (by omega))
  refine ⟨σ₁, τ, hr, he _ 0, hf.maps.trans hf₁.maps, ?_, hP, ?_, ?_⟩
  · rw [hf.glob]
    show Globals.mk (buf + 4096) σ₁.glob.pageSize = _
    rw [hpage]
  · have hword := H.word
    unfold metaSize at hword ⊢
    rw [hf.get fun b h1 h2 hb => absurd hb.1 (by omega)]
    exact hword
  · intro a h1 h2
    rw [hf.byte a fun hb => absurd hb.1 (by omega)]
    exact H.zeros a h1 h2

/-- Two such have the same `Meta`. -/
theorem Renewed.same {cap : Nat} {σ' τ' : State} (S : Renewed buf k cap P σ τ)
    (S' : Renewed buf k cap P σ' τ') (h1 : buf ≤ a) (h2 : a < buf + sizeofMeta) :
    τ'.byte a = τ.byte a := by
  by_cases ha : a < buf + 8
  · have hw := Machine.byte_of_get S.word (show a - buf < 8 by omega)
    have hw' := Machine.byte_of_get S'.word (show a - buf < 8 by omega)
    unfold metaSize at hw hw'
    rw [show buf + (a - buf) = a by omega] at hw hw'
    rw [hw, hw']
  · rw [S.zeros a (by omega) h2, S'.zeros a (by omega) h2]

theorem entered_frame : Frame (fun b => b < buf + 4096) σ (entered f buf m σ) := by
  apply ((Frame.refl _ σ).put _).trans (remade_frame.mono _)
  · intro b h1 h2
    unfold mspaceOffset at h2
    omega
  · intro b hb
    have h2 := hb.2
    simp only [namingTable, maxRootStructSize, maxNamingTableSize] at h2
    omega

theorem entered_same (h : τ.byte a = σ.byte a) :
    (entered f buf m τ).byte a = (entered f buf m σ).byte a := by
  have hput : (τ.put 8 (mspaceOffset buf) (subSize m buf)).byte a =
      (σ.put 8 (mspaceOffset buf) (subSize m buf)).byte a := by
    simp only [Machine.put, storeLE, h]
  simp only [entered, remade, hput]

theorem entered_mspace (hm : σ.mapped (mspaceOffset buf) 8 = true) (hb : buf < 2 ^ 64)
    (hlt : m < 2 ^ 64) : result (getMspace buf) (entered f buf m σ) = some m := by
  have hw : subSize m buf < 2 ^ 64 := Nat.mod_lt _ (by decide)
  have hget : (entered f buf m σ).get 8 (mspaceOffset buf) = some (subSize m buf) := by
    unfold entered
    rw [remade_frame.get fun b h1 h2 hb => ?_]
    · exact Machine.get_put_same hm hw
    · have hb1 := hb.1
      simp only [namingTable, maxRootStructSize, mspaceOffset] at hb1 h2
      omega
  have hrun : wp (fun _ => False) (getMspace buf) (fun v _ => v = m) (entered f buf m σ) :=
    wp_getMspace hget hlt hb rfl
  obtain ⟨v, _, hv, rfl⟩ := ok_of_wp hrun
  simp only [result, hv]

/-- What `CreateAllocator` does after the creation of the mspace. -/
theorem createRest_run (h0 : buf ≠ 0)
    (hf : ∀ σ : State, σ.mapped (namingTable buf) maxNamingTableSize = true →
      K.table (namingTable buf) buf σ = .ok ((), remade f (namingTable buf) maxNamingTableSize σ))
    (hmap : ∀ a n, buf ≤ a → a + n ≤ buf + 4096 → τ.mapped a n = true)
    (hr : createMspaceWithBase (buf + 4096) cap 0 1 σ = .ok (m, τ)) :
    createRest K d buf cap σ = .ok ((0, { d with allocator_ := buf }), entered f buf m τ) := by
  unfold createRest
  refine (bind_of_ok hr).trans ?_
  have hm : τ.mapped (mspaceOffset buf) 8 = true :=
    hmap (buf + 8) 8 (Nat.le_add_right _ _) (by omega)
  have hstore : store 8 (mspaceOffset buf) (subSize m buf) τ =
      .ok ((), τ.put 8 (mspaceOffset buf) (subSize m buf)) := by
    simp only [store, hm, if_true]
  refine (bind_of_ok hstore).trans ?_
  rw [if_pos h0]
  have htable : (τ.put 8 (mspaceOffset buf) (subSize m buf)).mapped (namingTable buf)
      maxNamingTableSize = true := by
    rw [Machine.mapped_congr (Machine.maps_put _ _ _)]
    apply hmap
    all_goals
      simp only [namingTable, maxRootStructSize, maxNamingTableSize]
      omega
  exact bind_of_ok (hf _ htable)

/-- Two buffers that bring the same parameters along become the same image. -/
theorem recreate_twofold (hK : TableFixed K buf) (Bσ : Prior σ buf k memsize)
    (Bτ : Prior τ buf k memsize) (hσ : Brings σ (buf + 4096) P) (hτ : Brings τ (buf + 4096) P)
    (hacc : Accepted (wholePages k memsize.toNat) P.pageSize) :
    ∃ σ' τ', createAllocator K d buf memsize σ = .ok ((0, { d with allocator_ := buf }), σ') ∧
      createAllocator K e buf memsize τ = .ok ((0, { e with allocator_ := buf }), τ') ∧
      SameImage buf (buf + 4096 + 64) P σ' τ' ∧
      Twofold (buf + 4096) (wholePages k memsize.toNat) [] σ' τ' := by
  obtain ⟨f, hf⟩ := hK buf
  have hsize : sizeofMeta = 1296 := rfl
  have hlarge := Bσ.large
  have h8 := Bσ.align
  have hword := Bσ.word
  have hpages := Bσ.pages
  have hroom := hacc.1
  simp only [mstateSize, topFootSize] at hroom
  obtain ⟨hcap, hcap8⟩ := wholePages_le hpages.1 (show 4096 ≤ memsize.toNat by omega)
  have hlt : 2 ^ k < 2 ^ 64 := Nat.pow_lt_pow_right (by decide) (by omega)
  have hpos : 0 < 2 ^ k := Nat.two_pow_pos k
  obtain ⟨σ₁, σ₂, hrσ, heσ, Sσ⟩ := Bσ.renewed hσ hacc K d
  obtain ⟨τ₁, τ₂, hrτ, heτ, Sτ⟩ := Bτ.renewed hτ hacc K e
  generalize wholePages k memsize.toNat = cap at *
  have hpage : σ₂.glob.pageSize = 2 ^ k := by rw [Sσ.glob]
  obtain ⟨r, hr, hr1, hr2⟩ := Bσ.mapped
  obtain ⟨q, hq, hq1, hq2⟩ := Bτ.mapped
  obtain ⟨V, σ₃, τ₃, hcσ, hcτ, A, hbσ, hbτ, H, hP, hpm, hdef⟩ := @create_agree σ₂ τ₂ (buf + 4096)
    cap 0 P (by omega) (by omega) (by omega) hcap8 hacc (hσ.pageSize (by rw [Bσ.page]; omega))
    Sσ.params Sτ.params ⟨r, Sσ.maps ▸ hr, by omega, by omega⟩
    ⟨q, Sτ.maps ▸ hq, by omega, by omega⟩ (Sτ.glob.trans Sσ.glob.symm) (by omega)
    (by rw [hpage]; exact page_power (by omega))
  have hmapσ : ∀ a n, buf ≤ a → a + n ≤ buf + 4096 → σ₃.mapped a n = true := fun a n h1 h2 =>
    Bσ.covers (hbσ.1.trans Sσ.maps) h1 (by omega)
  have hmapτ : ∀ a n, buf ≤ a → a + n ≤ buf + 4096 → τ₃.mapped a n = true := fun a n h1 h2 =>
    Bτ.covers (hbτ.1.trans Sτ.maps) h1 (by omega)
  have A' : Agreed (buf + 4096) cap V (entered f buf (buf + 4096 + 64) σ₃)
      (entered f buf (buf + 4096 + 64) τ₃) := A.beside entered_frame entered_frame fun b hb => hb
  have hshow := A'.shows
  refine ⟨_, _, hrσ.trans (createRest_run Bσ.nonnull hf hmapσ (heσ.trans hcσ)),
    hrτ.trans (createRest_run Bσ.nonnull hf hmapτ (heτ.trans hcτ)), ⟨?_, ?_, ?_, ?_, ?_⟩,
    V, _, A', H, hpm, P.granularity, hP.granularity⟩
  · exact ⟨entered_mspace (hmapσ (buf + 8) 8 (by omega) (by omega)) (by omega) (by omega),
      entered_mspace (hmapτ (buf + 8) 8 (by omega) (by omega)) (by omega) (by omega)⟩
  · intro a h1 h2
    apply entered_same
    rw [hbσ.2 a (Or.inl (by omega)), hbτ.2 a (Or.inl (by omega)), Sσ.same Sτ h1 h2]
  · exact ⟨hP.shows hshow.1, hP.shows hshow.2⟩
  · intro a h1 h2
    simp only [mstateSize] at h2
    exact A'.byte (hdef a h1 (by unfold mstateSize; omega)) (by omega) (by omega)
  · have htop := H.ok.core.scalars.topPtr
    have hhead := H.ok.core.topHead
    exact ⟨_, _, hshow.1.getPtr htop, hshow.2.getPtr htop, hshow.1.get hhead, hshow.2.get hhead⟩

theorem Recreated.twofold {ms : Nat} (hK : TableFixed K buf)
    (R : Recreated K buf k memsize ms σ τ live) :
    ms = buf + 4096 + 64 ∧ Twofold (buf + 4096) (wholePages k memsize.toNat) live σ τ := by
  induction R with
  | @created _ _ _ _ _ d e _ _ Bσ Bτ hσ hτ hacc hrσ hrτ hms =>
    obtain ⟨_, _, h1, h2, hsame, T⟩ := recreate_twofold (d := d) (e := e) hK Bσ Bτ hσ hτ hacc
    rw [hrσ] at h1
    rw [hrτ] at h2
    cases h1
    cases h2
    have hat := hsame.mspace.1
    rw [hms] at hat
    exact ⟨Option.some.inj hat, T⟩
  | step _ hc hrσ hrτ ih =>
    obtain ⟨rfl, T⟩ := ih
    obtain ⟨_, _, _, h1, h2, T'⟩ := T.call hc
    rw [hrσ] at h1
    rw [hrτ] at h2
    cases h1
    cases h2
    exact ⟨rfl, T'⟩

/-- Over two contents that bring the same parameters along, `CreateAllocator` makes the same image,
and then every call returns the same in both, unless it trims over a granularity of zero. -/
theorem recreation_forgets (hK : TableFixed K buf) :
    (∀ σ τ d e P, Prior σ buf k memsize → Prior τ buf k memsize →
      Brings σ (buf + allocatorMetaSize) P → Brings τ (buf + allocatorMetaSize) P →
      Accepted (wholePages k memsize.toNat) P.pageSize →
      ∃ d' e' σ' τ', createAllocator K d buf memsize σ = .ok ((0, d'), σ') ∧
        createAllocator K e buf memsize τ = .ok ((0, e'), τ') ∧
        SameImage buf (buf + allocatorMetaSize + 64) P σ' τ') ∧
    ∀ ms σ τ live, Recreated K buf k memsize ms σ τ live → ∀ c, TrimsWell σ ms live c →
      ∃ r σ' τ', perform ms live c σ = .ok (r, σ') ∧ perform ms live c τ = .ok (r, τ') := by
  constructor
  · intro σ τ d e P Bσ Bτ hσ hτ hacc
    obtain ⟨σ', τ', h1, h2, hsame, _⟩ := recreate_twofold (d := d) (e := e) hK Bσ Bτ hσ hτ hacc
    exact ⟨_, _, σ', τ', h1, h2, hsame⟩
  · intro ms σ τ live R c hc
    obtain ⟨rfl, T⟩ := R.twofold hK
    obtain ⟨r, σ', τ', h1, h2, _⟩ := T.call hc
    exact ⟨r, σ', τ', h1, h2⟩

/-- A buffer that has the default parameters, and no zeros otherwise. -/
def usedBefore : State :=
  putParams ⟨fun _ => .known 0xAB, [(4096, 69632)], ⟨0, 4096⟩⟩ 8192 (defaultParams 0x58585858 4096)

theorem prior_at {σ : State} (hm : σ.maps = [(4096, 69632)]) (hg : σ.glob = ⟨0, 4096⟩) :
    Prior σ 4096 12 65536 := by
  refine ⟨by decide, by decide, by decide, by rw [hg]; rfl, by decide, by decide, by decide, ?_⟩
  exact ⟨(4096, 69632), by rw [hm]; exact List.mem_cons_self, by decide, by decide⟩

theorem usedBefore_brings : Brings usedBefore 8192 (defaultParams 0x58585858 4096) := by
  refine .own (putParams_at ?_ (by decide) (by decide) (by decide) (by decide) (by decide)
    (by decide)) (by decide)
  intro a n h1 h2
  exact Machine.mapped_of_mem List.mem_cons_self (by omega) (by omega)

theorem zeroed_brings : Brings zeroed 8192 (defaultParams 0x58585858 4096) :=
  .none (v := 0) (by decide) (by decide)

set_option maxRecDepth 100000 in
/-- Over zeros and over an old image, a block is given and taken back. -/
theorem recreation_forgets_used : ∃ σ τ σ' τ',
    Recreated zeroTable 4096 12 65536 8256 σ τ [9192] ∧
    perform 8256 [9192] (.free 0) σ = .ok ((0, []), σ') ∧
    perform 8256 [9192] (.free 0) τ = .ok ((0, []), τ') := by
  have hrun : result (do
      let c ← createAllocator zeroTable .new 4096 65536
      let ms ← getMspace 4096
      let r ← perform ms [] (.malloc 100)
      let g ← globals
      let w ← load 8 (paramGranularity g.pmparams)
      let f ← perform ms r.2 (.free 0)
      return (c.1, ms, r, w, f)) zeroed = some (0, 8256, (9192, [9192]), 65536, (0, [])) := by
    decide +kernel
  obtain ⟨υ, hυ⟩ := result_ok hrun
  obtain ⟨⟨rc, d⟩, σ₁, hc, hrest⟩ := bind_ok hυ
  obtain ⟨ms, σ₂, hms, hrest⟩ := bind_ok hrest
  obtain ⟨r, σ₃, hr, hrest⟩ := bind_ok hrest
  obtain ⟨g, σ₄, hg, hrest⟩ := bind_ok hrest
  obtain ⟨w, σ₅, hw, hrest⟩ := bind_ok hrest
  obtain ⟨f, σ₆, hf, hpure⟩ := bind_ok hrest
  cases hg
  obtain ⟨hgran, rfl⟩ := load_ok hw
  obtain ⟨hout, rfl⟩ := Prod.mk.inj (Except.ok.inj hpure)
  obtain ⟨rfl, rfl, rfl, rfl, rfl⟩ : rc = 0 ∧ ms = 8256 ∧ r = (9192, [9192]) ∧ w = 65536 ∧
      f = (0, []) := by
    simpa only [Prod.mk.injEq] using hout
  cases getMspace_same hms
  have hall := @recreation_forgets 12 4096 zeroTable 65536 (zeroTable_fixed 4096)
  obtain ⟨d', e', σ', τ₁, hc', hcτ, hsame⟩ := hall.1 zeroed usedBefore .new .new _
    (prior_at rfl rfl) (prior_at rfl rfl) zeroed_brings usedBefore_brings (by decide)
  rw [hc] at hc'
  cases hc'
  have R₁ : Recreated zeroTable 4096 12 65536 8256 σ₁ τ₁ [] :=
    .created (prior_at rfl rfl) (prior_at rfl rfl) zeroed_brings usedBefore_brings (by decide) hc hcτ
      hsame.mspace.1
  have hquiet : TrimsWell σ₁ 8256 [] (.malloc 100) := by
    refine Or.inr ?_
    rintro ⟨_, _, hT⟩
    exact hT
  obtain ⟨_, _, τ₂, hr', hrτ⟩ := hall.2 _ _ _ _ R₁ _ hquiet
  rw [hr] at hr'
  cases hr'
  have R₂ := Recreated.step R₁ hquiet hr hrτ
  obtain ⟨_, _, τ₃, hf', hfτ⟩ := hall.2 _ _ _ _ R₂ (.free 0) (Or.inl ⟨65536, hgran, by decide⟩)
  rw [hf] at hf'
  cases hf'
  exact ⟨_, τ₂, _, τ₃, R₂, hf, hfτ⟩

/-- A buffer of zeros, but for the size of a page. -/
def pageOnly : State := zeroed.put 8 (paramPageSize 8192) 4096

set_option maxRecDepth 100000 in
/-- It keeps a granularity of zero and a trim threshold of zero: the first free divides by zero,
which it does not over zeros. -/
theorem recreation_remembers : Prior zeroed 4096 12 65536 ∧ Prior pageOnly 4096 12 65536 ∧
    result (do
      let _ ← createAllocator zeroTable .new 4096 65536
      let g ← load 8 (paramGranularity 8192)
      let r ← perform 8256 [] (.malloc 100)
      let f ← perform 8256 r.2 (.free 0)
      return (g, r, f)) zeroed = some (65536, (9192, [9192]), (0, [])) ∧
    result (do
      let _ ← createAllocator zeroTable .new 4096 65536
      let g ← load 8 (paramGranularity 8192)
      let r ← perform 8256 [] (.malloc 100)
      return (g, r)) pageOnly = some (0, (9192, [9192])) ∧
    result (do
      let _ ← createAllocator zeroTable .new 4096 65536
      let r ← perform 8256 [] (.malloc 100)
      perform 8256 r.2 (.free 0)) pageOnly = none := by
  refine ⟨prior_at rfl rfl, prior_at rfl rfl, ?_, ?_, ?_⟩
  all_goals decide +kernel

end

end Mmdata.Proofs
