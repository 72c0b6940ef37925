import Mmdata.Proofs.HeapSound
import Mmdata.Proofs.Sited

namespace Mmdata.Proofs
open Lib Malloc Image

/-- What holds of an image while it is used: `Meta` says where the mspace is, `pmparams`
points into the image, and the mspace holds the blocks `live`. -/
structure Tended (σ : State) (buf size : Nat) (live : List Nat) : Prop where
  nonnull : buf ≠ 0
  large : 8192 ≤ size
  offset : σ.get 8 (mspaceOffset buf) = some (subSize (buf + 4096 + 64) buf)
  params : σ.glob.pmparams = buf + 4096
  trim : TrimOk Any σ (buf + 4096 + 64) (buf + 4096 + capacityOf size)
  heap : ∃ h, Held σ (buf + 4096) (capacityOf size) live h

/-- What holds of an `MMFileData` with a new image, while the image is used. -/
structure FileImage (d : MMFileData) (w : World) (live : List Nat) : Prop where
  writable : d.readonly_ = false
  space : d.allocator_ = d.databuf_.buf
  word : d.databuf_.buf + d.databuf_.size ≤ 2 ^ 64
  shared : w.glob.shared = some (d.databuf_.buf, d.databuf_.size)
  image : Tended (process w) d.databuf_.buf d.databuf_.size live

/-- What holds of an `MMFileData` with a new image in which there is no mspace. -/
structure BareImage (d : MMFileData) (w : World) (live : List Nat) : Prop where
  space : d.allocator_ = d.databuf_.buf
  image : NoMspace (process w) d.databuf_.buf live

/-- The `k` bytes at `a` are among the first `n` bytes of the image. -/
def Spans (buf n a k : Nat) : Prop := buf ≤ a ∧ a + k ≤ buf + n

/-- The first `n` bytes of an image hold all that is in use of it: the page of `Meta` with
the naming table, the parameters, the malloc_state, the header and the foot of every chunk
below top, and the usable bytes of the blocks. -/
structure Whole (σ : State) (buf n ms : Nat) (live : List Nat) (h : Heap) : Prop where
  meta_ : Spans buf n buf allocatorMetaSize
  table : Spans buf n (namingTable buf) maxNamingTableSize
  params : Spans buf n (buf + allocatorMetaSize) mallocParamsSize
  mstate : Spans buf n ms (exts 8)
  header : ∀ c ∈ allChunks ms h, Spans buf n c.addr (fd 0)
  foot : ∀ c ∈ allChunks ms h, Spans buf n (prevFoot (c.addr + c.size)) 8
  blocks : ∀ p ∈ live, Spans buf n p (usableSize σ p)

/-- Every load for reading of the file in `w'` returns the root if `open` and `mmap` succeed, and
maps `n` bytes, which are those that `w` has at `buf`. -/
def ReadsBack (w w' : World) (buf n : Nat) : Prop :=
  ∀ (reader : MMFileData) (r : Reply) (w₁ : World) (a : MapAddr), reader.databuf_.buf = 0 →
    w₁.glob.file = w'.glob.file → r.openFile = .ok () → r.mmap = .ok a →
    ∃ reader' w₂, reader.loadRootReadObject r w₁ = .ok ((rootObject a.addr, reader'), w₂) ∧
      reader'.databuf_.buf = a.addr ∧ reader'.databuf_.size = n ∧
      (a.addr, a.addr + n) ∈ w₂.maps ∧ ∀ i < n, w₂.byte (a.addr + i) = w.byte (buf + i)

/-- The first `used_space` bytes of an image hold all that is in use of it, and are no more
than are mapped. `ShrinkToFit` returns their number, and they are read back from the file that
it leaves. -/
def ShrinksWhole (d : MMFileData) (w : World) (live : List Nat) : Prop :=
  ∃ n ms h, n ≤ d.databuf_.size ∧ usedSpace d.allocator_ (process w) = .ok (n, process w) ∧
    getMspace d.allocator_ (process w) = .ok (ms, process w) ∧ Sound (process w) ms h ∧
    Whole (process w) d.databuf_.buf n ms live h ∧
    ∀ r, r.truncate = true → ∃ w', d.shrinkToFit r w = .ok ((toInt64 n, d), w') ∧
      ReadsBack w w' d.databuf_.buf n

section

variable {σ τ : State} {buf size ms n : Nat} {live live' : List Nat} {libc : Libc} {c : Call}
  {K : Objects} {held : State → List Nat}

theorem Tended.sited (I : Tended σ buf size live) : Sited σ buf (capacityOf size) size live :=
  ⟨I.nonnull, (capacityOf_le I.large).2.1, Nat.dvd_mul_left .., I.offset, I.params, I.trim, I.heap⟩

theorem Sited.tended (I : Sited σ buf (capacityOf size) size live) (hl : 8192 ≤ size) :
    Tended σ buf size live :=
  ⟨I.nonnull, hl, I.offset, I.params, I.trim, I.heap⟩

theorem Tended.getMspace (I : Tended σ buf size live) :
    Image.getMspace buf σ = .ok (buf + 4096 + 64, σ) := I.sited.getMspace

/-- Every use keeps the image. -/
theorem Tended.use (I : Tended σ buf size live) (hu : Use libc buf size (σ, live) (τ, live')) :
    Tended τ buf size live' := (I.sited.use hu).1.tended I.large

theorem created_attach {d d' : MMData} {i : Int}
    (hr : createAllocator K d buf i σ = .ok ((0, d'), τ)) : 8192 ≤ i ∧ d' = attach d buf := by
  have hends : CreateEnds d buf i σ (0, d') τ := wp_ok any_createAllocator hr
  cases hends with
  | created hlarge => exact ⟨hlarge, rfl⟩

/-- An image created in a mapping, with its objects constructed, is fit for use if the capacity
was accepted, and has no mspace otherwise. -/
theorem created_image {d d' : MMData} {i : Int} {υ : State} (hi : i = size)
    (h63 : size < 2 ^ 63) (B : Buf σ buf size) (h0 : buf ≠ 0)
    (hlow : ∀ m ∈ σ.maps, 4096 ≤ m.1) (hK : Constructs libc K held buf size)
    (hr : createAllocator K d buf i σ = .ok ((0, d'), υ))
    (hroot : K.root (rootObject buf) buf υ = .ok ((), τ)) :
    (¬ ∃ s ∈ pageFound σ (buf + 4096), Accepted (capacityOf size) s) ∧
        NoMspace τ buf (held τ) ∨
      (∃ s ∈ pageFound σ (buf + 4096), Accepted (capacityOf size) s) ∧
        Tended τ buf size (held τ) := by
  have hl : 8192 ≤ size := by
    have hlarge := (created_attach hr).1
    omega
  obtain ⟨σ₁, _, L, ht⟩ := created_laid hi h0 h63 B.align B.word (show 12 ≤ 12 by decide)
    (show _ = 2 ^ 12 from B.page) B.mapped hlow hr
  have hu := hK σ₁ υ τ ht hroot
  cases L.heap with
  | inl N => exact Or.inl ⟨N.1, N.2.uses hu⟩
  | inr I => exact Or.inr ⟨I.1, (I.2.uses hu).1.tended hl⟩

/-! The file below the image. -/

variable {D : Trap → Prop} {d d' : MMFileData} {w w' : World} {r : Reply} {p : Nat}

/-- The process has the same memory mapped, and the same global variables. -/
structure SameProcess (w w' : World) : Prop where
  globals : w'.glob.toGlobals = w.glob.toGlobals
  maps : w'.maps = w.maps

theorem wp_sysOpen_create : wp D (sysOpen r true) (fun res w' => SameProcess w w' ∧
    (res = .ok () → w'.glob.file = some (w.glob.file.getD newFile))) w := by
  unfold sysOpen
  cases r.openFile with
  | error e =>
    refine ⟨⟨rfl, rfl⟩, ?_⟩
    intro h
    contradiction
  | ok u =>
    simp only [wp_bind, wp_globals]
    cases hf : w.glob.file with
    | some f => exact ⟨⟨rfl, rfl⟩, fun _ => hf⟩
    | none => exact ⟨⟨rfl, rfl⟩, fun _ => rfl⟩

theorem wp_sysFtruncate_same : wp D (sysFtruncate r n) (fun res w' => SameProcess w w' ∧
    (res = .ok () → w'.glob.file = w.glob.file.map (File.resize · n))) w := by
  unfold sysFtruncate
  cases r.ftruncate with
  | error e =>
    refine ⟨⟨rfl, rfl⟩, ?_⟩
    intro h
    contradiction
  | ok u =>
    simp only [wp_bind, wp_globals]
    cases hf : w.glob.file with
    | some f => exact ⟨⟨rfl, rfl⟩, fun _ => rfl⟩
    | none => exact ⟨⟨rfl, rfl⟩, fun _ => hf⟩

/-- The file has been given its size and is mapped at `b` for writing, and no more has changed. -/
structure WriteMapped (w : World) (size : Int) (b : MMapBuf) (w' : World) : Prop where
  nonnull : b.buf ≠ 0
  aligned : b.buf % 4096 = 0
  size : b.size = toSizeT size
  globals : w'.glob.toGlobals = w.glob.toGlobals
  maps : w'.maps = (b.buf, b.buf + b.size) :: w.maps
  shared : w'.glob.shared = some (b.buf, b.size)
  byte : ∀ i < b.size, w'.byte (b.buf + i) = ((w.glob.file.getD newFile).resize b.size).byte i

/-- `OpenWrite` has failed, or it has mapped the file. -/
def OpenedFor (w : World) (size : Int) (v : Int × MMapBuf) (w' : World) : Prop :=
  v.1 < 0 ∨ WriteMapped w size v.2 w'

theorem wp_map_opened {b : MMapBuf} {size : Int} {c : Bool} {f : File} (h : SameProcess w w')
    (hf : w'.glob.file = some f) (hbyte : ∀ i < toSizeT size,
      f.byte i = ((w.glob.file.getD newFile).resize (toSizeT size)).byte i) :
    wp D (b.map r (toSizeT size) false c) (OpenedFor w size) w' := by
  unfold MMapBuf.map sysMmap
  have hneg : (-1 : Int) < 0 := by decide
  cases r.mmap with
  | error e => exact Or.inl hneg
  | ok a =>
    refine Or.inr ⟨Nat.pos_iff_ne_zero.mp a.pos, a.aligned, rfl, h.globals,
      congrArg (List.cons _) h.maps, rfl, ?_⟩
    intro i hi
    simp only at hi ⊢
    rw [← hbyte i hi]
    simp only [hf]
    rw [if_pos ⟨by omega, by omega⟩, Nat.add_sub_cancel_left]

theorem wp_openWrite_opened {b : MMapBuf} {path : String} {size : Int} :
    wp D (b.openWrite r path size true) (OpenedFor w size) w := by
  have hneg : (-1 : Int) < 0 := by decide
  unfold MMapBuf.openWrite MMapBuf.init
  rw [wp_bind]
  apply wp_mono wp_sysOpen_create
  intro res w₁ h₁
  cases res with
  | error e => exact Or.inl hneg
  | ok u =>
    have hfile := h₁.2 rfl
    simp only [wp_bind]
    rw [wp_sysFstat, wp_if_neg (by decide)]
    by_cases hl : (w₁.glob.file.map File.length).getD 0 ≠ toSizeT size
    · rw [wp_if_pos hl, wp_bind]
      apply wp_mono wp_sysFtruncate_same
      intro res w₂ h₂
      cases res with
      | error e => exact Or.inl hneg
      | ok u =>
        have hcut := h₂.2 rfl
        rw [hfile] at hcut
        exact wp_map_opened ⟨h₂.1.globals.trans h₁.1.globals, h₂.1.maps.trans h₁.1.maps⟩ hcut
          fun _ _ => rfl
    · rw [wp_if_neg hl]
      apply wp_map_opened h₁.1 hfile
      intro i hi
      rw [hfile] at hl
      have hlen : (w.glob.file.getD newFile).length = toSizeT size := not_not.mp hl
      simp only [File.resize]
      rw [if_pos (by omega)]

/-- The size of a page that creation finds in the mapping is that of the file. -/
theorem WriteMapped.page {b : MMapBuf} {size : Int} (M : WriteMapped w size b w')
    (hpage : w.glob.pageSize = 4096) (hl : 8192 ≤ b.size) :
    pageFound (process w') (b.buf + 4096) = pageIn w.glob.file (toSizeT size) := by
  have hmap : (process w').mapped (paramPageSize (b.buf + 4096)) 8 = true := by
    have hm : (b.buf, b.buf + b.size) ∈ (process w').maps := M.maps ▸ List.mem_cons_self
    exact Machine.mapped_of_mem hm (by simp only [paramPageSize]; omega)
      (by simp only [paramPageSize]; omega)
  have hword : (process w').get 8 (paramPageSize (b.buf + 4096)) =
      loadLE ((w.glob.file.getD newFile).resize (toSizeT size)).byte
        (paramPageSize allocatorMetaSize) 8 := by
    unfold Machine.get
    rw [if_pos hmap, ← M.size]
    apply loadLE_shift
    intro i hi
    have hat : paramPageSize (b.buf + 4096) + i =
        b.buf + (paramPageSize allocatorMetaSize + i) := by
      simp only [paramPageSize, allocatorMetaSize]
      omega
    rw [hat]
    apply M.byte
    simp only [paramPageSize, allocatorMetaSize]
    omega
  have hsize : (process w').glob.pageSize = 4096 :=
    (congrArg Globals.pageSize M.globals).trans hpage
  unfold pageFound pageIn
  rw [hword, hsize]

/-- A run of code of the process is a run in the process. -/
theorem inProcess_ok {α : Type} {x : Code α} {v : α} (hr : inProcess x w = .ok (v, w')) :
    x (process w) = .ok (v, process w') ∧ KeepsFile w w' ∧ w'.glob.file = w.glob.file := by
  unfold inProcess zoom at hr
  unfold process
  cases hx : x ⟨w.byte, w.maps, w.glob.toGlobals⟩ with
  | error e =>
    rw [hx] at hr
    contradiction
  | ok q =>
    rw [hx] at hr
    cases hr
    exact ⟨rfl, ⟨rfl, rfl⟩, rfl⟩

/-- What an `MMFileData` with a new image is, by the size of a page in its file. -/
def WrittenAs (page : Option Nat) (d : MMFileData) (w : World) (live : List Nat) : Prop :=
  (¬ ∃ s ∈ page, Accepted (capacityOf d.databuf_.size) s) ∧ BareImage d w live ∨
    (∃ s ∈ page, Accepted (capacityOf d.databuf_.size) s) ∧ FileImage d w live

/-- `LoadRootWriteObject` makes a new image and constructs its objects. -/
theorem fileImage_created (hK : ∀ buf size, Constructs libc K held buf size)
    (hsize : d.file_size_ < 2 ^ 63) (hclosed : d.databuf_.buf = 0)
    (hpage : w.glob.pageSize = 4096) (hlow : ∀ m ∈ w.maps, 4096 ≤ m.1)
    (hr : d.loadRootWriteObject K r w = .ok ((p, d'), w')) (hp : p ≠ 0)
    (hword : d'.databuf_.buf + d'.databuf_.size ≤ 2 ^ 64) :
    WrittenAs (pageIn w.glob.file (toSizeT d.file_size_)) d' w' (held (process w')) := by
  unfold MMFileData.loadRootWriteObject at hr
  have hopen : ¬ d.databuf_.buf ≠ 0 := fun h => h hclosed
  rw [if_neg hopen] at hr
  by_cases hpos : d.file_size_ ≤ 0
  · rw [if_pos hpos] at hr
    cases hr
    exact absurd rfl hp
  rw [if_neg hpos] at hr
  obtain ⟨⟨rc, b⟩, w₁, hw₁, hr⟩ := bind_ok hr
  have hend : OpenedFor w d.file_size_ (rc, b) w₁ := wp_ok (D := Any) wp_openWrite_opened hw₁
  by_cases hrc : rc < 0
  · simp only [if_pos hrc] at hr
    cases hr
    exact absurd rfl hp
  simp only [if_neg hrc] at hr
  cases hend with
  | inl hneg => exact absurd hneg hrc
  | inr M =>
    have h0 := M.nonnull
    have hal := M.aligned
    have hlen := M.size
    simp only at h0 hal hlen
    have hback : toInt64 (toSizeT d.file_size_) = d.file_size_ := toInt64_toSizeT (by omega) hsize
    unfold MMFileData.createRoot at hr
    obtain ⟨⟨rc₂, m⟩, w₂, hw₂, hr⟩ := bind_ok hr
    by_cases hrc₂ : rc₂ ≠ 0
    · simp only [if_pos hrc₂] at hr
      cases hr
      exact absurd rfl hp
    have hzero : rc₂ = 0 := by omega
    subst hzero
    simp only [if_neg hrc₂] at hr
    obtain ⟨u₁, w₃, hw₃, hr⟩ := bind_ok hr
    obtain ⟨⟨root, d₁⟩, w₄, hw₄, hr⟩ := bind_ok hr
    cases hw₃
    cases hw₄
    obtain ⟨u₂, w₅, hw₅, hr⟩ := bind_ok hr
    obtain ⟨u₃, w₆, hw₆, hr⟩ := bind_ok hr
    cases hw₆
    cases hr
    obtain ⟨hcreate, hk₂, _⟩ := inProcess_ok hw₂
    obtain ⟨hroot, hk₅, _⟩ := inProcess_ok hw₅
    have B : Buf (process w₁) b.buf b.size := by
      refine ⟨by omega, ?_, hword, (b.buf, b.buf + b.size), ?_, Nat.le_refl _, Nat.le_refl _⟩
      · exact (congrArg Globals.pageSize M.globals).trans hpage
      · exact M.maps ▸ List.mem_cons_self
    have hlow₁ : ∀ m ∈ (process w₁).maps, 4096 ≤ m.1 := by
      intro m hm
      have hm' : m ∈ (b.buf, b.buf + b.size) :: w.maps := M.maps ▸ hm
      cases hm' with
      | head => exact Nat.le_of_dvd (by omega) (Nat.dvd_of_mod_eq_zero hal)
      | tail _ hm => exact hlow m hm
    change WrittenAs _ _ _ (held (process w₅))
    have hm : m = attach d.toMMData b.buf := (created_attach hcreate).2
    have hspace : m.allocator_ = b.buf := by
      rw [hm, attach, if_pos h0]
    simp only [hspace] at hroot
    have hlen' : toInt64 b.size = ((b.size : Nat) : Int) := by
      rw [hlen, hback]
      unfold toSizeT
      omega
    have h63 : b.size < 2 ^ 63 := by
      rw [hlen]
      unfold toSizeT
      omega
    have hlarge : 8192 ≤ b.size := by
      have h8 : 8192 ≤ toInt64 b.size := (created_attach hcreate).1
      omega
    have himage := created_image hlen' h63 B h0 hlow₁ (hK _ _) hcreate hroot
    rw [M.page hpage hlarge] at himage
    cases himage with
    | inl N => exact Or.inl ⟨N.1, hspace, N.2⟩
    | inr T =>
      exact Or.inr ⟨T.1, rfl, hspace, hword, (hk₅.shared.trans hk₂.shared).trans M.shared, T.2⟩

theorem written_image (hK : ∀ buf size, Constructs libc K held buf size) {page : Option Nat}
    (W : Written libc K held page d w live) : WrittenAs page d w live := by
  induction W with
  | created hsize hclosed hpage hlow hr hp hword =>
    exact fileImage_created hK hsize hclosed hpage hlow hr hp hword
  | use _ hu ih =>
    cases ih with
    | inl N => exact Or.inl ⟨N.1, N.2.space, N.2.image.use hu⟩
    | inr F =>
      obtain ⟨hacc, F⟩ := F
      exact Or.inr ⟨hacc, F.writable, F.space, F.word, F.shared, F.image.use hu⟩

/-- `used_space` of an image without an mspace faults. -/
theorem BareImage.no_usedSpace (N : BareImage d w live) {τ : State} :
    usedSpace d.allocator_ (process w) ≠ .ok (n, τ) := by
  intro hr
  rw [N.space] at hr
  unfold usedSpace at hr
  obtain ⟨ms, υ, hget, hrest⟩ := bind_ok hr
  cases N.image.getMspace.symm.trans hget
  obtain ⟨_, _, htop, _⟩ := bind_ok hrest
  obtain ⟨_, _, hptr, _⟩ := bind_ok htop
  obtain ⟨_, _, hload, _⟩ := bind_ok hptr
  exact N.image.load (by decide) hload

theorem usedSpace_eq {h : Heap} (I : Tended σ buf size live)
    (H : Held σ (buf + 4096) (capacityOf size) live h) :
    usedSpace buf σ = .ok (h.top + 16 - buf, σ) := by
  have htop := H.ok.core.tiled.le
  obtain ⟨_, hfits⟩ := H.ok.core.topFits
  have hword := H.ok.core.arena.word
  have hused : wp (fun _ => False) (usedSpace buf) (fun v τ => v = h.top + 16 - buf ∧ τ = σ) σ := by
    unfold usedSpace mspaceTopAddress
    simp only [wp_bind]
    apply wp_getMspace I.offset (by omega) (by omega)
    simp only [top]
    rw [wp_loadPtr H.ok.core.scalars.topPtr, wp_pure, wp_pure, subSize_le _ _]
    · exact ⟨rfl, rfl⟩
    · simp only [chunk2mem]
      omega
    · simp only [chunk2mem]
      omega
  obtain ⟨_, _, hr, rfl, rfl⟩ := ok_of_wp hused
  exact hr

theorem held_whole {h : Heap} (hl : 8192 ≤ size)
    (H : Held σ (buf + 4096) (capacityOf size) live h) :
    h.top + 16 - buf ≤ size ∧ Whole σ buf (h.top + 16 - buf) (buf + 4096 + 64) live h := by
  have hcap := (capacityOf_le hl).2.1
  have htop := H.ok.core.tiled.le
  have h8 := H.ok.core.topAlign
  obtain ⟨hpos, hfits⟩ := H.ok.core.topFits
  have hchunk : ∀ c ∈ allChunks (buf + 4096 + 64) h, buf ≤ c.addr ∧ 16 ≤ c.size ∧
      c.addr + c.size ≤ h.top := by
    intro c hc
    cases hc with
    | head =>
      simp only [mem2chunk, mstateSize]
      omega
    | tail _ hc =>
      obtain ⟨hlo, hle, _, hcc⟩ := H.ok.core.tiled.mem hc
      have hlarge := hcc.large
      exact ⟨by omega, by omega, hle⟩
  refine ⟨by omega, ⟨?_, ?_, ?_, ?_, ?_, ?_, ?_⟩⟩
  · simp only [Spans, allocatorMetaSize]
    omega
  · simp only [Spans, namingTable, maxRootStructSize, maxNamingTableSize]
    omega
  · simp only [Spans, allocatorMetaSize, mallocParamsSize]
    omega
  · simp only [Spans, exts]
    omega
  · intro c hc
    have hb := hchunk c hc
    simp only [Spans, fd]
    omega
  · intro c hc
    have hb := hchunk c hc
    simp only [Spans, prevFoot]
    omega
  · intro p hp
    obtain ⟨⟨a, s⟩, he, rfl⟩ := List.mem_map.mp (H.blocks.mem_iff.mp hp)
    obtain ⟨hlo, hle, _, hcc⟩ := H.ok.core.tiled.mem (mem_live.mp he)
    have hlarge := hcc.large
    simp only at hlo hle hlarge
    simp only [Spans, blockOf]
    rw [H.ok.usableSize_eq he]
    omega

/-- What was written to the mapping is in the file. -/
theorem wp_munmap_contents {a n : Nat} {Q : Unit → World → Prop}
    (hs : w.glob.shared = some (a, n)) (h : ∀ w', w'.glob.file = contents w → Q () w') :
    wp D (sysMunmap a n) Q w := by
  unfold sysMunmap
  rw [wp_bind]
  apply h
  simp only [hs, if_true]

theorem wp_truncate_file {f : File} {Q : Unit → World → Prop} (ht : r.truncate = true)
    (hf : w.glob.file = some f) (h : ∀ w', w'.glob.file = some (f.resize n) → Q () w') :
    wp D (sysTruncate r n) Q w := by
  unfold sysTruncate
  rw [wp_if_pos ht]
  simp only [wp_bind, wp_globals, hf]
  exact h _ rfl

/-- `ShrinkToFit` returns, and leaves the first bytes of the image in the file. -/
theorem FileImage.shrink (F : FileImage d w live) (ht : r.truncate = true)
    (hn : usedSpace d.allocator_ (process w) = .ok (n, process w)) (hle : n ≤ d.databuf_.size) :
    ∃ w', d.shrinkToFit r w = .ok ((toInt64 n, d), w') ∧
      ∃ f, w'.glob.file = some f ∧ f.length = n ∧
        ∀ i < n, f.byte i = w.byte (d.databuf_.buf + i) := by
  have hused : wp (fun _ => False) (usedSpace d.allocator_)
      (fun v τ => n = v ∧ process w = τ) (process w) := by
    unfold wp
    rw [hn]
    exact ⟨rfl, rfl⟩
  have hend : wp (fun _ => False) (d.shrinkToFit r) (fun v w' => v = (toInt64 n, d) ∧
      ∃ f, w'.glob.file = some f ∧ f.length = n ∧
        ∀ i < n, f.byte i = w.byte (d.databuf_.buf + i)) w := by
    unfold MMFileData.shrinkToFit
    have hro : ¬ d.readonly_ = true := by
      rw [F.writable]
      decide
    rw [wp_if_neg hro, wp_if_neg F.image.nonnull]
    simp only [wp_bind]
    rw [wp_record]
    apply wp_inProcess (P := fun v τ => n = v ∧ process w = τ)
    · exact hused
    intro v w₁ hv hk _
    obtain ⟨rfl, hsame⟩ := hv
    have hbyte : (process w).byte = (process w₁).byte := congrArg Machine.byte hsame
    have hshared : w₁.glob.shared = some (d.databuf_.buf, d.databuf_.size) :=
      hk.shared.trans F.shared
    apply wp_munmap_contents hshared
    intro w₂ hf₂
    rw [contents, hshared] at hf₂
    apply wp_truncate_file ht hf₂
    intro w₃ hf₃
    refine ⟨rfl, _, hf₃, rfl, ?_⟩
    intro i hi
    have hin : i < d.databuf_.size := by omega
    simp only [File.resize, if_pos hin]
    exact (congrFun hbyte _).symm
  obtain ⟨_, w', hr, rfl, hfile⟩ := ok_of_wp hend
  exact ⟨w', hr, hfile⟩

/-- `LoadRootReadObject` maps a file that is not empty as it is, if `open` and `mmap` succeed. -/
theorem wp_read_file {f : File} {a : MapAddr} (hclosed : d.databuf_.buf = 0)
    (hf : w.glob.file = some f) (hpos : f.length ≠ 0) (hopen : r.openFile = .ok ())
    (hmmap : r.mmap = .ok a) : wp D (d.loadRootReadObject r) (fun v w' =>
      v.1 = rootObject a.addr ∧ v.2.databuf_.buf = a.addr ∧ v.2.databuf_.size = f.length ∧
      (a.addr, a.addr + f.length) ∈ w'.maps ∧
      ∀ i < f.length, w'.byte (a.addr + i) = f.byte i) w := by
  unfold MMFileData.loadRootReadObject MMapBuf.openRead MMapBuf.init
  have hnew : ¬ d.databuf_.buf ≠ 0 := fun h => h hclosed
  rw [wp_if_neg hnew]
  simp only [wp_bind]
  rw [wp_sysOpen_file hf, hopen]
  simp only [wp_bind]
  rw [wp_sysFstat, wp_if_pos trivial]
  simp only [hf, Option.map_some, Option.getD_some]
  rw [wp_if_neg hpos]
  unfold MMapBuf.map sysMmap
  rw [hmmap]
  refine ⟨rfl, rfl, rfl, List.mem_cons_self, ?_⟩
  intro i hi
  simp only [hf]
  rw [if_pos ⟨by omega, by omega⟩, Nat.add_sub_cancel_left]

/-- What `ShrinkToFit` leaves is read back. -/
theorem FileImage.readsBack {f : File} (hf : w'.glob.file = some f) (hlen : f.length = n)
    (hpos : n ≠ 0) (hbyte : ∀ i < n, f.byte i = w.byte (buf + i)) : ReadsBack w w' buf n := by
  subst hlen
  intro reader r w₁ a hclosed hsame hopen hmmap
  have hend : wp (fun _ => False) (reader.loadRootReadObject r) _ w₁ :=
    wp_read_file hclosed (hsame.trans hf) hpos hopen hmmap
  obtain ⟨⟨root, reader'⟩, w₂, hread, hroot, hbuf, hsize, hmaps, hbytes⟩ := ok_of_wp hend
  obtain rfl : root = rootObject a.addr := hroot
  exact ⟨reader', w₂, hread, hbuf, hsize, hmaps, fun i hi => (hbytes i hi).trans (hbyte i hi)⟩

theorem FileImage.shrinksWhole (F : FileImage d w live) : ShrinksWhole d w live := by
  obtain ⟨h, H⟩ := F.image.heap
  obtain ⟨hle, hwhole⟩ := held_whole F.image.large H
  have hused : usedSpace d.allocator_ (process w) =
      .ok (h.top + 16 - d.databuf_.buf, process w) := by
    rw [F.space]
    exact usedSpace_eq F.image H
  have hget : getMspace d.allocator_ (process w) =
      .ok (d.databuf_.buf + 4096 + 64, process w) := by
    rw [F.space]
    exact F.image.getMspace
  have hpos : h.top + 16 - d.databuf_.buf ≠ 0 := by
    have hmeta := hwhole.meta_.2
    simp only [allocatorMetaSize] at hmeta
    omega
  refine ⟨_, _, h, hle, hused, hget, H.sound, hwhole, ?_⟩
  intro r ht
  obtain ⟨w', hr, f, hf, hlen, hbytes⟩ := F.shrink ht hused hle
  exact ⟨w', hr, FileImage.readsBack hf hlen hpos hbytes⟩

/-- An image can be cut where `used_space` says: in every state that a new image can be in, the
first bytes hold all that is in use of it, these are no more than the bytes mapped, and they are
what a load after `ShrinkToFit` maps. This holds exactly if the capacity was accepted for the
size of a page in the file. -/
theorem shrunk_image_whole (hK : ∀ buf size, Constructs libc K held buf size)
    {page : Option Nat} (W : Written libc K held page d w live) :
    ShrinksWhole d w live ↔ ∃ s ∈ page, Accepted (capacityOf d.databuf_.size) s := by
  cases written_image hK W with
  | inl N =>
    obtain ⟨hno, N⟩ := N
    refine iff_of_false ?_ hno
    rintro ⟨n, _, _, _, hused, _⟩
    exact N.no_usedSpace hused
  | inr F => exact iff_of_true F.2.shrinksWhole F.1

/-- The objects in `Meta` are set to zero. -/
theorem memset_use {a k : Nat} (h1 : rootObject buf ≤ a) (h2 : a + k ≤ buf + sizeofMeta)
    (hm : memset a k 0 σ = .ok ((), τ)) : Use libc buf size (σ, []) (τ, []) := by
  apply Use.elsewhere
  unfold memset at hm
  split at hm
  · cases hm
    apply (Frame.refl _ σ).fill
    intro b h3 h4 hres
    have hmeta : sizeofMeta = 1296 := rfl
    rcases hres with hb | hb
    · omega
    · simp only [allocatorMetaSize] at hb
      omega
  · contradiction

theorem zeros_table_use (ht : zeros.table (namingTable buf) buf σ = .ok ((), τ)) :
    Use libc buf size (σ, []) (τ, []) := by
  have hmeta : sizeofMeta = 1296 := rfl
  apply memset_use (a := namingTable buf) (k := maxNamingTableSize) _ _ ht
  · simp only [rootObject, namingTable]
    omega
  · simp only [namingTable, maxRootStructSize, maxNamingTableSize]
    omega

theorem zeros_constructs : Constructs libc zeros (fun _ => []) buf size := by
  intro σ υ τ ht hr
  have hmeta : sizeofMeta = 1296 := rfl
  have hroot : Use libc buf size (υ, []) (τ, []) := by
    apply memset_use (a := rootObject buf) (k := 64) (Nat.le_refl _) _ hr
    simp only [rootObject]
    omega
  exact (Relation.ReflTransGen.single (zeros_table_use ht)).tail hroot

theorem zeros_tableConstructs : TableConstructs libc zeros (fun _ => []) buf size :=
  fun _ _ ht => Relation.ReflTransGen.single (zeros_table_use ht)

/-- A process without a heap of its own. -/
def noLibc : Libc := ⟨fun _ => pure 0, fun _ => pure ()⟩

set_option maxRecDepth 100000 in
/-- A file of four pages, and one block. -/
theorem shrunk_image_whole_block : ∃ d w, Written noLibc zeros (fun _ => []) (some 4096) d w [9192] ∧
    (∃ ms h, Whole (process w) 4096 5144 ms [9192] h) ∧
    ∃ w', d.shrinkToFit granted w = .ok ((5144, d), w') ∧ ReadsBack w w' 4096 5144 := by
  have hrun : result (do
      let r ← (MMFileData.new "image" 16384).loadRootWriteObject zeros granted
      let v ← inProcess (allocate noLibc r.2.allocator_ 1 40)
      let n ← inProcess (usedSpace r.2.allocator_)
      return (r.1, v, n, r.2.databuf_.buf, r.2.databuf_.size, r.2.allocator_)) freshProcess =
        some (4112, some 9192, 5144, 4096, 16384, 4096) := by
    decide +kernel
  have hpage : pageIn freshProcess.glob.file (toSizeT 16384) = some 4096 := by decide +kernel
  obtain ⟨τ, hτ⟩ := result_ok hrun
  obtain ⟨⟨p, d⟩, w, hw, hrest⟩ := bind_ok hτ
  obtain ⟨v, w₁, hw₁, hrest⟩ := bind_ok hrest
  obtain ⟨n, w₂, hw₂, hpure⟩ := bind_ok hrest
  obtain ⟨hvals, _⟩ := Prod.mk.inj (Except.ok.inj hpure)
  simp only [Prod.mk.injEq] at hvals
  obtain ⟨hp, rfl, rfl, hbuf, hsize, hspace⟩ := hvals
  have W : Written noLibc zeros (fun _ => []) (some 4096) d w [] := by
    have hlow : ∀ m ∈ freshProcess.maps, 4096 ≤ m.1 := fun _ hm => absurd hm List.not_mem_nil
    rw [← hpage]
    exact .created (by decide) rfl rfl hlow hw (by omega) (by omega)
  have hgive := (inProcess_ok hw₁).1
  rw [show d.allocator_ = d.databuf_.buf by omega] at hgive
  have W' := W.use (.allocate hgive)
  have hcap : ∃ s ∈ some 4096, Accepted (capacityOf d.databuf_.size) s :=
    ⟨4096, rfl, by rw [hsize]; decide⟩
  obtain ⟨n', ms, h, _, hused, _, _, hwhole, hshrink⟩ :=
    (shrunk_image_whole (fun _ _ => zeros_constructs) W').mpr hcap
  have hsame : usedSpace d.allocator_ (process w₁) = .ok (5144, process w₂) := (inProcess_ok hw₂).1
  obtain rfl : n' = 5144 := (Prod.mk.inj (Except.ok.inj (hused.symm.trans hsame))).1
  obtain ⟨w', hr, hback⟩ := hshrink granted rfl
  rw [hbuf] at hwhole hback
  exact ⟨d, _, W', ⟨ms, h, hwhole⟩, w', hr, hback⟩

/-- A process with a file of four pages that holds, where the parameters of an image are, a size
of a page that no capacity is accepted for. -/
def staleFile : World :=
  ⟨fun _ => .known 0, [], ⟨⟨0, 4096⟩,
    some ⟨16384, storeLE (fun _ => .known 0) 4104 8 (2 ^ 64 - 2000)⟩, none, []⟩⟩

set_option maxRecDepth 100000 in
/-- `LoadRootWriteObject` returns the root, there is no mspace, and `ShrinkToFit` faults. -/
theorem shrunk_without_mspace : ∃ d w,
    (MMFileData.new "image" 16384).loadRootWriteObject zeros granted staleFile =
      .ok ((4112, d), w) ∧
    Written noLibc zeros (fun _ => []) (some (2 ^ 64 - 2000)) d w [] ∧
    result (inProcess (getMspace d.allocator_)) w = some 0 ∧
    result (d.shrinkToFit granted) w = none ∧ ¬ ShrinksWhole d w [] := by
  have hrun : result (do
      let r ← (MMFileData.new "image" 16384).loadRootWriteObject zeros granted
      let ms ← inProcess (getMspace r.2.allocator_)
      return (r.1, ms, r.2.databuf_.buf, r.2.databuf_.size)) staleFile =
        some (4112, 0, 4096, 16384) := by
    decide +kernel
  have hfault : result (do
      let r ← (MMFileData.new "image" 16384).loadRootWriteObject zeros granted
      r.2.shrinkToFit granted) staleFile = none := by
    decide +kernel
  have hpage : pageIn staleFile.glob.file (toSizeT 16384) = some (2 ^ 64 - 2000) := by
    decide +kernel
  obtain ⟨τ, hτ⟩ := result_ok hrun
  obtain ⟨⟨p, d⟩, w, hw, hrest⟩ := bind_ok hτ
  obtain ⟨ms, w₁, hw₁, hpure⟩ := bind_ok hrest
  obtain ⟨hvals, _⟩ := Prod.mk.inj (Except.ok.inj hpure)
  simp only [Prod.mk.injEq] at hvals
  obtain ⟨rfl, rfl, hbuf, hsize⟩ := hvals
  have hget : result (inProcess (getMspace d.allocator_)) w = some 0 := by
    rw [result, hw₁]
  have hnone : result (d.shrinkToFit granted) w = none := by
    rw [result, bind_of_ok hw] at hfault
    exact hfault
  refine ⟨d, w, hw, ?_, hget, hnone, ?_⟩
  · have hlow : ∀ m ∈ staleFile.maps, 4096 ≤ m.1 := fun _ hm => absurd hm List.not_mem_nil
    rw [← hpage]
    exact .created (by decide) rfl rfl hlow hw (by omega) (by omega)
  · rintro ⟨_, _, _, _, _, _, _, _, hshrink⟩
    obtain ⟨w', hr, _⟩ := hshrink granted rfl
    rw [result, hr] at hnone
    contradiction

end

end Mmdata.Proofs
