import Mmdata.Image.FileData
import Mmdata.Lib.Words

namespace Mmdata.Proofs
open Lib Malloc Image

/-- Every trap is left open. -/
def Any (_ : Trap) : Prop := True

/-- The two worlds have the file mapped for writing in the same place, and the same record. -/
structure KeepsFile (w w' : World) : Prop where
  shared : w'.glob.shared = w.glob.shared
  log : w'.glob.log = w.glob.log

section

variable {D : Trap → Prop} {w w' w'' : World} {r : Reply} {n : Nat} {α : Type}

theorem KeepsFile.refl (w : World) : KeepsFile w w := ⟨rfl, rfl⟩

theorem KeepsFile.trans (h : KeepsFile w w') (h' : KeepsFile w' w'') : KeepsFile w w'' :=
  ⟨h'.shared.trans h.shared, h'.log.trans h.log⟩

theorem any_of_ok {γ : Type} {σ : Machine γ} {x : Prog γ α} {Q : α → Machine γ → Prop}
    (h : ∀ v τ, x σ = .ok (v, τ) → Q v τ) : wp Any x Q σ := by
  unfold wp
  cases hx : x σ with
  | ok p => exact h p.1 p.2 hx
  | error e => trivial

/-- The process without the file and the record. -/
def process (w : World) : State := ⟨w.byte, w.maps, w.glob.toGlobals⟩

/-- Code of the process keeps the file and the record. -/
theorem wp_inProcess {x : Code α} {P : α → State → Prop} {Q : α → World → Prop}
    (h : wp D x P (process w))
    (hQ : ∀ v w', P v (process w') → KeepsFile w w' → w'.glob.file = w.glob.file → Q v w') :
    wp D (inProcess x) Q w := by
  unfold inProcess
  rw [wp_zoom]
  apply wp_mono h
  intro v τ hP
  exact hQ v _ hP ⟨rfl, rfl⟩ rfl

theorem any_inProcess {x : Code α} {Q : α → World → Prop}
    (h : ∀ v w', KeepsFile w w' → w'.glob.file = w.glob.file → Q v w') : wp Any (inProcess x) Q w :=
  wp_inProcess (any_of_ok fun _ _ _ => trivial) fun v w' _ hk hf => h v w' hk hf

theorem wp_record {e : Event} {Q : Unit → World → Prop} :
    wp D (record e) Q w ↔ Q () { w with glob := { w.glob with log := e :: w.glob.log } } :=
  Iff.rfl

theorem wp_sysOpen {c : Bool} {Q : Except String Unit → World → Prop}
    (herr : ∀ e, Q (.error e) w) (hok : ∀ w', KeepsFile w w' → Q (.ok ()) w') :
    wp D (sysOpen r c) Q w := by
  unfold sysOpen
  cases r.openFile with
  | error e => exact herr e
  | ok u =>
    simp only [wp_bind, wp_globals]
    cases w.glob.file with
    | some f => exact hok w (KeepsFile.refl w)
    | none =>
      cases c with
      | true => exact hok _ ⟨rfl, rfl⟩
      | false => exact herr _

/-- A file that exists is opened as it is. -/
theorem wp_sysOpen_file {c : Bool} {f : File} {Q : Except String Unit → World → Prop}
    (hf : w.glob.file = some f) : wp D (sysOpen r c) Q w ↔ Q r.openFile w := by
  unfold sysOpen
  cases hr : r.openFile with
  | error e => exact Iff.rfl
  | ok u =>
    simp only [wp_bind, wp_globals, hf]
    exact Iff.rfl

theorem wp_sysFstat {Q : Nat → World → Prop} :
    wp D sysFstat Q w ↔ Q ((w.glob.file.map File.length).getD 0) w := by
  unfold sysFstat
  simp only [wp_bind, wp_globals]
  cases w.glob.file with
  | some f => exact Iff.rfl
  | none => exact Iff.rfl

theorem wp_sysFtruncate {Q : Except String Unit → World → Prop}
    (herr : ∀ e, r.ftruncate = .error e → Q (.error e) w)
    (hok : ∀ w', r.ftruncate = .ok () → KeepsFile w w' →
      w'.glob.file = w.glob.file.map (File.resize · n) → Q (.ok ()) w') :
    wp D (sysFtruncate r n) Q w := by
  unfold sysFtruncate
  cases hr : r.ftruncate with
  | error e => exact herr e hr
  | ok u =>
    simp only [wp_bind, wp_globals]
    cases hf : w.glob.file with
    | some f => exact hok _ hr ⟨rfl, rfl⟩ (by rw [hf]; rfl)
    | none => exact hok w hr (KeepsFile.refl w) (by rw [hf]; rfl)

/-- What `mmap` leaves. -/
structure Mapped (w w' : World) (a n : Nat) (writable : Bool) : Prop where
  shared : w'.glob.shared = if writable then some (a, n) else w.glob.shared
  log : w'.glob.log = .mmap a n writable :: w.glob.log
  file : w'.glob.file = w.glob.file
  byte : ∀ f, w.glob.file = some f → ∀ i < n, w'.byte (a + i) = f.byte i

theorem wp_sysMmap {writable : Bool} {Q : Except String Nat → World → Prop}
    (herr : ∀ e, r.mmap = .error e → Q (.error e) w)
    (hok : ∀ a w', r.mmap = .ok a → Mapped w w' a.addr n writable → Q (.ok a.addr) w') :
    wp D (sysMmap r n writable) Q w := by
  unfold sysMmap
  cases hr : r.mmap with
  | error e => exact herr e hr
  | ok a =>
    simp only [wp_bind]
    refine hok a _ hr ⟨rfl, rfl, rfl, ?_⟩
    intro f hf i hi
    simp only [hf]
    rw [if_pos ⟨by omega, by omega⟩, Nat.add_sub_cancel_left]

theorem wp_sysTruncate {Q : Unit → World → Prop} (h : ∀ w', KeepsFile w w' → Q () w') :
    wp D (sysTruncate r n) Q w := by
  unfold sysTruncate
  cases hr : r.truncate with
  | false => exact h w (KeepsFile.refl w)
  | true =>
    rw [wp_if_pos rfl]
    simp only [wp_bind, wp_globals]
    cases w.glob.file with
    | some f => exact h _ ⟨rfl, rfl⟩
    | none => exact h w (KeepsFile.refl w)

/-- How `MMapBuf::Init` ends: with an error and the mapping as it was, or with a new mapping. -/
inductive InitEnds (b : MMapBuf) (w : World) (readonly : Bool) (fits : Nat → Prop) :
    Int × MMapBuf → World → Prop
  | failed {msg : String} {w' : World} : KeepsFile w w' →
      InitEnds b w readonly fits (-1, { b with err_msg := msg }) w'
  | mapped {rc : Int} {a : MapAddr} {n : Nat} {w' : World} : 0 ≤ rc → n ≠ 0 → fits n →
      w'.glob.shared = (if readonly then w.glob.shared else some (a.addr, n)) →
      w'.glob.log = .mmap a.addr n (!readonly) :: w.glob.log →
      InitEnds b w readonly fits (rc, { b with buf := a.addr, size := n }) w'

theorem wp_map {b : MMapBuf} {readonly createFile : Bool} {fits : Nat → Prop}
    (h : KeepsFile w w') (hn : n ≠ 0) (hfits : fits n) :
    wp D (b.map r n readonly createFile) (InitEnds b w readonly fits) w' := by
  unfold MMapBuf.map
  rw [wp_bind]
  apply wp_sysMmap
  · intro e _
    exact .failed h
  · intro a w'' _ M
    have hrc : (0 : Int) ≤ if createFile then 1 else 0 := by
      split <;> decide
    refine .mapped hrc hn hfits ?_ ?_
    · rw [M.shared, h.shared]
      cases readonly with
      | true => rfl
      | false => rfl
    · rw [M.log, h.log]

/-- `Init` for reading maps the whole of the file, and none that is empty. -/
theorem wp_openRead {b : MMapBuf} {path : String} :
    wp D (b.openRead r path) (InitEnds b w true fun _ => True) w := by
  unfold MMapBuf.openRead MMapBuf.init
  rw [wp_bind]
  apply wp_sysOpen
  · intro e
    exact .failed (KeepsFile.refl w)
  · intro w' h
    simp only [wp_bind]
    rw [wp_sysFstat, wp_if_pos trivial]
    by_cases h0 : (w'.glob.file.map File.length).getD 0 = 0
    · rw [wp_if_pos h0]
      exact .failed h
    · rw [wp_if_neg h0]
      exact wp_map h h0 trivial

/-- `Init` for writing maps as many bytes as it is asked for. -/
theorem wp_openWrite {b : MMapBuf} {path : String} {size : Int} (h0 : toSizeT size ≠ 0) :
    wp D (b.openWrite r path size true) (InitEnds b w false (· = toSizeT size)) w := by
  unfold MMapBuf.openWrite MMapBuf.init
  rw [wp_bind]
  apply wp_sysOpen
  · intro e
    exact .failed (KeepsFile.refl w)
  · intro w' h
    simp only [wp_bind]
    rw [wp_sysFstat, wp_if_neg (by decide)]
    by_cases hl : (w'.glob.file.map File.length).getD 0 ≠ toSizeT size
    · rw [wp_if_pos hl]
      rw [wp_bind]
      apply wp_sysFtruncate
      · intro e _
        exact .failed h
      · intro w'' _ h' _
        exact wp_map (h.trans h') h0 rfl
    · rw [wp_if_neg hl]
      exact wp_map h h0 rfl

theorem any_bind {γ β : Type} {σ : Machine γ} {x : Prog γ β} {f : β → Prog γ α}
    {Q : α → Machine γ → Prop} (h : ∀ v τ, wp Any (f v) Q τ) : wp Any (x >>= f) Q σ := by
  rw [wp_bind]
  exact any_of_ok fun v τ _ => h v τ

/-- How `CreateAllocator` ends. -/
inductive CreateEnds (d : MMData) (buf : Nat) (memsize : Int) (σ : State) :
    Int × MMData → State → Prop
  | small {msg : String} : memsize < 8192 →
      CreateEnds d buf memsize σ (-1, { d with err := msg }) σ
  | created {τ : State} : 8192 ≤ memsize →
      CreateEnds d buf memsize σ (0, if buf ≠ 0 then { d with allocator_ := buf } else d) τ

theorem any_createAllocator {K : Objects} {d : MMData} {buf : Nat} {memsize : Int} {σ : State} :
    wp Any (createAllocator K d buf memsize) (CreateEnds d buf memsize σ) σ := by
  unfold createAllocator
  by_cases hsmall : memsize < allocatorMetaSize * 2
  · rw [wp_if_pos hsmall]
    exact .small hsmall
  · rw [wp_if_neg hsmall]
    have hlarge : 8192 ≤ memsize := by
      simp only [allocatorMetaSize] at hsmall
      omega
    repeat' (apply any_bind; intro v τ)
    exact .created hlarge

/-- An `int64_t` that is not negative goes through `uint64_t` and back unchanged. -/
theorem toInt64_toSizeT {i : Int} (h0 : 0 ≤ i) (h : i < 2 ^ 63) : toInt64 (toSizeT i) = i := by
  have hmod : i % 2 ^ 64 = i := Int.emod_eq_of_lt h0 (by omega)
  have hcast : ((toSizeT i : Nat) : Int) = i := by
    unfold toSizeT
    rw [hmod]
    exact Int.toNat_of_nonneg h0
  have hlt : toSizeT i < 2 ^ 63 := by omega
  unfold toInt64
  rw [Nat.mod_eq_of_lt (by omega), if_pos hlt]
  have hself : ((toSizeT i : Nat) : Int) % 2 ^ 64 = (toSizeT i : Nat) := by
    apply Int.emod_eq_of_lt <;> omega
  rw [hself, hcast]

/-- An event is added to the record. -/
def logged (e : Event) (w : World) : World :=
  { w with glob := { w.glob with log := e :: w.glob.log } }

/-- How `LoadRootWriteObject` ends. -/
inductive WriteEnds (T : RootType) (d : MMFileData) (w : World) :
    Option Nat × MMFileData → World → Prop
  | again : d.databuf_.buf ≠ 0 → WriteEnds T d w
      (some (rootObject d.databuf_.buf), { d with meta_ := d.databuf_.buf })
      (logged (.pointer (rootObject d.databuf_.buf)) w)
  | refused {msg err : String} {w' : World} : d.databuf_.buf = 0 → KeepsFile w w' →
      WriteEnds T d w (some 0,
        { d with databuf_ := { d.databuf_ with err_msg := msg }, err := err }) w'
  | small {msg : String} {a : MapAddr} {w' : World} : d.databuf_.buf = 0 →
      d.file_size_ < 8192 → toSizeT d.file_size_ ≠ 0 →
      w'.glob.shared = some (a.addr, toSizeT d.file_size_) →
      w'.glob.log = .mmap a.addr (toSizeT d.file_size_) true :: w.glob.log →
      WriteEnds T d w (some 0, { d with
        databuf_ := { d.databuf_ with buf := a.addr, size := toSizeT d.file_size_ },
        readonly_ := false, err := msg }) w'
  | threw {a : MapAddr} {w' : World} : d.databuf_.buf = 0 →
      8192 ≤ d.file_size_ → toSizeT d.file_size_ ≠ 0 →
      w'.glob.shared = some (a.addr, toSizeT d.file_size_) →
      w'.glob.log = .pointer (rootObject a.addr) :: .created a.addr ::
        .mmap a.addr (toSizeT d.file_size_) true :: w.glob.log →
      WriteEnds T d w (none, { d with
        databuf_ := { d.databuf_ with buf := a.addr, size := toSizeT d.file_size_ },
        readonly_ := false, allocator_ := a.addr, meta_ := a.addr }) w'
  | built {a : MapAddr} {w' : World} : d.databuf_.buf = 0 →
      8192 ≤ d.file_size_ → toSizeT d.file_size_ ≠ 0 →
      w'.glob.shared = some (a.addr, toSizeT d.file_size_) →
      w'.glob.log = .built T.type (rootObject a.addr) :: .pointer (rootObject a.addr) ::
        .created a.addr :: .mmap a.addr (toSizeT d.file_size_) true :: w.glob.log →
      WriteEnds T d w (some (rootObject a.addr), { d with
        databuf_ := { d.databuf_ with buf := a.addr, size := toSizeT d.file_size_ },
        readonly_ := false, allocator_ := a.addr, meta_ := a.addr }) w'

theorem wp_loadRootObject {d : MMFileData} {buf : Nat} {Q : Nat × MMFileData → World → Prop} :
    wp D (d.loadRootObject buf) Q w ↔
      Q (rootObject buf, { d with meta_ := buf }) (logged (.pointer (rootObject buf)) w) := Iff.rfl

theorem any_loadRootWriteObjectOf {K : Objects} {T : RootType} {d : MMFileData}
    (hsize : d.file_size_ < 2 ^ 63) : wp Any (d.loadRootWriteObjectOf K T r) (WriteEnds T d w) w := by
  unfold MMFileData.loadRootWriteObjectOf
  by_cases hbuf : d.databuf_.buf ≠ 0
  · rw [wp_if_pos hbuf, wp_bind, wp_loadRootObject]
    exact .again hbuf
  rw [wp_if_neg hbuf]
  have hclosed : d.databuf_.buf = 0 := by omega
  by_cases hpos : d.file_size_ ≤ 0
  · rw [wp_if_pos hpos]
    exact @WriteEnds.refused T d w d.databuf_.err_msg _ w hclosed (KeepsFile.refl w)
  rw [wp_if_neg hpos, wp_bind]
  have hback : toInt64 (toSizeT d.file_size_) = d.file_size_ :=
    toInt64_toSizeT (by omega) hsize
  have h0 : toSizeT d.file_size_ ≠ 0 := by
    intro h0
    rw [h0] at hback
    have : d.file_size_ = 0 := hback.symm
    omega
  apply wp_mono (wp_openWrite h0)
  intro v w₁ hend
  cases hend with
  | failed hk =>
    rw [wp_if_pos (by decide)]
    exact .refused hclosed hk
  | @mapped rc a n w₁ hrc hn hfits hshared hlog =>
    subst hfits
    have hdone : ¬ rc < 0 := by omega
    rw [wp_if_neg hdone]
    unfold MMFileData.createRootOf
    rw [wp_bind]
    apply wp_inProcess any_createAllocator
    intro v w₂ hend hk hf
    simp only [hback] at hend
    generalize process w₂ = τ at hend
    cases hend with
    | small hsmall =>
      rw [wp_if_pos (by decide)]
      exact .small hclosed hsmall h0 (hk.shared.trans hshared) (hk.log.trans hlog)
    | created hlarge =>
      rw [wp_if_neg (by decide)]
      have haddr : a.addr ≠ 0 := Nat.pos_iff_ne_zero.mp a.pos
      simp only [haddr, ne_eq, not_false_eq_true, if_true, wp_bind]
      rw [wp_record, wp_loadRootObject]
      apply any_inProcess
      intro returns w₃ hk' _
      have hshared₃ : w₃.glob.shared = some (a.addr, toSizeT d.file_size_) :=
        hk'.shared.trans (hk.shared.trans hshared)
      cases returns with
      | true =>
        rw [wp_if_pos rfl, wp_bind, wp_record, wp_pure]
        refine .built hclosed hlarge h0 hshared₃ ?_
        simp only [hk'.log, logged, hk.log, hlog]
        rfl
      | false =>
        rw [wp_if_neg (by decide), wp_pure]
        refine .threw hclosed hlarge h0 hshared₃ ?_
        simp only [hk'.log, logged, hk.log, hlog]
        rfl

/-- A constructor that returns is one that may throw and does not. -/
theorem loadRootWriteObjectOf_returning {K : Objects} {d d' : MMFileData} {p : Nat} {w' : World}
    (hr : d.loadRootWriteObject K r w = .ok ((p, d'), w')) :
    d.loadRootWriteObjectOf K K.rootType r w = .ok ((some p, d'), w') := by
  unfold MMFileData.loadRootWriteObject at hr
  unfold MMFileData.loadRootWriteObjectOf
  by_cases hbuf : d.databuf_.buf ≠ 0
  · rw [if_pos hbuf] at hr ⊢
    cases hr
    rfl
  rw [if_neg hbuf] at hr ⊢
  by_cases hpos : d.file_size_ ≤ 0
  · rw [if_pos hpos] at hr ⊢
    cases hr
    rfl
  rw [if_neg hpos] at hr ⊢
  obtain ⟨⟨rc, b⟩, w₁, hopen, hr⟩ := bind_ok hr
  rw [bind_of_ok hopen]
  by_cases hrc : rc < 0
  · simp only [if_pos hrc] at hr ⊢
    cases hr
    rfl
  simp only [if_neg hrc] at hr ⊢
  unfold MMFileData.createRoot at hr
  unfold MMFileData.createRootOf
  obtain ⟨⟨c, m⟩, w₂, hcreate, hr⟩ := bind_ok hr
  rw [bind_of_ok hcreate]
  by_cases hc : c ≠ 0
  · simp only [if_pos hc] at hr ⊢
    cases hr
    rfl
  simp only [if_neg hc] at hr ⊢
  obtain ⟨_, w₃, hrec, hr⟩ := bind_ok hr
  obtain ⟨⟨root, e⟩, w₄, hroot, hr⟩ := bind_ok hr
  obtain ⟨_, w₅, hbuilt, hr⟩ := bind_ok hr
  obtain ⟨_, w₆, hlog, hr⟩ := bind_ok hr
  cases hr
  have htrue : inProcess (K.rootType.construct root e.allocator_) w₄ = .ok (true, w₅) := by
    unfold inProcess zoom at hbuilt ⊢
    simp only [Objects.rootType]
    cases hx : K.root root e.allocator_ ⟨w₄.byte, w₄.maps, w₄.glob.toGlobals⟩ with
    | error e =>
      rw [hx] at hbuilt
      contradiction
    | ok v =>
      rw [bind_of_ok hx]
      rw [hx] at hbuilt
      cases hbuilt
      rfl
  rw [bind_of_ok hrec, bind_of_ok hroot, bind_of_ok htrue, if_pos rfl]
  exact bind_of_ok hlog

/-- How `LoadRootReadObject` ends. -/
inductive ReadEnds (d : MMFileData) (w : World) : Nat × MMFileData → World → Prop
  | again : d.databuf_.buf ≠ 0 → ReadEnds d w
      (rootObject d.databuf_.buf, { d with meta_ := d.databuf_.buf })
      (logged (.pointer (rootObject d.databuf_.buf)) w)
  | refused {msg err : String} {w' : World} : d.databuf_.buf = 0 → KeepsFile w w' →
      ReadEnds d w (0, { d with databuf_ := { d.databuf_ with err_msg := msg }, err := err }) w'
  | opened {a : MapAddr} {n : Nat} {w' : World} : d.databuf_.buf = 0 → n ≠ 0 →
      w'.glob.shared = w.glob.shared →
      w'.glob.log = .pointer (rootObject a.addr) :: .mmap a.addr n false :: w.glob.log →
      ReadEnds d w (rootObject a.addr, { d with
        databuf_ := { d.databuf_ with buf := a.addr, size := n },
        readonly_ := true, meta_ := a.addr }) w'

theorem wp_loadRootReadObject {d : MMFileData} :
    wp D (d.loadRootReadObject r) (ReadEnds d w) w := by
  unfold MMFileData.loadRootReadObject
  by_cases hbuf : d.databuf_.buf ≠ 0
  · rw [wp_if_pos hbuf, wp_loadRootObject]
    exact .again hbuf
  rw [wp_if_neg hbuf, wp_bind]
  have hclosed : d.databuf_.buf = 0 := by omega
  apply wp_mono wp_openRead
  intro v w₁ hend
  cases hend with
  | failed hk =>
    rw [wp_if_pos (by decide)]
    exact .refused hclosed hk
  | @mapped rc a n w₁ hrc hn _ hshared hlog =>
    have hdone : ¬ rc < 0 := by omega
    rw [wp_if_neg hdone, wp_loadRootObject]
    refine .opened hclosed hn hshared ?_
    simp only [logged, hlog]
    rfl

end

end Mmdata.Proofs
