import Mmdata.Proofs.FileRoot

namespace Mmdata.Proofs
open Lib Malloc Image

/-- The file is opened and made `n` bytes long. -/
def Refits (r : Reply) (f : File) (n : Nat) : Prop :=
  r.openFile = .ok () ∧ f.length ≠ n ∧ r.ftruncate = .ok ()

/-- `LoadRootWriteObject` makes the file another length, and then the file cannot be
mapped or is too small for an allocator. -/
def ResizesInVain (d : MMFileData) (r : Reply) (f : File) : Prop :=
  0 < d.file_size_ ∧ Refits r f (toSizeT d.file_size_) ∧
    ((∃ e, r.mmap = .error e) ∨ d.file_size_ < 8192)

/-- The file holds what `f` holds. -/
def Holds (w : World) (f : File) : Prop := ∃ g, contents w = some g ∧ g.Same f

/-- How the opening of `f` for writing ends. -/
inductive OpenEnds (r : Reply) (f : File) (n : Nat) (w : World) : Int × MMapBuf → World → Prop
  | refused {b : MMapBuf} {rc : Int} {w' : World} : rc < 0 → ¬ Refits r f n → KeepsFile w w' →
      w'.glob.file = some f → OpenEnds r f n w (rc, b) w'
  | unmapped {b : MMapBuf} {rc : Int} {e : String} {w' : World} : rc < 0 → Refits r f n →
      r.mmap = .error e → KeepsFile w w' → w'.glob.file = some (f.resize n) →
      OpenEnds r f n w (rc, b) w'
  | mapped {b : MMapBuf} {rc : Int} {a : MapAddr} {g : File} {w' : World} : 0 ≤ rc →
      r.mmap = .ok a → (g = f ∧ f.length = n) ∨ (g = f.resize n ∧ Refits r f n) →
      b.buf = a.addr → b.size = n → w'.glob.shared = some (a.addr, n) →
      (∀ i < n, w'.byte (a.addr + i) = g.byte i) → OpenEnds r f n w (rc, b) w'

section

variable {D : Trap → Prop} {K : Objects} {d d' : MMFileData} {w w' : World} {r : Reply}
  {f g : File} {n p : Nat}

theorem File.Same.refl (f : File) : f.Same f := ⟨rfl, fun _ _ => rfl⟩

theorem holds_of_file (hs : w.glob.shared = none) (hf : w.glob.file = some f) : Holds w f := by
  refine ⟨f, ?_, File.Same.refl f⟩
  simp only [contents, hs, hf]

theorem not_holds_of_length (hc : contents w = some g) (hl : g.length ≠ f.length) :
    ¬ Holds w f := by
  rintro ⟨g', hg', hsame⟩
  cases hc.symm.trans hg'
  exact hl hsame.1

theorem wp_openWrite_file {b : MMapBuf} {path : String} {size : Int}
    (hf : w.glob.file = some f) :
    wp D (b.openWrite r path size true) (OpenEnds r f (toSizeT size) w) w := by
  unfold MMapBuf.openWrite MMapBuf.init
  rw [wp_bind, wp_sysOpen_file hf]
  cases ho : r.openFile with
  | error e =>
    refine .refused (by decide) ?_ (KeepsFile.refl w) hf
    intro hres
    cases ho.symm.trans hres.1
  | ok u =>
    simp only [wp_bind]
    rw [wp_sysFstat, wp_if_neg (by decide)]
    simp only [hf, Option.map_some, Option.getD_some]
    by_cases hl : f.length ≠ toSizeT size
    · rw [wp_if_pos hl, wp_bind]
      apply wp_sysFtruncate
      · intro e ht
        refine .refused (by decide) ?_ (KeepsFile.refl w) hf
        intro hres
        cases ht.symm.trans hres.2.2
      · intro w' ht hk hf'
        have hres : Refits r f (toSizeT size) := ⟨ho, hl, ht⟩
        rw [hf] at hf'
        unfold MMapBuf.map
        rw [wp_bind]
        apply wp_sysMmap
        · intro e hm
          exact .unmapped (by decide) hres hm hk hf'
        · intro a w'' hm M
          refine .mapped ?_ hm (Or.inr ⟨rfl, hres⟩) rfl rfl M.shared (M.byte _ hf')
          split <;> decide
    · rw [wp_if_neg hl]
      have hlen : f.length = toSizeT size := by omega
      unfold MMapBuf.map
      rw [wp_bind]
      apply wp_sysMmap
      · intro e hm
        exact .refused (by decide) (fun hres => hl hres.2.1) (KeepsFile.refl w) hf
      · intro a w'' hm M
        exact .mapped (by decide) hm (Or.inl ⟨rfl, hlen⟩) rfl rfl M.shared (M.byte f hf)

/-- A call of `LoadRootWriteObject` on a closed object that returns null leaves the file
as it was exactly if the file was not made another length in vain. -/
theorem failed_write_load_iff {o : Option Opener} (L : Loading K d w o) (hclosed : d.databuf_.buf = 0)
    (hf : w.glob.file = some f) (hr : d.loadRootWriteObject K r w = .ok ((p, d'), w')) :
    (p = 0 → Holds w' f) ↔ ¬ ResizesInVain d r f := by
  have hsize : d.file_size_ < 2 ^ 63 := L.inv.range
  have hshared : w.glob.shared = none := (L.inv.closed hclosed).1
  suffices hpost : wp Any (d.loadRootWriteObject K r)
      (fun v w' => (v.1 = 0 → Holds w' f) ↔ ¬ ResizesInVain d r f) w from wp_ok hpost hr
  unfold MMFileData.loadRootWriteObject
  rw [wp_if_neg (by simp only [hclosed]; decide)]
  by_cases hpos : d.file_size_ ≤ 0
  · rw [wp_if_pos hpos]
    apply iff_of_true
    · intro _
      exact holds_of_file hshared hf
    · intro hvain
      have hlt := hvain.1
      omega
  rw [wp_if_neg hpos, wp_bind]
  have hback : toInt64 (toSizeT d.file_size_) = d.file_size_ := toInt64_toSizeT (by omega) hsize
  apply wp_mono (wp_openWrite_file hf)
  intro v w₁ hend
  cases hend with
  | refused hrc hres hk hf' =>
    rw [wp_if_pos hrc]
    apply iff_of_true
    · intro _
      exact holds_of_file (hk.shared.trans hshared) hf'
    · intro hvain
      exact hres hvain.2.1
  | unmapped hrc hres hm hk hf' =>
    rw [wp_if_pos hrc]
    apply iff_of_false
    · intro hsame
      have hc : contents w₁ = some (f.resize (toSizeT d.file_size_)) := by
        simp only [contents, hk.shared.trans hshared, hf']
      exact not_holds_of_length hc (Ne.symm hres.2.1) (hsame rfl)
    · intro hno
      exact hno ⟨by omega, hres, Or.inl ⟨_, hm⟩⟩
  | @mapped b rc a g w₁ hrc hm hg hbuf hlen hsh hbyte =>
    have hdone : ¬ rc < 0 := by omega
    rw [wp_if_neg hdone]
    unfold MMFileData.createRoot
    rw [wp_bind]
    apply wp_inProcess any_createAllocator
    intro v w₂ hend hk _
    simp only [hbuf, hlen, hback] at hend ⊢
    generalize hτ : process w₂ = τ at hend
    cases hend with
    | small hsmall =>
      have hfailed : (-1 : Int) ≠ 0 := by decide
      rw [wp_if_pos hfailed, wp_pure]
      have hc : contents w₂ =
          some ⟨toSizeT d.file_size_, fun i => w₂.byte (a.addr + i)⟩ := by
        simp only [contents, hk.shared, hsh]
      have hbytes : w₂.byte = w₁.byte :=
        congrArg (Machine.byte (γ := Globals)) hτ
      cases hg with
      | inl hg =>
        apply iff_of_true
        · intro _
          refine ⟨_, hc, hg.2.symm, ?_⟩
          intro i hi
          simp only [hbytes]
          rw [hbyte i hi, hg.1]
        · intro hvain
          exact hvain.2.1.2.1 hg.2
      | inr hg =>
        apply iff_of_false
        · intro hsame
          exact not_holds_of_length hc (Ne.symm hg.2.2.1) (hsame rfl)
        · intro hno
          exact hno ⟨by omega, hg.2, Or.inr hsmall⟩
    | created hlarge =>
      have hcreated : ¬ (0 : Int) ≠ 0 := by decide
      rw [wp_if_neg hcreated]
      simp only [wp_bind]
      rw [wp_record, wp_loadRootObject]
      apply any_inProcess
      intro u w₃ _ _
      rw [wp_record, wp_pure]
      apply iff_of_true
      · intro h0
        exact absurd h0 (Nat.succ_ne_zero _)
      · intro hvain
        cases hvain.2.2 with
        | inl he =>
          obtain ⟨e, he⟩ := he
          cases hm.symm.trans he
        | inr hsmall => omega

/-- A process with a file of `n` bytes. -/
def withFile (n : Nat) : World :=
  ⟨fun _ => .known 0, [], ⟨⟨0, 4096⟩, some ⟨n, fun _ => .known 7⟩, none, []⟩⟩

/-- A file of 100 bytes is too small for an allocator and stays as it is. -/
theorem failed_write_load_same : ∃ d w, Holds w ⟨100, fun _ => .known 7⟩ ∧
    (MMFileData.new "image" 100).loadRootWriteObject zeros granted (withFile 100) =
      .ok ((0, d), w) := by
  have hrun : result ((MMFileData.new "image" 100).loadRootWriteObject zeros granted >>=
      fun r => pure r.1) (withFile 100) = some 0 := by
    decide +kernel
  obtain ⟨τ, hτ⟩ := result_ok hrun
  obtain ⟨⟨p, d⟩, w, hw, hpure⟩ := bind_ok hτ
  cases hpure
  have L : Loading zeros (MMFileData.new "image" 100) (withFile 100) none := .new (by decide) rfl
  have hcond : ¬ ResizesInVain (MMFileData.new "image" 100) granted ⟨100, fun _ => .known 7⟩ :=
    fun hvain => hvain.2.1.2.1 rfl
  exact ⟨d, _, (failed_write_load_iff L rfl rfl hw).mpr hcond rfl, hw⟩

/-- A file of 5 bytes is cut to 2, which is too small for an allocator. -/
theorem failed_write_load_cuts : ∃ d w, ¬ Holds w ⟨5, fun _ => .known 7⟩ ∧
    (MMFileData.new "image" 2).loadRootWriteObject zeros granted (withFile 5) =
      .ok ((0, d), w) := by
  have hrun : result (do
      let r ← (MMFileData.new "image" 2).loadRootWriteObject zeros granted
      return (r.1, (← globals).shared)) (withFile 5) = some (0, some (4096, 2)) := by
    decide +kernel
  obtain ⟨τ, hτ⟩ := result_ok hrun
  obtain ⟨⟨p, d⟩, w, hw, hrest⟩ := bind_ok hτ
  obtain ⟨g, w', hg, hpure⟩ := bind_ok hrest
  cases hg
  obtain ⟨hvals, _⟩ := Prod.mk.inj (Except.ok.inj hpure)
  obtain ⟨rfl, hshared⟩ := Prod.mk.inj hvals
  refine ⟨d, w, ?_, hw⟩
  have hc : contents w = some ⟨2, fun i => w.byte (4096 + i)⟩ := by
    simp only [contents, hshared]
  have hlen : 2 ≠ 5 := by decide
  exact not_holds_of_length hc hlen

end

end Mmdata.Proofs
