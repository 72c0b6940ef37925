import Mmdata.Proofs.FileCalls

namespace Mmdata.Proofs
open Lib Malloc Image

/-- How the file of an `MMFileData` was opened: for reading, or by `LoadRootWriteObject<T>`,
and whether that call returned. -/
inductive Opener
  | reading
  | writing (type : Nat) (returned : Bool)

/-- How the file is open after the call `c`. -/
def opened (o : Option Opener) (d' : MMFileData) (c : Opener) : Option Opener :=
  match o with
  | some o => some o
  | none => if d'.databuf_.buf = 0 then none else some c

/-- The states of an `MMFileData` on which the two loads were called, in any order, and how
its file was opened. Constructors may throw. Between the calls the process does anything
else. -/
inductive Loading (K : Objects) : MMFileData → World → Option Opener → Prop
  | new {f : String} {size : Int} {w : World} : size < 2 ^ 63 → w.glob.shared = none →
      Loading K (MMFileData.new f size) w none
  | write {d d' : MMFileData} {w w' : World} {o : Option Opener} {r : Reply} {T : RootType}
      {v : Option Nat} : Loading K d w o → d.loadRootWriteObjectOf K T r w = .ok ((v, d'), w') →
      Loading K d' w' (opened o d' (.writing T.type v.isSome))
  | read {d d' : MMFileData} {w w' : World} {o : Option Opener} {r : Reply} {p : Nat} :
      Loading K d w o → d.loadRootReadObject r w = .ok ((p, d'), w') →
      Loading K d' w' (opened o d' .reading)
  | elsewhere {d : MMFileData} {w w' : World} {o : Option Opener} : Loading K d w o →
      KeepsFile w w' → Loading K d w' o

/-- What is recorded since a mapping was made. -/
def sinceMapped : List Event → List Event
  | [] => []
  | .mmap _ _ _ :: _ => []
  | e :: log => e :: sinceMapped log

/-- The file is mapped for writing, `CreateAllocator` has succeeded on the mapping, which
`GetAllocator` refers to, and a `T` has been constructed at `p` in it. -/
structure UsableRoot (T : RootType) (d : MMFileData) (w : World) (p : Nat) : Prop where
  shared : w.glob.shared = some (d.databuf_.buf, d.databuf_.size)
  created : .created d.databuf_.buf ∈ sinceMapped w.glob.log
  attached : d.allocator_ = d.databuf_.buf
  built : .built T.type p ∈ sinceMapped w.glob.log

/-- What an object that has mapped its file says of the world, by how it did so. -/
def OpenedBy (d : MMFileData) (w : World) : Opener → Prop
  | .reading => w.glob.shared = none
  | .writing type returned =>
    (d.file_size_ < 8192 → d.allocator_ = 0) ∧
      (∀ t p, .built t p ∈ sinceMapped w.glob.log → t = type ∧ returned = true) ∧
      (8192 ≤ d.file_size_ → w.glob.shared = some (d.databuf_.buf, d.databuf_.size) ∧
        .created d.databuf_.buf ∈ sinceMapped w.glob.log ∧ d.allocator_ = d.databuf_.buf ∧
        (returned = true → .built type (rootObject d.databuf_.buf) ∈ sinceMapped w.glob.log))

/-- What the members of an `MMFileData` say of the world. -/
structure LoadInv (d : MMFileData) (w : World) (o : Option Opener) : Prop where
  range : d.file_size_ < 2 ^ 63
  closed : d.databuf_.buf = 0 → w.glob.shared = none ∧ d.allocator_ = 0
  isOpen : o = none ↔ d.databuf_.buf = 0
  opener : ∀ c, o = some c → OpenedBy d w c

section

variable {K : Objects} {T : RootType} {d d' : MMFileData} {w w' : World} {r : Reply} {p : Nat}
  {o : Option Opener} {c : Opener} {v : Option Nat}

theorem OpenedBy.kept (h : OpenedBy d w c) (hk : KeepsFile w w') : OpenedBy d w' c := by
  cases c with
  | reading => exact hk.shared.trans h
  | writing type returned =>
    unfold OpenedBy at h ⊢
    rwa [hk.shared, hk.log]

theorem LoadInv.new {f : String} {size : Int} (hsize : size < 2 ^ 63)
    (hshared : w.glob.shared = none) : LoadInv (MMFileData.new f size) w none :=
  ⟨hsize, fun _ => ⟨hshared, rfl⟩, iff_of_true rfl rfl, fun _ h => by contradiction⟩

theorem LoadInv.kept (I : LoadInv d w o) (hk : KeepsFile w w') : LoadInv d w' o :=
  ⟨I.range, fun h => ⟨hk.shared.trans (I.closed h).1, (I.closed h).2⟩, I.isOpen,
    fun c h => (I.opener c h).kept hk⟩

/-- A call that maps nothing. -/
theorem LoadInv.same (I : LoadInv d w o) (hbuf : d'.databuf_.buf = d.databuf_.buf)
    (I' : LoadInv d' w' o) : LoadInv d' w' (opened o d' c) := by
  have hopen : opened o d' c = o := by
    cases o with
    | some o => rfl
    | none =>
      unfold opened
      rw [hbuf, if_pos (I.isOpen.mp rfl)]
  rwa [hopen]

/-- A pointer is handed out. -/
theorem OpenedBy.pointer {q m : Nat} (h : OpenedBy d w c) :
    OpenedBy { d with meta_ := m } (logged (.pointer q) w) c := by
  cases c with
  | reading => exact h
  | writing type returned =>
    obtain ⟨hsmall, hbuilt, hlarge⟩ := h
    refine ⟨hsmall, fun t p hp => ?_, fun h8 => ?_⟩
    · cases hp with
      | tail _ hp => exact hbuilt t p hp
    · obtain ⟨hshared, hcreated, hatt, hroot⟩ := hlarge h8
      exact ⟨hshared, List.mem_cons_of_mem _ hcreated, hatt,
        fun hr => List.mem_cons_of_mem _ (hroot hr)⟩

/-- A root that is handed out once more. -/
theorem LoadInv.again (I : LoadInv d w o) {q m : Nat} :
    LoadInv { d with meta_ := m } (logged (.pointer q) w) o :=
  ⟨I.range, I.closed, I.isOpen, fun c h => (I.opener c h).pointer⟩

/-- A load that failed leaves the object closed. -/
theorem LoadInv.refused (I : LoadInv d w o) (hk : KeepsFile w w') (hbuf : d.databuf_.buf = 0)
    {msg err : String} :
    LoadInv { d with databuf_ := { d.databuf_ with err_msg := msg }, err := err } w' o := by
  have hnone : o = none := I.isOpen.mpr hbuf
  refine ⟨I.range, fun h => ⟨hk.shared.trans (I.closed h).1, (I.closed h).2⟩, I.isOpen, ?_⟩
  rintro c rfl
  contradiction

/-- A load that has mapped the file. -/
theorem LoadInv.mapped (I : LoadInv d w o) (hbuf : d.databuf_.buf = 0)
    (hsize : d'.file_size_ = d.file_size_) (hbuf' : d'.databuf_.buf ≠ 0) (h : OpenedBy d' w' c) :
    LoadInv d' w' (opened o d' c) := by
  obtain rfl := I.isOpen.mpr hbuf
  have hopen : opened none d' c = some c := if_neg hbuf'
  rw [hopen]
  refine ⟨hsize ▸ I.range, fun h0 => absurd h0 hbuf', ?_, ?_⟩
  · exact iff_of_false (Option.some_ne_none c) hbuf'
  · intro c' hc'
    cases hc'
    exact h

theorem LoadInv.write (I : LoadInv d w o) (h : WriteEnds T d w (v, d') w') :
    LoadInv d' w' (opened o d' (.writing T.type v.isSome)) := by
  cases h with
  | again _ =>
    exact I.same rfl I.again
  | refused hbuf hk =>
    exact I.same rfl (I.refused hk hbuf)
  | @small msg a _ hbuf hsmall _ _ hlog =>
    refine I.mapped hbuf rfl (Nat.pos_iff_ne_zero.mp a.pos) ?_
    refine ⟨fun _ => (I.closed hbuf).2, ?_, fun hlarge => ?_⟩
    · rw [hlog]
      simp [sinceMapped]
    · exact absurd hlarge (Int.not_le.mpr hsmall)
  | @threw a _ hbuf hlarge _ hshared hlog =>
    refine I.mapped hbuf rfl (Nat.pos_iff_ne_zero.mp a.pos) ?_
    refine ⟨fun hsmall => absurd hlarge (Int.not_le.mpr hsmall), ?_, fun _ => ⟨hshared, ?_, rfl, ?_⟩⟩
    · rw [hlog]
      simp [sinceMapped]
    · rw [hlog]
      simp [sinceMapped]
    · intro hret
      contradiction
  | @built a _ hbuf hlarge _ hshared hlog =>
    refine I.mapped hbuf rfl (Nat.pos_iff_ne_zero.mp a.pos) ?_
    refine ⟨fun hsmall => absurd hlarge (Int.not_le.mpr hsmall), ?_, fun _ => ⟨hshared, ?_, rfl, ?_⟩⟩
    · rw [hlog]
      simp [sinceMapped]
    · rw [hlog]
      simp [sinceMapped]
    · rw [hlog]
      simp [sinceMapped]

theorem LoadInv.read (I : LoadInv d w o) (h : ReadEnds d w (p, d') w') :
    LoadInv d' w' (opened o d' .reading) := by
  cases h with
  | again _ =>
    exact I.same rfl I.again
  | refused hbuf hk =>
    exact I.same rfl (I.refused hk hbuf)
  | @opened a n _ hbuf _ hshared _ =>
    refine I.mapped hbuf rfl (Nat.pos_iff_ne_zero.mp a.pos) ?_
    exact hshared.trans (I.closed hbuf).1

theorem Loading.inv (L : Loading K d w o) : LoadInv d w o := by
  induction L with
  | new hsize hshared => exact LoadInv.new hsize hshared
  | write _ hr ih => exact ih.write (wp_ok (any_loadRootWriteObjectOf ih.range) hr)
  | read _ hr ih => exact ih.read (wp_ok (D := Any) wp_loadRootReadObject hr)
  | elsewhere _ hk ih => exact ih.kept hk

/-- The size of the file and the flag are set once. -/
def SameMembers (d d' : MMFileData) : Prop :=
  d'.file_size_ = d.file_size_ ∧ d'.databuf_.atuoclose = d.databuf_.atuoclose

theorem WriteEnds.members (h : WriteEnds T d w (v, d') w') : SameMembers d d' := by
  cases h with
  | again _ => exact ⟨rfl, rfl⟩
  | refused _ _ => exact ⟨rfl, rfl⟩
  | small _ _ _ _ _ => exact ⟨rfl, rfl⟩
  | threw _ _ _ _ _ => exact ⟨rfl, rfl⟩
  | built _ _ _ _ _ => exact ⟨rfl, rfl⟩

theorem WriteEnds.open (h : WriteEnds T d w (v, d') w') (hbuf : d.databuf_.buf ≠ 0) :
    d' = { d with meta_ := d.databuf_.buf } ∧
      w' = logged (.pointer (rootObject d.databuf_.buf)) w := by
  cases h with
  | again _ => exact ⟨rfl, rfl⟩
  | refused h0 => exact absurd h0 hbuf
  | small h0 => exact absurd h0 hbuf
  | threw h0 => exact absurd h0 hbuf
  | built h0 => exact absurd h0 hbuf

/-- A root that is handed out once more is usable exactly if the file was opened for a `T` that
is there, with a size that `CreateAllocator` takes. -/
theorem OpenedBy.usable_iff (h : OpenedBy d w c) (hbuf : d.databuf_.buf ≠ 0) :
    UsableRoot T d w (rootObject d.databuf_.buf) ↔
      c = .writing T.type true ∧ 8192 ≤ d.file_size_ := by
  cases c with
  | reading =>
    apply iff_of_false
    · intro U
      have hnone : w.glob.shared = none := h
      exact absurd (hnone.symm.trans U.shared) (by simp)
    · rintro ⟨hc, _⟩
      contradiction
  | writing type returned =>
    obtain ⟨hsmall, hbuilt, hlarge⟩ := h
    constructor
    · intro U
      obtain ⟨rfl, rfl⟩ := hbuilt _ _ U.built
      refine ⟨rfl, ?_⟩
      by_contra hlt
      exact hbuf (U.attached.symm.trans (hsmall (Int.not_le.mp hlt)))
    · rintro ⟨hc, h8⟩
      obtain ⟨rfl, rfl⟩ := Opener.writing.inj hc
      obtain ⟨hshared, hcreated, hatt, hroot⟩ := hlarge h8
      exact ⟨hshared, hcreated, hatt, hroot rfl⟩

/-- In every state that the loads lead to, `LoadRootWriteObject<T>` gives out no root that
is not usable exactly if the object is closed, or was opened by a `LoadRootWriteObject` of the
same `T` that returned, with a size that `CreateAllocator` takes. -/
theorem usable_root_iff (L : Loading K d w o)
    (hr : d.loadRootWriteObjectOf K T r w = .ok ((v, d'), w')) :
    (∀ p, v = some p → p ≠ 0 → UsableRoot T d' w' p) ↔
      (o = none ∨ (o = some (.writing T.type true) ∧ 8192 ≤ d.file_size_)) := by
  have I := L.inv
  have hend : WriteEnds T d w (v, d') w' := wp_ok (any_loadRootWriteObjectOf I.range) hr
  cases hend with
  | again hbuf =>
    cases o with
    | none => exact absurd (I.isOpen.mp rfl) hbuf
    | some c =>
      have hiff := ((I.opener c rfl).pointer (q := rootObject d.databuf_.buf)
        (m := d.databuf_.buf)).usable_iff (T := T) hbuf
      constructor
      · intro hu
        obtain ⟨rfl, h8⟩ := hiff.mp (hu _ rfl (Nat.succ_ne_zero _))
        exact Or.inr ⟨rfl, h8⟩
      · rintro (hnone | ⟨hc, h8⟩)
        · contradiction
        · rintro p hp -
          cases hp
          exact hiff.mpr ⟨Option.some.inj hc, h8⟩
  | refused hbuf _ =>
    apply iff_of_true
    · rintro p hp h0
      exact absurd (Option.some.inj hp).symm h0
    · exact Or.inl (I.isOpen.mpr hbuf)
  | small hbuf _ _ _ _ =>
    apply iff_of_true
    · rintro p hp h0
      exact absurd (Option.some.inj hp).symm h0
    · exact Or.inl (I.isOpen.mpr hbuf)
  | threw hbuf _ _ _ _ =>
    apply iff_of_true
    · rintro p hp
      contradiction
    · exact Or.inl (I.isOpen.mpr hbuf)
  | built hbuf hlarge _ hshared hlog =>
    apply iff_of_true
    · rintro p hp -
      cases hp
      refine ⟨hshared, ?_, rfl, ?_⟩
      · simp [hlog, sinceMapped]
      · simp [hlog, sinceMapped]
    · exact Or.inl (I.isOpen.mpr hbuf)

/-- Every call succeeds, and `mmap` answers 4096. -/
def granted : Reply := ⟨.ok (), .ok (), .ok ⟨4096, by decide, by decide⟩, true⟩

/-- Objects that start as zeros. -/
def zeros : Objects := ⟨fun a _ => memset a maxNamingTableSize 0, fun a _ => memset a 64 0⟩

/-- A process without a file. -/
def freshProcess : World := ⟨fun _ => .known 0, [], ⟨⟨0, 4096⟩, none, none, []⟩⟩

/-- A root whose constructor returns, and one whose constructor throws. -/
def quiet (type : Nat) : RootType := ⟨type, fun _ _ => pure true⟩

def throwing (type : Nat) : RootType := ⟨type, fun _ _ => pure false⟩

set_option maxRecDepth 100000 in
/-- A file of two pages is created, and its root is asked for once more. -/
theorem usable_root_two_pages : ∃ d w, UsableRoot (quiet 1) d w 4112 := by
  have hrun : result (do
      let first ← (MMFileData.new "image" 8192).loadRootWriteObjectOf zeros (quiet 1) granted
      let r ← first.2.loadRootWriteObjectOf zeros (quiet 1) granted
      return (first.2.file_size_, first.2.databuf_.buf, first.1, r.1)) freshProcess =
        some (8192, 4096, some 4112, some 4112) := by
    decide +kernel
  obtain ⟨τ, hτ⟩ := result_ok hrun
  obtain ⟨⟨v₁, d₁⟩, w₁, hw₁, hrest⟩ := bind_ok hτ
  obtain ⟨⟨v₂, d₂⟩, w₂, hw₂, hpure⟩ := bind_ok hrest
  obtain ⟨hvals, _⟩ := Prod.mk.inj (Except.ok.inj hpure)
  obtain ⟨hsize, hbuf, rfl, rfl⟩ : d₁.file_size_ = 8192 ∧ d₁.databuf_.buf = 4096 ∧
      v₁ = some 4112 ∧ v₂ = some 4112 := by
    simpa only [Prod.mk.injEq] using hvals
  have L : Loading zeros (MMFileData.new "image" 8192) freshProcess none := .new (by decide) rfl
  have L₁ := L.write hw₁
  have hopen : opened none d₁ (.writing (quiet 1).type (some 4112).isSome) =
      some (.writing 1 true) := if_neg (by omega)
  rw [hopen] at L₁
  exact ⟨d₂, w₂, (usable_root_iff L₁ hw₂).mpr (Or.inr ⟨rfl, by omega⟩) 4112 rfl (by decide)⟩

/-- A load for a `T` of a new file, and then one for an object of type 1, which gives out a
root that is not usable. -/
def SecondUnusable (T : RootType) (size : Int) : Prop :=
  ∃ v d w d' w', (MMFileData.new "image" size).loadRootWriteObjectOf zeros T granted
      freshProcess = .ok ((v, d), w) ∧
    d.loadRootWriteObjectOf zeros (quiet 1) granted w = .ok ((some 4112, d'), w') ∧
    ¬ UsableRoot (quiet 1) d' w' 4112

/-- A second call, after one that has mapped the file and not made its root usable. -/
theorem second_unusable {size : Int} {returned : Bool} (hsize : size < 2 ^ 63)
    (hrun : result (do
      let first ← (MMFileData.new "image" size).loadRootWriteObjectOf zeros T granted
      let r ← first.2.loadRootWriteObjectOf zeros (quiet 1) granted
      return (first.2.databuf_.buf, first.1.isSome, r.1)) freshProcess =
        some (4096, returned, some 4112))
    (hno : ¬ (T.type = 1 ∧ returned = true ∧ 8192 ≤ size)) : SecondUnusable T size := by
  obtain ⟨τ, hτ⟩ := result_ok hrun
  obtain ⟨⟨v₁, d₁⟩, w₁, hw₁, hrest⟩ := bind_ok hτ
  obtain ⟨⟨v₂, d₂⟩, w₂, hw₂, hpure⟩ := bind_ok hrest
  obtain ⟨hvals, _⟩ := Prod.mk.inj (Except.ok.inj hpure)
  obtain ⟨hbuf, rfl, rfl⟩ : d₁.databuf_.buf = 4096 ∧ v₁.isSome = returned ∧ v₂ = some 4112 := by
    simpa only [Prod.mk.injEq] using hvals
  have L : Loading zeros (MMFileData.new "image" size) freshProcess none := .new hsize rfl
  have L₁ := L.write hw₁
  have hnull : d₁.databuf_.buf ≠ 0 := by omega
  have hopen : opened none d₁ (.writing T.type v₁.isSome) = some (.writing T.type v₁.isSome) :=
    if_neg hnull
  rw [hopen] at L₁
  have hfile : d₁.file_size_ = size := by
    have hend := wp_ok (any_loadRootWriteObjectOf (show _ < (2 ^ 63 : Int) from hsize)) hw₁
    exact hend.members.1
  refine ⟨v₁, d₁, w₁, d₂, w₂, hw₁, hw₂, fun hu => ?_⟩
  have hend : WriteEnds (quiet 1) d₁ w₁ (some 4112, d₂) w₂ :=
    wp_ok (any_loadRootWriteObjectOf L₁.inv.range) hw₂
  obtain ⟨rfl, rfl⟩ := hend.open hnull
  have hroot : (4112 : Nat) = rootObject d₁.databuf_.buf := by rw [hbuf]; rfl
  rw [hroot] at hu
  have hopener := (L₁.inv.opener _ rfl).pointer (q := rootObject d₁.databuf_.buf)
    (m := d₁.databuf_.buf)
  obtain ⟨hc, h8⟩ := (hopener.usable_iff hnull).mp hu
  obtain ⟨ht, hret⟩ := Opener.writing.inj hc
  exact hno ⟨ht, hret, hfile ▸ h8⟩

set_option maxRecDepth 100000 in
/-- A file of 100 bytes is mapped, no allocator is created in it, and the second call
gives out the root all the same. So it does where the first constructor has thrown, and where
the first root was of another type. -/
theorem root_without_allocator : SecondUnusable (quiet 1) 100 ∧
    SecondUnusable (throwing 1) 8192 ∧ SecondUnusable (quiet 2) 8192 := by
  refine ⟨?_, ?_, ?_⟩
  · exact @second_unusable _ _ true (by decide) (by decide +kernel) (by decide)
  · exact @second_unusable _ _ false (by decide) (by decide +kernel) (by decide)
  · exact @second_unusable _ _ true (by decide) (by decide +kernel) (by decide)

end

end Mmdata.Proofs
