import Mmdata.Proofs.FileRoot

namespace Mmdata.Proofs
open Lib Malloc Image

/-- The ranges that are mapped, after what is recorded. A `munmap` of no bytes is
refused by the system. -/
def held : List Event → List (Nat × Nat)
  | [] => []
  | .mmap a n _ :: log => (a, n) :: held log
  | .munmap a n :: log => if n = 0 then held log else (held log).erase (a, n)
  | _ :: log => held log

/-- The ranges that were given up. -/
def released : List Event → List (Nat × Nat)
  | [] => []
  | .munmap a n :: log => if n = 0 then released log else (a, n) :: released log
  | _ :: log => released log

def Covers (r : Nat × Nat) (p : Nat) : Prop := r.1 ≤ p ∧ p < r.1 + r.2

/-- Only ranges that are mapped are given up, and no pointer leads into a range that
was given up and is not mapped again. -/
def Proper : List Event → Prop
  | [] => True
  | .munmap a n :: log => (n = 0 ∨ (a, n) ∈ held log) ∧ Proper log
  | .pointer p :: log =>
    (p ≠ 0 → ∀ r ∈ released log, Covers r p → ∃ r' ∈ held log, Covers r' p) ∧ Proper log
  | _ :: log => Proper log

/-- `ShrinkToFit` gets as far as `Close`. -/
def closes (d : MMFileData) : Bool := !d.readonly_ && d.databuf_.buf != 0

/-- The states of an `MMFileData`, after any calls on it, and whether a `ShrinkToFit`
has closed the mapping. Constructors may throw. Between the calls the process does anything
else. -/
inductive Lives (K : Objects) (find : Nat → Nat → List UInt8 → Code Nat) :
    MMFileData → World → Bool → Prop
  | new {f : String} {size : Int} {w : World} : size < 2 ^ 63 → w.glob.log = [] →
      Lives K find (MMFileData.new f size) w false
  | write {d d' : MMFileData} {w w' : World} {r : Reply} {T : RootType} {v : Option Nat}
      {c : Bool} : Lives K find d w c →
      d.loadRootWriteObjectOf K T r w = .ok ((v, d'), w') → Lives K find d' w' c
  | read {d d' : MMFileData} {w w' : World} {r : Reply} {p : Nat} {c : Bool} :
      Lives K find d w c → d.loadRootReadObject r w = .ok ((p, d'), w') → Lives K find d' w' c
  | naming {d : MMFileData} {w w' : World} {name : List UInt8} {v : Nat} {c : Bool} :
      Lives K find d w c → d.getNamingObject find name w = .ok (v, w') → Lives K find d w' c
  | shrink {d d' : MMFileData} {w w' : World} {r : Reply} {n : Int} {c : Bool} :
      Lives K find d w c → d.shrinkToFit r w = .ok ((n, d'), w') →
      Lives K find d' w' (c || closes d)
  | elsewhere {d : MMFileData} {w w' : World} {c : Bool} : Lives K find d w c → KeepsFile w w' →
      Lives K find d w' c

/-- Nothing was given up, and the mapping that the object knows of is the only one. -/
structure Owner (d : MMFileData) (log : List Event) : Prop where
  proper : Proper log
  released : released log = []
  empty : d.databuf_.buf = 0 → d.databuf_.size = 0 ∧ held log = []
  mapped : d.databuf_.buf ≠ 0 → d.databuf_.size ≠ 0 ∧
    held log = [(d.databuf_.buf, d.databuf_.size)]

/-- The object still knows of a mapping, and nothing is mapped. -/
structure Stale (d : MMFileData) (log : List Event) : Prop where
  buf : d.databuf_.buf ≠ 0
  size : d.databuf_.size ≠ 0
  gone : held log = []

/-- What an object owns, by whether its mapping was closed. -/
def Owns (d : MMFileData) (log : List Event) : Bool → Prop
  | false => Owner d log
  | true => Stale d log

section

variable {K : Objects} {find : Nat → Nat → List UInt8 → Code Nat} {d d' : MMFileData}
  {w w' : World} {r : Reply} {T : RootType} {p n a : Nat} {v : Option Nat} {log : List Event}
  {c writable : Bool}

theorem Owner.pointer (O : Owner d log) : Owner d (.pointer p :: log) := by
  refine ⟨⟨?_, O.proper⟩, O.released, O.empty, O.mapped⟩
  intro _ r hr
  rw [O.released] at hr
  cases hr

theorem Owner.created (O : Owner d log) : Owner d (.created a :: log) :=
  ⟨O.proper, O.released, O.empty, O.mapped⟩

theorem Owner.built (O : Owner d log) : Owner d (.built n a :: log) :=
  ⟨O.proper, O.released, O.empty, O.mapped⟩

/-- A closed object that maps a file owns the mapping. -/
theorem Owner.mmap (O : Owner d log) (h0 : d.databuf_.buf = 0) (hn : d'.databuf_.size ≠ 0)
    (hbuf : d'.databuf_.buf ≠ 0) :
    Owner d' (.mmap d'.databuf_.buf d'.databuf_.size writable :: log) := by
  refine ⟨O.proper, O.released, fun h => absurd h hbuf, fun _ => ⟨hn, ?_⟩⟩
  simp only [held, (O.empty h0).2]

theorem Owner.of_databuf (O : Owner d log) (hb : d'.databuf_.buf = d.databuf_.buf)
    (hs : d'.databuf_.size = d.databuf_.size) : Owner d' log := by
  refine ⟨O.proper, O.released, ?_, ?_⟩
  · rw [hb, hs]
    exact O.empty
  · rw [hb, hs]
    exact O.mapped

theorem Owner.write (O : Owner d w.glob.log) (h : WriteEnds T d w (v, d') w') :
    Owner d' w'.glob.log := by
  cases h with
  | again _ => exact O.pointer.of_databuf rfl rfl
  | refused _ hk =>
    rw [hk.log]
    exact O.of_databuf rfl rfl
  | @small _ a _ hbuf _ h0 _ hlog =>
    rw [hlog]
    exact O.mmap hbuf h0 (Nat.pos_iff_ne_zero.mp a.pos)
  | @threw a _ hbuf _ h0 _ hlog =>
    rw [hlog]
    exact (O.mmap hbuf h0 (Nat.pos_iff_ne_zero.mp a.pos)).created.pointer
  | @built a _ hbuf _ h0 _ hlog =>
    rw [hlog]
    exact (O.mmap hbuf h0 (Nat.pos_iff_ne_zero.mp a.pos)).created.pointer.built

theorem Owner.read (O : Owner d w.glob.log) (h : ReadEnds d w (p, d') w') :
    Owner d' w'.glob.log := by
  cases h with
  | again _ => exact O.pointer.of_databuf rfl rfl
  | refused _ hk =>
    rw [hk.log]
    exact O.of_databuf rfl rfl
  | @opened a _ _ hbuf h0 _ hlog =>
    rw [hlog]
    exact (O.mmap hbuf h0 (Nat.pos_iff_ne_zero.mp a.pos)).pointer

/-- The only mapping is given up. -/
theorem Owner.close (O : Owner d log) (hbuf : d.databuf_.buf ≠ 0) :
    Proper (.munmap d.databuf_.buf d.databuf_.size :: log) ∧
      held (.munmap d.databuf_.buf d.databuf_.size :: log) = [] := by
  obtain ⟨hsize, hheld⟩ := O.mapped hbuf
  refine ⟨⟨Or.inr ?_, O.proper⟩, ?_⟩
  · rw [hheld]
    exact List.mem_cons_self
  · simp only [held, hheld, if_neg hsize, List.erase_cons_head]

theorem Stale.write (S : Stale d w.glob.log) (h : WriteEnds T d w (v, d') w') :
    Stale d' w'.glob.log := by
  cases h with
  | again _ => exact ⟨S.buf, S.size, S.gone⟩
  | refused h0 _ => exact absurd h0 S.buf
  | small h0 _ _ _ _ => exact absurd h0 S.buf
  | threw h0 _ _ _ _ => exact absurd h0 S.buf
  | built h0 _ _ _ _ => exact absurd h0 S.buf

theorem Stale.read (S : Stale d w.glob.log) (h : ReadEnds d w (p, d') w') :
    Stale d' w'.glob.log := by
  cases h with
  | again _ => exact ⟨S.buf, S.size, S.gone⟩
  | refused h0 _ => exact absurd h0 S.buf
  | opened h0 _ _ _ => exact absurd h0 S.buf

/-- How `ShrinkToFit` ends. -/
inductive ShrinkEnds (d : MMFileData) (w : World) : Int × MMFileData → World → Prop
  | refused {msg : String} : closes d = false → ShrinkEnds d w (-1, { d with err := msg }) w
  | closed {n : Int} {w' : World} : closes d = true →
      w'.glob.log = .munmap d.databuf_.buf d.databuf_.size ::
        .pointer (mspaceOffset d.allocator_) :: w.glob.log → ShrinkEnds d w (n, d) w'

theorem wp_sysMunmap {D : Trap → Prop} {Q : Unit → World → Prop}
    (h : ∀ w', w'.glob.log = .munmap a n :: w.glob.log → Q () w') :
    wp D (sysMunmap a n) Q w := by
  unfold sysMunmap
  rw [wp_bind]
  apply h
  simp only
  split
  · rfl
  · rfl

theorem any_shrinkToFit : wp Any (d.shrinkToFit r) (ShrinkEnds d w) w := by
  unfold MMFileData.shrinkToFit
  by_cases hro : d.readonly_ = true
  · rw [wp_if_pos hro]
    have hcloses : closes d = false := by simp [closes, hro]
    exact .refused hcloses
  · rw [wp_if_neg hro]
    by_cases hbuf : d.databuf_.buf = 0
    · rw [wp_if_pos hbuf]
      have hcloses : closes d = false := by simp [closes, hbuf]
      exact .refused hcloses
    · rw [wp_if_neg hbuf]
      have hcloses : closes d = true := by
        simp only [Bool.not_eq_true] at hro
        simp [closes, hro, hbuf]
      simp only [wp_bind]
      rw [wp_record]
      apply any_inProcess
      intro v w₁ hk _
      apply wp_sysMunmap
      intro w₂ hlog
      apply wp_sysTruncate
      intro w₃ hk'
      refine .closed hcloses ?_
      rw [hk'.log, hlog, hk.log]

theorem Owner.shrink {m : Int} (O : Owner d w.glob.log) (h : ShrinkEnds d w (m, d') w') :
    Owns d' w'.glob.log (closes d) := by
  cases h with
  | refused hcl =>
    rw [hcl]
    exact O.of_databuf rfl rfl
  | closed hcl hlog =>
    rw [hcl, hlog]
    have hbuf : d.databuf_.buf ≠ 0 := by
      intro h0
      simp [closes, h0] at hcl
    have O' : Owner d (.pointer (mspaceOffset d.allocator_) :: w.glob.log) := O.pointer
    exact ⟨hbuf, (O.mapped hbuf).1, (O'.close hbuf).2⟩

theorem Stale.shrink {m : Int} (S : Stale d w.glob.log) (h : ShrinkEnds d w (m, d') w') :
    Stale d' w'.glob.log := by
  cases h with
  | refused _ => exact ⟨S.buf, S.size, S.gone⟩
  | closed _ hlog =>
    refine ⟨S.buf, S.size, ?_⟩
    rw [hlog]
    simp only [held, S.gone, if_neg S.size, List.erase_nil]

/-- `GetNamingObject` adds the pointers that it follows and returns. -/
theorem any_getNamingObject {name : List UInt8} : wp Any (d.getNamingObject find name)
    (fun v w' => w'.glob.log = w.glob.log ∨
      w'.glob.log = .pointer v :: .pointer (namingTable d.meta_) :: w.glob.log) w := by
  unfold MMFileData.getNamingObject
  by_cases h0 : d.meta_ = 0
  · rw [wp_if_pos h0]
    exact Or.inl rfl
  · rw [wp_if_neg h0]
    simp only [wp_bind]
    rw [wp_record]
    apply any_inProcess
    intro v w₁ hk _
    rw [wp_record, wp_pure]
    right
    exact congrArg (List.cons (Event.pointer v)) hk.log

theorem ReadEnds.members (h : ReadEnds d w (p, d') w') : SameMembers d d' := by
  cases h with
  | again _ => exact ⟨rfl, rfl⟩
  | refused _ _ => exact ⟨rfl, rfl⟩
  | opened _ _ _ _ => exact ⟨rfl, rfl⟩

theorem ShrinkEnds.members {m : Int} (h : ShrinkEnds d w (m, d') w') : SameMembers d d' := by
  cases h with
  | refused _ => exact ⟨rfl, rfl⟩
  | closed _ _ => exact ⟨rfl, rfl⟩

/-- What is known of an object throughout its life. -/
structure LifeInv (d : MMFileData) (log : List Event) (c : Bool) : Prop where
  range : d.file_size_ < 2 ^ 63
  autoclose : d.databuf_.atuoclose = true
  owns : Owns d log c

theorem LifeInv.next {log' : List Event} {c' : Bool} (I : LifeInv d log c)
    (hs : SameMembers d d') (h : Owns d' log' c') : LifeInv d' log' c' := by
  refine ⟨?_, ?_, h⟩
  · rw [hs.1]
    exact I.range
  · rw [hs.2]
    exact I.autoclose

theorem Lives.inv (L : Lives K find d w c) : LifeInv d w.glob.log c := by
  induction L with
  | new hsize hlog =>
    refine ⟨hsize, rfl, ?_⟩
    rw [hlog]
    exact ⟨trivial, rfl, fun _ => ⟨rfl, rfl⟩, fun h => absurd rfl h⟩
  | @write d d' w w' r T v c _ hr ih =>
    have hend : WriteEnds T d w (v, d') w' := wp_ok (any_loadRootWriteObjectOf ih.range) hr
    apply ih.next hend.members
    cases c with
    | false => exact Owner.write ih.owns hend
    | true => exact Stale.write ih.owns hend
  | @read d d' w w' r p c _ hr ih =>
    have hend : ReadEnds d w (p, d') w' := wp_ok (D := Any) wp_loadRootReadObject hr
    apply ih.next hend.members
    cases c with
    | false => exact Owner.read ih.owns hend
    | true => exact Stale.read ih.owns hend
  | @naming d w w' name v c _ hr ih =>
    apply ih.next ⟨rfl, rfl⟩
    cases wp_ok any_getNamingObject hr with
    | inl hlog =>
      rw [hlog]
      exact ih.owns
    | inr hlog =>
      rw [hlog]
      cases c with
      | false => exact Owner.pointer (Owner.pointer ih.owns)
      | true =>
        have S : Stale d w.glob.log := ih.owns
        exact ⟨S.buf, S.size, S.gone⟩
  | @shrink d d' w w' r n c _ hr ih =>
    have hend : ShrinkEnds d w (n, d') w' := wp_ok any_shrinkToFit hr
    apply ih.next hend.members
    cases c with
    | false => exact Owner.shrink ih.owns hend
    | true => exact Stale.shrink ih.owns hend
  | elsewhere _ hk ih =>
    rw [hk.log]
    exact ih

/-- Over a whole life, calls in any order and then the destructor, each mapping is given
up exactly once, no range twice, and no pointer leads into a range that was given up,
exactly if no `ShrinkToFit` has closed the mapping. -/
theorem owns_mapping_iff (L : Lives K find d w c) {u : Unit} (hr : d.destroy w = .ok (u, w')) :
    (Proper w'.glob.log ∧ held w'.glob.log = []) ↔ c = false := by
  obtain ⟨_, hauto, hown⟩ := L.inv
  have hend : wp Any d.destroy
      (fun _ w' => w'.glob.log = .munmap d.databuf_.buf d.databuf_.size :: w.glob.log) w := by
    unfold MMFileData.destroy MMapBuf.destroy
    rw [wp_if_pos hauto]
    apply wp_sysMunmap
    intro w' hlog
    exact hlog
  rw [wp_ok hend hr]
  cases c with
  | false =>
    apply iff_of_true
    · by_cases hbuf : d.databuf_.buf = 0
      · obtain ⟨hsize, hheld⟩ := Owner.empty hown hbuf
        rw [hsize]
        exact ⟨⟨Or.inl rfl, Owner.proper hown⟩, hheld⟩
      · exact Owner.close hown hbuf
    · rfl
  | true =>
    apply iff_of_false
    · rintro ⟨⟨hsize | hmem, _⟩, _⟩
      · exact Stale.size hown hsize
      · rw [Stale.gone hown] at hmem
        cases hmem
    · decide

/-- `find` of an empty table. -/
def findNone (_ _ : Nat) (_ : List UInt8) : Code Nat := pure 0

set_option maxRecDepth 100000 in
/-- A file of two pages is created, and the object goes. -/
theorem owns_mapping_two_pages : ∃ d w w', d.destroy w = .ok ((), w') ∧
    Lives zeros findNone d w false ∧ Proper w'.glob.log ∧ held w'.glob.log = [] := by
  have hrun : result (do
      let r ← (MMFileData.new "image" 8192).loadRootWriteObject zeros granted
      r.2.destroy) freshProcess = some () := by
    decide +kernel
  obtain ⟨w', hw'⟩ := result_ok hrun
  obtain ⟨⟨p, d⟩, w, hw, hend⟩ := bind_ok hw'
  have hnew : Lives zeros findNone (MMFileData.new "image" 8192) freshProcess false :=
    .new (by decide) rfl
  have L : Lives zeros findNone d w false := hnew.write (loadRootWriteObjectOf_returning hw)
  exact ⟨d, w, w', hend, L, (owns_mapping_iff L hend).mpr rfl⟩

set_option maxRecDepth 100000 in
/-- After `ShrinkToFit` the destructor gives up the mapping a second time. -/
theorem unmapped_twice : ∃ d w w', d.destroy w = .ok ((), w') ∧
    Lives zeros findNone d w true ∧ ¬ Proper w'.glob.log := by
  have hrun : result (do
      let r ← (MMFileData.new "image" 8192).loadRootWriteObject zeros granted
      let shrunk ← r.2.shrinkToFit granted
      shrunk.2.destroy
      return (closes r.2, (← globals).log)) freshProcess = some (true,
        [.munmap 4096 8192, .munmap 4096 8192, .pointer 4104, .built 0 4112, .pointer 4112,
          .created 4096, .mmap 4096 8192 true]) := by
    decide +kernel
  obtain ⟨τ, hτ⟩ := result_ok hrun
  obtain ⟨⟨p, d⟩, w, hw, hrest⟩ := bind_ok hτ
  obtain ⟨⟨n, d'⟩, w₁, hw₁, hrest⟩ := bind_ok hrest
  obtain ⟨u, w₂, hw₂, hrest⟩ := bind_ok hrest
  obtain ⟨g, w₃, hg, hpure⟩ := bind_ok hrest
  cases hg
  obtain ⟨hvals, _⟩ := Prod.mk.inj (Except.ok.inj hpure)
  obtain ⟨hcloses, hlog⟩ := Prod.mk.inj hvals
  have hnew : Lives zeros findNone (MMFileData.new "image" 8192) freshProcess false :=
    .new (by decide) rfl
  have L : Lives zeros findNone d' w₁ (false || closes d) :=
    (hnew.write (loadRootWriteObjectOf_returning hw)).shrink hw₁
  rw [hcloses] at L
  refine ⟨d', w₁, w₂, hw₂, L, ?_⟩
  rw [hlog]
  rintro ⟨hheld, _⟩
  revert hheld
  decide

end

end Mmdata.Proofs
