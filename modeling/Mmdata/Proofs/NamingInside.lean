import Mmdata.Proofs.NamingRegistry

namespace Mmdata.Naming
open Lib Image

/-- The buffers do not overlap, and each table was constructed in the image that it is in. -/
structure Store.Buffers (s : Store) : Prop where
  pos : ∀ r ∈ s.buffers, r.1 ≠ 0
  apart : ∀ r ∈ s.buffers, ∀ r' ∈ s.buffers, r.1 = r'.1 ∨ Apart r.1 r.2 r'.1 r'.2
  unique : ∀ r ∈ s.buffers, ∀ r' ∈ s.buffers, r.1 = r'.1 → r = r'
  tables : ∀ b t, s.tables b = some t → t.space = b

/-- The states of an `MMData` on which the loads are called, with any of the buffers, and
objects are made. Between the calls other blocks come and go. -/
inductive Handling (L : Boost) : MMData → Store → Prop
  | start {s : Store} : s.Buffers → Handling L MMData.new s
  | create {d d' : MMData} {s s' : Store} {buf : Nat} {memsize rc : Int} : Handling L d s →
      (∃ n : Nat, (buf, n) ∈ s.buffers ∧ memsize ≤ n) →
      createAllocator d buf memsize s = .ok (rc, d') s' → Handling L d' s'
  | writeLoad {d d' : MMData} {s s' : Store} {buf p : Nat} {size : Int} : Handling L d s →
      (∃ n : Nat, (buf, n) ∈ s.buffers ∧ size ≤ n) →
      loadRootWriteObject d buf size s = .ok (p, d') s' → Handling L d' s'
  | readLoad {d : MMData} {s : Store} {mem : Nat} : Handling L d s →
      (∃ t, s.tables mem = some t) → Handling L (loadRootReadObject d mem).2 s
  | new {d : MMData} {s s' : Store} {T : ObjectType} {str : List UInt8} {r : NewAnswer}
      {v : Nat} : Handling L d s → newNamingObject L d T str r s = .ok v s' → Handling L d s'
  | thrown {d : MMData} {s s' : Store} {T : ObjectType} {str : List UInt8} {r : NewAnswer}
      {x : Thrown} : Handling L d s → x = .badAlloc ∨ x = .constructor →
      newNamingObject L d T str r s = .error x s' → Handling L d s'
  | elsewhere {d : MMData} {s s' : Store} : Handling L d s → s'.buffers = s.buffers →
      s'.tables = s.tables → Handling L d s'

/-- The `n` bytes at `a` lie in the buffer. -/
def Inside (r : Nat × Nat) (a n : Nat) : Prop := r.1 ≤ a ∧ a + n ≤ r.1 + r.2

/-- The object, the key and the node lie in the buffer whose table has the entry. -/
def StoredInside (d : MMData) (T : ObjectType) (str : List UInt8) (v : Nat) (s : Store) : Prop :=
  ∃ t e r, s.tables d.meta_ = some t ∧ e ∈ t.nodes ∧ e.first.chars = str ∧ e.second = v ∧
    r ∈ s.buffers ∧ r.1 = d.meta_ ∧ Inside r e.mem.addr e.mem.size ∧
    (∀ b, e.first.mem = some b → Inside r b.addr b.size) ∧ Inside r v T.size

section

variable {L : Boost} {d d' : MMData} {T : ObjectType} {s s' : Store} {str : List UInt8}
  {t t' : NamingTable} {r : NewAnswer} {buf p v : Nat} {e : Node} {b : Block}

theorem Store.Buffers.congr (B : s.Buffers) (hb : s'.buffers = s.buffers)
    (ht : ∀ b t, s'.tables b = some t → t.space = b) : s'.Buffers := by
  refine ⟨?_, ?_, ?_, ht⟩
  · rw [hb]
    exact B.pos
  · rw [hb]
    exact B.apart
  · rw [hb]
    exact B.unique

theorem Store.Buffers.setTable (B : s.Buffers) (ht : s.tables d.meta_ = some t)
    (hb : s'.buffers = s.buffers) (hspace : t'.space = t.space)
    (ht' : s'.tables = (s.setTable d.meta_ t').tables) : s'.Buffers := by
  apply B.congr hb
  intro b u hu
  rw [ht'] at hu
  simp only [Store.setTable] at hu
  split at hu
  · rename_i hbm
    cases hu
    rw [hspace, hbm]
    exact B.tables _ _ ht
  · exact B.tables b u hu

/-- The buffers with their tables, and that of the image at `meta_`. -/
structure Handled (d : MMData) (s : Store) : Prop where
  buffers : s.Buffers
  loaded : d.meta_ ≠ 0 → ∃ t, s.tables d.meta_ = some t

/-- What `CreateAllocator` keeps, and the table that it makes. -/
structure Created (d : MMData) (s : Store) (buf : Nat) (v : Int × MMData) (s' : Store) :
    Prop where
  buffers : s'.Buffers
  image : v.2.meta_ = d.meta_
  kept : ∀ b t, s.tables b = some t → ∃ t', s'.tables b = some t'
  made : v.1 = 0 → ∃ t, s'.tables buf = some t

theorem Store.Buffers.create (B : s.Buffers) (hbuf : buf ≠ 0) {memsize : Int} :
    ends (createAllocator d buf memsize) (Created d s buf) (fun _ _ => True) s := by
  unfold createAllocator
  by_cases hsmall : memsize < Image.allocatorMetaSize * 2
  · rw [ends_if_pos hsmall]
    refine ⟨B, rfl, fun b t ht => ⟨t, ht⟩, ?_⟩
    intro h
    cases h
  · rw [ends_if_neg hsmall]
    simp only [if_pos hbuf, ends_bind]
    rw [ends_modify, ends_pure]
    refine ⟨?_, rfl, ?_, fun _ => ⟨⟨buf, none, []⟩, if_pos rfl⟩⟩
    · refine ⟨B.pos, B.apart, B.unique, ?_⟩
      intro b t ht
      simp only at ht
      split at ht
      · rename_i hb
        cases ht
        exact hb.symm
      · exact B.tables b t ht
    · intro b t ht
      simp only
      split
      · exact ⟨_, rfl⟩
      · exact ⟨t, ht⟩

theorem Handled.loadRootWriteObject (H : Handled d s) (hbuf : buf ≠ 0) {size : Int} :
    ends (Naming.loadRootWriteObject d buf size) (fun v s' => Handled v.2 s')
      (fun _ _ => True) s := by
  unfold Naming.loadRootWriteObject
  rw [ends_bind]
  apply ends_mono (H.buffers.create hbuf)
  · intro v s₁ C
    obtain ⟨rc, d₁⟩ := v
    simp only
    by_cases hrc : rc ≠ 0
    · rw [ends_if_pos hrc, ends_pure]
      refine ⟨C.buffers, ?_⟩
      intro h0
      rw [C.image] at h0 ⊢
      obtain ⟨t, ht⟩ := H.loaded h0
      exact C.kept _ t ht
    · rw [ends_if_neg hrc, ends_pure]
      exact ⟨C.buffers, fun _ => C.made (by omega)⟩
  · exact fun _ _ _ => trivial

/-- Another table for the image at `meta_`. -/
theorem Handled.setTable (H : Handled d s) (ht : s.tables d.meta_ = some t)
    (hb : s'.buffers = s.buffers) (hspace : t'.space = t.space)
    (ht' : s'.tables = (s.setTable d.meta_ t').tables) : Handled d s' := by
  refine ⟨H.buffers.setTable ht hb hspace ht', fun _ => ⟨t', ?_⟩⟩
  rw [ht']
  exact setTable_self

/-- What `NewNamingObject` leaves, also by an exception. -/
theorem Handled.newNamingObject (H : Handled d s) :
    ends (Naming.newNamingObject L d T str r) (fun _ s' => Handled d s')
      (fun x s' => x = .badAlloc ∨ x = .constructor → Handled d s') s := by
  by_cases h0 : d.meta_ = 0
  · unfold Naming.newNamingObject
    rw [ends_if_pos h0]
    exact H
  · obtain ⟨t, ht⟩ := H.loaded h0
    apply ends_newNamingObject h0 ht
    · rintro s' (hx | hx)
      · cases hx
      · cases hx
    · rintro s' (hx | hx)
      · cases hx
      · cases hx
    · exact fun _ _ => H
    · intro e v t' s' _ M
      exact H.setTable ht M.buffers M.tableSpace M.tables
    · exact fun _ _ => H
    · intro x s' _ _ hhalf _
      obtain ⟨e, t', _, hspace, _, _, _, _, htables, _⟩ := hhalf.done
      exact H.setTable ht hhalf.buffers hspace htables

theorem Handling.handled (H : Handling L d s) : Handled d s := by
  induction H with
  | start B => exact ⟨B, fun h0 => absurd rfl h0⟩
  | create _ hin hr ih =>
    obtain ⟨n, hin, _⟩ := hin
    have C := ends_ok (ih.buffers.create (ih.buffers.pos _ hin)) hr
    refine ⟨C.buffers, ?_⟩
    intro h0
    have himage := C.image
    simp only at himage
    rw [himage] at h0 ⊢
    obtain ⟨t, ht⟩ := ih.loaded h0
    exact C.kept _ t ht
  | writeLoad _ hin hr ih =>
    obtain ⟨n, hin, _⟩ := hin
    have hend := ends_ok (ih.loadRootWriteObject (ih.buffers.pos _ hin)) hr
    exact hend
  | readLoad _ ht ih => exact ⟨ih.buffers, fun _ => ht⟩
  | new _ hr ih =>
    have hend := ends_ok ih.newNamingObject hr
    exact hend
  | thrown _ hx hr ih =>
    have hend := ends_error ih.newNamingObject hr
    exact hend hx
  | elsewhere _ hb ht ih =>
    refine ⟨ih.buffers.congr hb ?_, ?_⟩
    · rw [ht]
      exact ih.buffers.tables
    · rw [ht]
      exact ih.loaded

theorem Store.inSpace_inside (h : s.InSpace b) (h0 : b.space ≠ 0) :
    ∃ r ∈ s.buffers, r.1 = b.space ∧ Inside r b.addr b.size := by
  unfold Store.InSpace at h
  rw [if_neg h0] at h
  obtain ⟨r, hr, hrb, hlo, hhi⟩ := h
  exact ⟨r, hr, hrb, hlo, hhi⟩

/-- Blocks of other spaces are outside of a buffer. -/
theorem Store.Buffers.outside (B : s.Buffers) {q : Nat × Nat} (hq : q ∈ s.buffers)
    (h : s.InSpace b) (hne : b.space ≠ q.1) (hpos : 0 < b.size) : ¬ Inside q b.addr b.size := by
  rintro ⟨hlo, hhi⟩
  by_cases h0 : b.space = 0
  · unfold Store.InSpace at h
    rw [if_pos h0] at h
    have hapart := h q hq
    unfold Apart at hapart
    omega
  · obtain ⟨r, hr, hrb, hlo', hhi'⟩ := Store.inSpace_inside h h0
    cases B.apart r hr q hq with
    | inl heq => exact hne (hrb.symm.trans heq)
    | inr hapart =>
      unfold Apart at hapart
      omega

/-- In every state, what `NewNamingObject` stores lies inside the buffer whose table has
the entry exactly if the allocator of the object is that of the same buffer. -/
theorem stored_inside_iff (H : Handling L d s)
    (hr : Naming.newNamingObject L d T str r s = .ok v s') (hv : v ≠ 0) :
    StoredInside d T str v s' ↔ d.allocator_ = d.meta_ := by
  have I := H.handled
  have hend : ends (Naming.newNamingObject L d T str r) (fun v s' => v ≠ 0 →
      (StoredInside d T str v s' ↔ d.allocator_ = d.meta_)) (fun _ _ => True) s := by
    by_cases h0 : d.meta_ = 0
    · unfold Naming.newNamingObject
      rw [ends_if_pos h0]
      intro hv
      exact absurd rfl hv
    obtain ⟨t, ht⟩ := I.loaded h0
    have htspace : t.space = d.meta_ := I.buffers.tables _ t ht
    apply ends_newNamingObject h0 ht (fun _ => trivial) (fun _ => trivial)
    · intro e _ hv
      exact absurd rfl hv
    · intro e v t' s' _ M _
      constructor
      · rintro ⟨u, f, q, _, _, _, _, hq, hqm, _, _, hinside⟩
        by_contra hne
        rw [M.buffers] at hq
        have hpos : 0 < v.size := by
          rw [M.objectSize]
          exact T.pos
        have hout : v.space ≠ q.1 := by
          rw [M.objectSpace, hqm]
          exact hne
        apply I.buffers.outside hq M.objectIn hout hpos
        rw [M.objectSize]
        exact hinside
      · intro heq
        have hvspace : v.space = d.meta_ := M.objectSpace.trans heq
        have hespace : e.mem.space = d.meta_ := M.nodeSpace.trans htspace
        obtain ⟨q, hq, hqv, hvin⟩ := Store.inSpace_inside M.objectIn (by rw [hvspace]; exact h0)
        have hqm : q.1 = d.meta_ := hqv.trans hvspace
        have hsame : ∀ c : Block, s.InSpace c → c.space = d.meta_ → Inside q c.addr c.size := by
          intro c hc hcm
          obtain ⟨q', hq', hqc, hcin⟩ := Store.inSpace_inside hc (by rw [hcm]; exact h0)
          have hqq : q' = q :=
            I.buffers.unique q' hq' q hq (hqc.trans (hcm.trans hqm.symm))
          rw [← hqq]
          exact hcin
        refine ⟨t', e, q, ?_, ?_, M.key, M.second, ?_, hqm, ?_, ?_, ?_⟩
        · rw [M.tables]
          exact setTable_self
        · rw [M.nodes]
          exact List.mem_cons_self
        · rw [M.buffers]
          exact hq
        · exact hsame e.mem M.node.2.1 hespace
        · intro c hc
          obtain ⟨hcin, hcs⟩ := M.keyIn c hc
          exact hsame c hcin (hcs.trans heq)
        · rw [← M.objectSize]
          exact hvin
    · exact fun _ => trivial
    · exact fun _ _ _ _ _ => trivial
  have hend := ends_ok hend hr
  exact hend hv

theorem buffers_of_one {tables : Nat → Option NamingTable}
    (ht : ∀ b t, tables b = some t → t.space = b) :
    (⟨[(4096, 65536)], 0, 0, tables⟩ : Store).Buffers := by
  have hone : ∀ r ∈ [(4096, 65536)], r = (4096, 65536) := fun r hr => List.mem_singleton.mp hr
  refine ⟨?_, ?_, ?_, ht⟩
  · intro r hr
    cases hone r hr
    decide
  · intro r hr r' hr'
    left
    rw [hone r hr, hone r' hr']
  · intro r hr r' hr' _
    rw [hone r hr, hone r' hr']

/-- An object is made in an image that was loaded for writing. -/
theorem stored_inside_one : ∃ s, StoredInside imageData thing [97] 10000 s := by
  have hrun : ∃ s, (do
      let r ← Naming.loadRootWriteObject MMData.new 4096 65536
      let v ← Naming.newNamingObject boost r.2 thing [97] (granted 9000 10000)
      return (r.1, r.2, v)) oneBuffer = .ok (4112, imageData, 10000) s := by
    exact ⟨_, rfl⟩
  obtain ⟨s, hs⟩ := hrun
  obtain ⟨⟨p, d⟩, s₁, h₁, hs⟩ := run_of_bind hs
  obtain ⟨v, s₂, h₂, hs⟩ := run_of_bind hs
  cases hs
  have hstart : Handling boost MMData.new oneBuffer := by
    apply Handling.start
    apply buffers_of_one
    intro b t ht
    cases ht
  have H := hstart.writeLoad ⟨65536, List.mem_singleton.mpr rfl, by decide⟩ h₁
  exact ⟨_, (stored_inside_iff H h₂ (by decide)).mpr rfl⟩

/-- An object is made for an image that was loaded for reading. The allocator has no space,
and the object is on the heap of the process. -/
theorem stored_on_process_heap : ∃ d s s', Handling boost d s ∧
    Naming.newNamingObject boost d thing [97] (granted 9000 100000) s = .ok 100000 s' ∧
    ¬ StoredInside d thing [97] 100000 s' := by
  have hstart : Handling boost MMData.new emptyImage := by
    apply Handling.start
    apply buffers_of_one
    intro b t ht
    split at ht
    · rename_i hb
      cases ht
      exact hb.symm
    · cases ht
  have himage : ∃ t, emptyImage.tables 4096 = some t := ⟨_, rfl⟩
  refine ⟨_, _, _, hstart.readLoad himage, rfl, ?_⟩
  rintro ⟨t, e, r, _, _, _, _, hr, _, _, _, _, hin⟩
  cases List.mem_singleton.mp hr
  have hle : 100000 + 16 ≤ 4096 + 65536 := hin
  omega

end

end Mmdata.Naming
