import Mmdata.Proofs.NamingSpec

namespace Mmdata.Naming
open Lib Image

/-- A call that threw has left nothing: the tables have the entries they had, the blocks
are those that were allocated, and a later call for the name makes its object, unless the
name was taken before. It returns if its allocations are granted, as an allocator grants them. -/
structure LeftNothing (L : Boost) (d : MMData) (str : List UInt8) (s s' : Store) : Prop where
  entries : ∀ b, (s'.tables b).map NamingTable.nodes = (s.tables b).map NamingTable.nodes
  live : s'.live = s.live
  later : (∀ t, s.tables d.meta_ = some t → t.find str = none) →
    ∀ T r v s'', newNamingObject L d T str r s' = .ok v s'' → v ≠ 0
  returns : (∀ t, s.tables d.meta_ = some t → t.find str = none ∧ t.array ≤ s.live) →
    ∀ T r x s'', AllGranted L str r → newNamingObject L d T str r s' = .error x s'' →
      x = .impossible

section

variable {L : Boost} {d : MMData} {T : ObjectType} {s s' : Store} {str : List UInt8}
  {t : NamingTable} {r : NewAnswer} {v : Nat} {x : Thrown}

/-- A name that is not taken gets its object. -/
theorem newNamingObject_gives (h0 : d.meta_ ≠ 0) (ht : s.tables d.meta_ = some t)
    (hfree : t.find str = none) (hr : newNamingObject L d T str r s = .ok v s') : v ≠ 0 := by
  have hend : ends (newNamingObject L d T str r) (fun v _ => v ≠ 0) (fun _ _ => True) s := by
    apply ends_newNamingObject h0 ht (fun _ => trivial) (fun _ => trivial)
    · intro e he
      cases hfree.symm.trans he
    · intro e v t' s' _ M
      exact M.object
    · exact fun _ => trivial
    · exact fun _ _ _ _ _ => trivial
  have hv := ends_ok hend hr
  exact hv

theorem LeftNothing.refl (h0 : d.meta_ ≠ 0) (ht : s.tables d.meta_ = some t) :
    LeftNothing L d str s s := by
  refine ⟨fun _ => rfl, rfl, fun hfree T r v s'' hr => ?_, fun hfree T r x s'' hg hr => ?_⟩
  · exact newNamingObject_gives h0 ht (hfree t ht) hr
  · obtain ⟨hno, hold⟩ := hfree t ht
    have hx := ends_error (ends_newNamingObject_granted (T := T) h0 ht hno hold hg) hr
    exact hx

/-- An entry without its object is a trace. -/
theorem HalfDone.not_leftNothing (ht : s.tables d.meta_ = some t)
    (h : HalfDone L d s t str s') : ¬ LeftNothing L d str s s' := by
  intro hn
  obtain ⟨e, t', hnodes, _, _, _, _, _, htables, _⟩ := h.done
  have hentries := hn.entries d.meta_
  rw [htables, ht] at hentries
  simp only [Store.setTable, if_true, Option.map_some, Option.some.injEq, hnodes] at hentries
  have hlen := congrArg List.length hentries
  simp only [List.length_cons] at hlen
  omega

/-- `NewNamingObject` that throws has left nothing exactly if one of the allocations for
the entry was refused, and not that of the object or the constructor threw. -/
theorem new_leaves_nothing_iff (h0 : d.meta_ ≠ 0) (ht : s.tables d.meta_ = some t)
    (hr : newNamingObject L d T str r s = .error x s')
    (hx : x = .badAlloc ∨ x = .constructor) :
    LeftNothing L d str s s' ↔ ¬ EntryGranted L str r := by
  have hend : ends (newNamingObject L d T str r) (fun _ _ => True)
      (fun x s' => x = .badAlloc ∨ x = .constructor →
        (LeftNothing L d str s s' ↔ ¬ EntryGranted L str r)) s := by
    apply ends_newNamingObject h0 ht
    · intro s' hx
      cases hx with
      | inl hx => cases hx
      | inr hx => cases hx
    · intro s' hx
      cases hx with
      | inl hx => cases hx
      | inr hx => cases hx
    · exact fun _ _ => trivial
    · exact fun _ _ _ _ _ _ => trivial
    · intro hearly _
      exact iff_of_true (LeftNothing.refl h0 ht) hearly
    · intro x s' _ hgranted hhalf _
      exact iff_of_false (hhalf.not_leftNothing ht) fun hn => hn hgranted
  exact ends_error hend hr hx

/-- An image at 4096 whose table is empty. -/
def emptyImage : Store :=
  ⟨[(4096, 65536)], 0, 0, fun b => if b = 4096 then some ⟨4096, none, []⟩ else none⟩

def imageData : MMData := ⟨4096, 4096, ""⟩

def boost : Boost := ⟨23, 48, by decide⟩

def thing : ObjectType := ⟨16, by decide⟩

/-- The insertion is refused. -/
theorem new_leaves_nothing_refused : ∃ s', newNamingObject boost imageData thing [97]
      ⟨none, none, none, some 10000, true⟩ emptyImage = .error .badAlloc s' ∧
    LeftNothing boost imageData [97] emptyImage s' := by
  obtain ⟨s', hr⟩ : ∃ s', newNamingObject boost imageData thing [97]
      ⟨none, none, none, some 10000, true⟩ emptyImage = .error .badAlloc s' := ⟨_, rfl⟩
  refine ⟨s', hr, (new_leaves_nothing_iff (by decide) rfl hr (Or.inl rfl)).mpr ?_⟩
  intro hg
  exact hg.2 rfl

/-- There is room for the entry and none for the object. The name is taken from then on. -/
theorem new_leaves_entry : ∃ s', newNamingObject boost imageData thing [97]
      ⟨none, none, some ⟨9000, 0, none⟩, none, true⟩ emptyImage = .error .badAlloc s' ∧
    ¬ LeftNothing boost imageData [97] emptyImage s' := by
  refine ⟨_, rfl, ?_⟩
  intro hn
  have hfree : ∀ t, emptyImage.tables imageData.meta_ = some t → t.find [97] = none := by
    intro t ht
    cases ht
    rfl
  exact hn.later hfree thing ⟨none, none, some ⟨9100, 0, none⟩, some 10000, true⟩ 0 _ rfl rfl

end

end Mmdata.Naming
