import Mmdata.Image.Handles

namespace Mmdata.Proofs
open Image

/-- Handles of one value have one space, and so have the blocks allocated with it. -/
structure Kin (s : Handles) : Prop where
  handles : ∀ a b, ∀ x ∈ s.handle a, ∀ y ∈ s.handle b, x.line = y.line → x.space = y.space
  lent : ∀ l ∈ s.lent, ∀ a, ∀ x ∈ s.handle a, l.line = x.line → x.space = l.space
  fresh : (∀ a, ∀ x ∈ s.handle a, x.line < s.next) ∧ ∀ l ∈ s.lent, l.line < s.next

section

variable {s : Handles} {b c : Nat} {h x : Handle}

theorem mem_set (hx : x ∈ (s.set b h).handle c) :
    c = b ∧ x = h ∨ c ≠ b ∧ x ∈ s.handle c := by
  by_cases hc : c = b
  · subst hc
    simp only [Handles.set, Function.update_self, Option.mem_some_iff] at hx
    exact Or.inl ⟨rfl, hx.symm⟩
  · simp only [Handles.set, Function.update_of_ne hc] at hx
    exact Or.inr ⟨hc, hx⟩

/-- Every handle has the value and the space that some handle had before. -/
theorem Kin.of_old {s' : Handles} (K : Kin s)
    (hold : ∀ c, ∀ x ∈ s'.handle c, ∃ d, ∃ z ∈ s.handle d, x.space = z.space ∧ x.line = z.line)
    (hl : s'.lent = s.lent) (hn : s'.next = s.next) : Kin s' := by
  refine ⟨?_, ?_, ?_, ?_⟩
  · intro c d x hx z hz he
    obtain ⟨c', x', hx', hsx, hlx⟩ := hold c x hx
    obtain ⟨d', z', hz', hsz, hlz⟩ := hold d z hz
    rw [hsx, hsz]
    exact K.handles c' d' x' hx' z' hz' (hlx.symm.trans (he.trans hlz))
  · intro l hm c x hx he
    obtain ⟨c', x', hx', hsx, hlx⟩ := hold c x hx
    rw [hl] at hm
    rw [hsx]
    exact K.lent l hm c' x' hx' (he.trans hlx)
  · intro c x hx
    obtain ⟨c', x', hx', _, hlx⟩ := hold c x hx
    rw [hlx, hn]
    exact K.fresh.1 c' x' hx'
  · rw [hl, hn]
    exact K.fresh.2

theorem Kin.set_old (K : Kin s) {a : Nat} {y : Handle} (hy : y ∈ s.handle a)
    (hs : h.space = y.space) (hl : h.line = y.line) : Kin (s.set b h) := by
  refine K.of_old ?_ rfl rfl
  intro c x hx
  cases mem_set hx with
  | inl hx =>
    obtain ⟨_, rfl⟩ := hx
    exact ⟨a, y, hy, hs, hl⟩
  | inr hx => exact ⟨c, x, hx.2, rfl, rfl⟩

/-- A handle gets a value of its own. -/
theorem Kin.set_new (K : Kin s) (space : Nat) :
    Kin { s.set b ⟨space, s.next⟩ with next := s.next + 1 } := by
  refine ⟨?_, ?_, ?_, ?_⟩
  · intro c d x hx z hz he
    cases mem_set hx with
    | inl hx =>
      obtain ⟨_, rfl⟩ := hx
      cases mem_set hz with
      | inl hz => rw [hz.2]
      | inr hz =>
        have hlt := K.fresh.1 d z hz.2
        simp only at he
        omega
    | inr hx =>
      have hltx := K.fresh.1 c x hx.2
      cases mem_set hz with
      | inl hz =>
        obtain ⟨_, rfl⟩ := hz
        simp only at he
        omega
      | inr hz => exact K.handles c d x hx.2 z hz.2 he
  · intro l hl c x hx he
    cases mem_set hx with
    | inl hx =>
      obtain ⟨_, rfl⟩ := hx
      have hlt := K.fresh.2 l hl
      simp only at he
      omega
    | inr hx => exact K.lent l hl c x hx.2 he
  · intro c x hx
    cases mem_set hx with
    | inl hx =>
      obtain ⟨_, rfl⟩ := hx
      exact Nat.lt_succ_self _
    | inr hx => exact Nat.lt_succ_of_lt (K.fresh.1 c x hx.2)
  · exact fun l hl => Nat.lt_succ_of_lt (K.fresh.2 l hl)

theorem copyConstruct_eq (other : Nat) : copyConstruct other = other := by
  unfold copyConstruct
  split
  · rfl
  · omega

theorem convertConstruct_eq (other : Nat) : convertConstruct other = other :=
  copyConstruct_eq other

theorem assign_eq_iff (self other : Nat) :
    assign self other = other ↔ (other = 0 → self = 0) := by
  unfold assign
  split
  · rename_i h
    exact iff_of_true rfl fun h0 => absurd h0 h
  · omega

/-- An operation that keeps the spaces keeps handles and blocks of one value together. -/
theorem Kin.step (K : Kin s) (op : HandleOp) (hc : KeepsSpaces s op) : Kin (s.apply op) := by
  cases op with
  | construct b => exact K.set_new 0
  | fromInfo b space => exact K.set_new space
  | copy b a =>
    cases hx : s.handle a with
    | none => simpa only [Handles.apply, hx] using K
    | some x =>
      simp only [Handles.apply, hx]
      exact K.set_old hx (copyConstruct_eq x.space) rfl
  | convert b a =>
    cases hx : s.handle a with
    | none => simpa only [Handles.apply, hx] using K
    | some x =>
      simp only [Handles.apply, hx]
      exact K.set_old hx (convertConstruct_eq x.space) rfl
  | assign b a =>
    cases hy : s.handle b with
    | none => simpa only [Handles.apply, hy] using K
    | some y =>
      cases hx : s.handle a with
      | none => simpa only [Handles.apply, hy, hx] using K
      | some x =>
        simp only [Handles.apply, hy, hx]
        exact K.set_old hx ((assign_eq_iff _ _).mpr (hc x hx y hy)) rfl
  | swap a b =>
    cases hx : s.handle a with
    | none => simpa only [Handles.apply, hx] using K
    | some x =>
      cases hy : s.handle b with
      | none => simpa only [Handles.apply, hx, hy] using K
      | some y =>
        have he : x.space = y.space := hc x hx y hy
        simp only [Handles.apply, hx, hy]
        -- the spaces stay where they are, which is right as they are the same
        refine K.of_old ?_ rfl rfl
        intro c u hu
        cases mem_set hu with
        | inl hu =>
          obtain ⟨_, rfl⟩ := hu
          exact ⟨a, x, hx, he.symm, rfl⟩
        | inr hu =>
          cases mem_set hu.2 with
          | inl hu =>
            obtain ⟨_, rfl⟩ := hu
            exact ⟨b, y, hy, he, rfl⟩
          | inr hu => exact ⟨c, u, hu.2, rfl, rfl⟩
  | allocate a addr =>
    cases hx : s.handle a with
    | none => simpa only [Handles.apply, hx] using K
    | some x =>
      simp only [Handles.apply, hx]
      refine ⟨K.handles, ?_, K.fresh.1, ?_⟩
      · intro l hl c y hy he
        cases List.mem_cons.mp hl with
        | inl h =>
          subst h
          exact K.handles c a y hy x hx he.symm
        | inr h => exact K.lent l h c y hy he
      · intro l hl
        cases List.mem_cons.mp hl with
        | inl h =>
          subst h
          exact K.fresh.1 a x hx
        | inr h => exact K.fresh.2 l h
  | deallocate b addr =>
    refine ⟨K.handles, ?_, K.fresh.1, ?_⟩
    · exact fun l hl => K.lent l (List.mem_filter.mp hl).1
    · exact fun l hl => K.fresh.2 l (List.mem_filter.mp hl).1

/-- A handle that is set to the space of `a` equals `a`. -/
theorem equal_set {a : Nat} (hx : x ∈ s.handle a) (hs : h.space = x.space) :
    (s.set b h).Equal a b := by
  have hfst : ∀ z ∈ (s.set b h).handle a, z.space = x.space := by
    intro z hz
    cases mem_set hz with
    | inl hz => rw [hz.2, hs]
    | inr hz => rw [Option.mem_unique hz.2 hx]
  intro z hz w hw
  cases mem_set hw with
  | inl hw => rw [hfst z hz, hw.2, hs]
  | inr hw => exact absurd rfl hw.1

theorem Kin.faithful (K : Kin s) (op : HandleOp) (hc : KeepsSpaces s op) : Faithful s op := by
  cases op with
  | construct b =>
    intro y hy
    cases mem_set hy with
    | inl hy => rw [hy.2]
    | inr hy => exact absurd rfl hy.1
  | fromInfo b space =>
    intro y hy
    cases mem_set hy with
    | inl hy => rw [hy.2]
    | inr hy => exact absurd rfl hy.1
  | copy b a =>
    cases hx : s.handle a with
    | none =>
      intro x hx'
      simp [Handles.apply, hx] at hx'
    | some x =>
      simp only [Faithful, Handles.apply, hx]
      exact equal_set hx (copyConstruct_eq x.space)
  | convert b a =>
    cases hx : s.handle a with
    | none =>
      intro x hx'
      simp [Handles.apply, hx] at hx'
    | some x =>
      simp only [Faithful, Handles.apply, hx]
      exact equal_set hx (convertConstruct_eq x.space)
  | assign b a =>
    cases hy : s.handle b with
    | none =>
      intro x _ y hy'
      simp [Handles.apply, hy] at hy'
    | some y =>
      cases hx : s.handle a with
      | none =>
        intro x hx'
        simp [Handles.apply, hy, hx] at hx'
      | some x =>
        simp only [Faithful, Handles.apply, hy, hx]
        exact equal_set hx ((assign_eq_iff _ _).mpr (hc x hx y hy))
  | swap a b =>
    intro x hx y hy
    have he : x.space = y.space := hc x hx y hy
    rw [Option.mem_def] at hx hy
    simp only [Handles.apply, hx, hy]
    constructor
    · intro x' hx'
      cases mem_set hx' with
      | inl h => rw [h.2]; rfl
      | inr h =>
        cases mem_set h.2 with
        | inl h => rw [h.2]; exact he
        | inr h => exact absurd rfl h.1
    · intro y' hy'
      cases mem_set hy' with
      | inl h => rw [h.2]; exact he.symm
      | inr h => exact absurd rfl h.1
  | allocate a addr => trivial
  | deallocate b addr => exact fun y hy l hl _ he => K.lent l hl b y hy he

/-- An assignment or a swap that does what it is for keeps the spaces. -/
theorem Faithful.keeps (op : HandleOp) (hf : Faithful s op) : KeepsSpaces s op := by
  cases op with
  | assign b a =>
    intro x hx y hy h0
    by_cases hab : a = b
    · subst hab
      rwa [Option.mem_unique hy hx]
    · rw [Option.mem_def] at hx hy
      simp only [Faithful, Handles.apply, hx, hy] at hf
      have he : x.space = assign y.space x.space := by
        apply hf x _ ⟨assign y.space x.space, x.line⟩
        · simp [Handles.set]
        · simpa [Handles.set, Function.update_of_ne hab] using hx
      exact (assign_eq_iff _ _).mp he.symm h0
  | swap a b =>
    intro x hx y hy
    obtain ⟨_, hb⟩ := hf x hx y hy
    rw [Option.mem_def] at hx hy
    simp only [Handles.apply, hx, hy] at hb
    exact (hb ⟨y.space, x.line⟩ (by simp [Handles.set, swap])).symm
  | _ => trivial

end

/-- Over any run, the handles carry their spaces exactly when no handle of an image is assigned
the null space and no two of different spaces are swapped. -/
theorem handles_faithful_iff (ops : List HandleOp) :
    Along Faithful ops Handles.start ↔ Along KeepsSpaces ops Handles.start := by
  have hrun : ∀ ops s, Kin s → (Along Faithful ops s ↔ Along KeepsSpaces ops s) := by
    intro ops
    induction ops with
    | nil => exact fun s _ => Iff.rfl
    | cons op ops ih =>
      intro s K
      constructor
      · rintro ⟨hf, hrest⟩
        have hc := Faithful.keeps op hf
        exact ⟨hc, (ih _ (K.step op hc)).mp hrest⟩
      · rintro ⟨hc, hrest⟩
        exact ⟨K.faithful op hc, (ih _ (K.step op hc)).mpr hrest⟩
  apply hrun
  refine ⟨?_, ?_, ?_, ?_⟩ <;> simp [Handles.start]

/-- A default-constructed allocator is assigned to that of an image, and a block of the
C library is then released into the image. -/
theorem assigned_null_is_lost :
    ¬ Along Faithful
      [.construct 0, .fromInfo 1 4096, .allocate 0 100000, .assign 1 0, .deallocate 1 100000]
      Handles.start := by
  rintro ⟨_, _, _, h, _⟩
  have he := h ⟨0, 0⟩ rfl ⟨4096, 0⟩ rfl
  cases he

end Mmdata.Proofs
