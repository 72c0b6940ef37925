import Mathlib.Logic.Function.Basic
import Mmdata.Proofs.Opening
import Mmdata.Proofs.Relocating

namespace Mmdata.Proofs
open Lib Malloc Image

/-- A process uses images, in any order: memory is mapped and unmapped, allocators are created
and images used, and other memory changes. Beside each image runs the process in which it is
the only one. -/
inductive Interleaved (K : Objects) : State → Images → Prop
  | start {σ : State} {k : Nat} : 12 ≤ k → σ.glob.pageSize = 2 ^ k →
      (∀ m ∈ σ.maps, 4096 ≤ m.1) → Interleaved K σ fun _ => none
  | map {σ : State} {is : Images} {a n : Nat} {f : Nat → Cell} : Interleaved K σ is → 4096 ≤ a →
      (∀ m ∈ σ.maps, m.2 ≤ a ∨ a + n ≤ m.1) → Interleaved K (mapAt a n f σ) is
  | unmap {σ : State} {is : Images} {a n : Nat} : Interleaved K σ is →
      Interleaved K (unmapAt a n σ) (is.without a n)
  | forget {σ : State} {is : Images} {name : Nat} : Interleaved K σ is →
      Interleaved K σ (Function.update is name none)
  | elsewhere {σ τ : State} {is : Images} : Interleaved K σ is →
      Frame (fun a => ∀ name i, is name = some i → OutOf i.buf i.size a) σ τ → Interleaved K τ is
  | unused {σ τ : State} {is : Images} {buf size : Nat} {d : MMData} {r : Int × MMData} :
      Interleaved K σ is → Site σ is buf size → createAllocator K d buf size σ = .ok (r, τ) →
      Interleaved K τ is
  | created {σ τ α : State} {is : Images} {name buf size ms : Nat} {d d' : MMData}
      {r : Int × MMData} : Interleaved K σ is → Site σ is buf size →
      createAllocator K d buf size σ = .ok ((0, d'), τ) →
      createAllocator K d buf size (aloneWith σ buf size) = .ok (r, α) →
      result (getMspace buf) τ = some ms → ms ≠ 0 →
      Interleaved K τ (Function.update is name (some ⟨buf, size, ms, [], α⟩))
  | operated {σ τ α : State} {is : Images} {name : Nat} {i : Opened} {op : ImageOp}
      {r r' : Nat × List Nat} : Interleaved K σ is → is name = some i → ParamsOwn i σ op →
      operate i.buf i.ms i.live op σ = .ok (r, τ) →
      operate i.buf i.ms i.live op i.alone = .ok (r', α) →
      Interleaved K τ (Function.update is name (some { i with live := r.2, alone := α }))

/-- The code does the same in both processes: it returns the same, with the same bytes in the
buffer, and changes nothing else in the first, or it stops in both. -/
def SameThere {α : Type} (buf size : Nat) (x : Code α) (σ τ : State) : Prop :=
  (∃ r σ' τ', x σ = .ok (r, σ') ∧ x τ = .ok (r, τ') ∧ OnlyIn buf size σ σ' ∧
      ∀ a, buf ≤ a → a < buf + size → τ'.byte a = σ'.byte a) ∨
    ∃ e, x σ = .error e ∧ x τ = .error e

section

variable {K : Objects} {σ τ : State} {is : Images} {i : Opened} {buf size name a n k : Nat}
  {d : MMData} {f : Nat → Cell} {op : ImageOp}

/-- The open images are apart, and each is as it would be without the others. -/
structure Undisturbed (σ : State) (is : Images) : Prop where
  page : ∃ k, 12 ≤ k ∧ σ.glob.pageSize = 2 ^ k
  low : ∀ m ∈ σ.maps, 4096 ≤ m.1
  mirrored : ∀ name i, is name = some i → Mirrored i σ
  apart : ∀ m n i j, is m = some i → is n = some j → m ≠ n → Separate i.buf i.size j.buf j.size

theorem Mirrored.mapped (M : Mirrored i σ) :
    ∃ r ∈ σ.maps, r.1 ≤ i.buf ∧ i.buf + i.size ≤ r.2 := by
  obtain ⟨C, hsrc, hC, hsize, S⟩ := M.mirror
  obtain ⟨r, hr, h1, h2⟩ := S.mapped
  exact ⟨r, hr, by omega, by omega⟩

theorem Mirrored.bytes (M : Mirrored i σ) :
    ∀ a, i.buf ≤ a → a < i.buf + i.size → i.alone.byte a = σ.byte a := by
  intro a h1 h2
  obtain ⟨C, hsrc, hC, hsize, S⟩ := M.mirror
  have hb := S.bytes (a - C.src) (by omega)
  rwa [hC, show C.src + (a - C.src) = a by omega] at hb

theorem Mirrored.large (M : Mirrored i σ) : 0 < i.size := by
  obtain ⟨cap, I⟩ := M.sited
  have hfits := I.fits
  omega

/-- What leaves the buffer of an image alone leaves the image. -/
theorem Mirrored.kept (M : Mirrored i σ)
    (hmap : ∃ r ∈ τ.maps, r.1 ≤ i.buf ∧ i.buf + i.size ≤ r.2)
    (hb : ∀ a, i.buf ≤ a → a < i.buf + i.size → τ.byte a = σ.byte a)
    (hp : τ.glob.pageSize = σ.glob.pageSize) : Mirrored i τ := by
  obtain ⟨⟨C, hsrc, hC, hsize, S⟩, hsited, hms⟩ := M
  refine ⟨⟨C, hsrc, hC, hsize, S.only, ?_, ?_, S.page.1, hp.trans S.page.2⟩, hsited, hms⟩
  · rwa [hC, hsrc, hsize]
  · intro j hj
    rw [hb (C.dst + j) (by omega) (by omega)]
    exact S.bytes j hj

theorem Mirrored.onlyIn (M : Mirrored i σ) (hO : OnlyIn buf size σ τ)
    (hA : Separate i.buf i.size buf size) : Mirrored i τ := by
  refine M.kept (hO.maps ▸ M.mapped) ?_ hO.page
  intro a h1 h2
  apply hO.byte
  unfold Separate at hA
  unfold OutOf
  omega

theorem Undisturbed.onlyIn (P : Undisturbed σ is) (hO : OnlyIn buf size σ τ)
    (hA : ∀ name i, is name = some i → Separate i.buf i.size buf size) : Undisturbed τ is := by
  refine ⟨?_, hO.maps ▸ P.low, fun name i hi => (P.mirrored name i hi).onlyIn hO (hA name i hi),
    P.apart⟩
  obtain ⟨k, hk, hp⟩ := P.page
  exact ⟨k, hk, hO.page.trans hp⟩

theorem Undisturbed.map (P : Undisturbed σ is) (ha : 4096 ≤ a)
    (hfree : ∀ m ∈ σ.maps, m.2 ≤ a ∨ a + n ≤ m.1) : Undisturbed (mapAt a n f σ) is := by
  refine ⟨P.page, ?_, ?_, P.apart⟩
  · intro m hm
    cases List.mem_cons.mp hm with
    | inl hm => exact hm ▸ ha
    | inr hm => exact P.low m hm
  · intro name i hi
    have M := P.mirrored name i hi
    obtain ⟨r, hr, h1, h2⟩ := M.mapped
    refine M.kept ⟨r, List.mem_cons_of_mem _ hr, h1, h2⟩ ?_ rfl
    intro b hb1 hb2
    have hout := hfree r hr
    exact if_neg (by omega)

theorem without_of_separate (hi : is name = some i) (hs : Separate i.buf i.size a n) :
    is.without a n name = some i :=
  Option.filter_eq_some_iff.mpr ⟨hi, decide_eq_true hs⟩

theorem Undisturbed.unmap (P : Undisturbed σ is) :
    Undisturbed (unmapAt a n σ) (is.without a n) := by
  have hstays : ∀ name i, is.without a n name = some i →
      is name = some i ∧ Separate i.buf i.size a n := by
    intro name i hi
    obtain ⟨hi, hs⟩ := Option.filter_eq_some_iff.mp hi
    exact ⟨hi, of_decide_eq_true hs⟩
  refine ⟨P.page, fun m hm => P.low m (List.mem_filter.mp hm).1, ?_, ?_⟩
  · intro name i hi
    obtain ⟨hi, hs⟩ := hstays name i hi
    have M := P.mirrored name i hi
    obtain ⟨r, hr, h1, h2⟩ := M.mapped
    have hlarge := M.large
    have hne : r ≠ (a, a + n) := by
      rintro rfl
      unfold Separate at hs
      simp only at h1 h2
      omega
    exact M.kept ⟨r, List.mem_filter.mpr ⟨hr, decide_eq_true hne⟩, h1, h2⟩ (fun _ _ _ => rfl) rfl
  · intro m n i j hi hj hne
    exact P.apart m n i j (hstays m i hi).1 (hstays n j hj).1 hne

theorem update_some {m : Nat} {j : Option Opened} (h : Function.update is name j m = some i) :
    (m = name ∧ j = some i) ∨ (m ≠ name ∧ is m = some i) := by
  by_cases hm : m = name
  · subst hm
    rw [Function.update_self] at h
    exact Or.inl ⟨rfl, h⟩
  · rw [Function.update_of_ne hm] at h
    exact Or.inr ⟨hm, h⟩

theorem Undisturbed.update {j : Option Opened} (P : Undisturbed σ is)
    (hM : ∀ i, j = some i → Mirrored i σ)
    (hA : ∀ i, j = some i → ∀ m i', is m = some i' → m ≠ name →
      Separate i'.buf i'.size i.buf i.size) :
    Undisturbed σ (Function.update is name j) := by
  refine ⟨P.page, P.low, ?_, ?_⟩
  · intro m i hi
    cases update_some hi with
    | inl h => exact hM i h.2
    | inr h => exact P.mirrored m i h.2
  · intro m m' i i' hi hi' hne
    cases update_some hi with
    | inl h =>
      cases update_some hi' with
      | inl h' => exact absurd (h.1.trans h'.1.symm) hne
      | inr h' => exact (hA i h.2 m' i' h'.2 h'.1).symm
    | inr h =>
      cases update_some hi' with
      | inl h' => exact hA i' h'.2 m i h.2 h.1
      | inr h' => exact P.apart m m' i i' h.2 h'.2 hne

theorem Undisturbed.elsewhere (P : Undisturbed σ is)
    (hf : Frame (fun a => ∀ name i, is name = some i → OutOf i.buf i.size a) σ τ) :
    Undisturbed τ is := by
  refine ⟨hf.glob ▸ P.page, hf.maps ▸ P.low, ?_, P.apart⟩
  intro name i hi
  have M := P.mirrored name i hi
  refine M.kept (hf.maps ▸ M.mapped) ?_ (by rw [hf.glob])
  intro a h1 h2
  apply hf.byte
  intro hout
  have ho := hout name i hi
  unfold OutOf at ho
  omega

/-- An image is opened, or used, in a buffer apart from the others. -/
theorem Undisturbed.replace {i : Opened} (P : Undisturbed σ is) (hO : OnlyIn i.buf i.size σ τ)
    (hA : ∀ m j, is m = some j → m ≠ name → Separate j.buf j.size i.buf i.size)
    (M : Mirrored i τ) : Undisturbed τ (Function.update is name (some i)) := by
  have hothers : ∀ m j, Function.update is name none m = some j →
      is m = some j ∧ m ≠ name := by
    intro m j hj
    cases update_some hj with
    | inl h => exact absurd h.2 (Option.some_ne_none j).symm
    | inr h => exact ⟨h.2, h.1⟩
  have hnone : Undisturbed σ (Function.update is name none) :=
    P.update (by simp) (by simp)
  have hother : Undisturbed τ (Function.update is name none) := by
    apply hnone.onlyIn hO
    intro m j hj
    exact hA m j (hothers m j hj).1 (hothers m j hj).2
  have hall : Undisturbed τ (Function.update (Function.update is name none) name (some i)) := by
    apply hother.update
    · intro j hj
      cases hj
      exact M
    · intro j hj m i' hi' hne
      cases hj
      exact hA m i' (hothers m i' hi').1 hne
  rwa [Function.update_idem] at hall

theorem Undisturbed.operate (P : Undisturbed σ is) (hi : is name = some i)
    (hp : ParamsOwn i σ op) :
    (∃ r σ' α, Image.operate i.buf i.ms i.live op σ = .ok (r, σ') ∧
        Image.operate i.buf i.ms i.live op i.alone = .ok (r, α) ∧ OnlyIn i.buf i.size σ σ' ∧
        Mirrored { i with live := r.2, alone := α } σ' ∧
        Undisturbed σ' (Function.update is name (some { i with live := r.2, alone := α }))) ∨
      ∃ e, Image.operate i.buf i.ms i.live op σ = .error e ∧
        Image.operate i.buf i.ms i.live op i.alone = .error e := by
  cases (P.mirrored name i hi).operate hp with
  | inr hstop => exact Or.inr hstop
  | inl hok =>
    obtain ⟨r, σ', α, hσ, hα, M', hO⟩ := hok
    refine Or.inl ⟨r, σ', α, hσ, hα, hO, M', P.replace hO ?_ M'⟩
    intro m j hj hne
    exact P.apart m name j i hj hi hne

theorem Undisturbed.create {z : Int} (hz : z = size) (P : Undisturbed σ is) (hK : TableFixed K buf)
    (S : Site σ is buf size) :
    (∃ r σ' α, createAllocator K d buf z σ = .ok (r, σ') ∧
        createAllocator K d buf z (aloneWith σ buf size) = .ok (r, α) ∧
        OnlyIn buf size σ σ' ∧ (∀ a, buf ≤ a → a < buf + size → α.byte a = σ'.byte a) ∧
        Undisturbed σ' is ∧ ∀ ms, r.1 = 0 → result (getMspace buf) σ' = some ms → ms ≠ 0 →
          ∀ name, Undisturbed σ' (Function.update is name (some ⟨buf, size, ms, [], α⟩))) ∨
      ∃ e, createAllocator K d buf z σ = .error e ∧
        createAllocator K d buf z (aloneWith σ buf size) = .error e := by
  obtain ⟨k, hk, hpage⟩ := P.page
  cases create_mirrored (d := d) hz hK hk hpage P.low S.align S.small S.word S.mapped with
  | inr hstop => exact Or.inr hstop
  | inl hok =>
    obtain ⟨r, σ', α, hσ, hα, hO, hb, hM⟩ := hok
    refine Or.inl ⟨r, σ', α, hσ, hα, hO, hb, P.onlyIn hO S.apart, ?_⟩
    intro ms hrc hms hne name
    exact P.replace (i := ⟨buf, size, ms, [], α⟩) hO (fun m j hj _ => S.apart m j hj)
      (hM ms hrc hms hne)

theorem Undisturbed.unused {z : Int} {r : Int × MMData} (hz : z = size) (P : Undisturbed σ is)
    (hK : TableFixed K buf) (S : Site σ is buf size)
    (hr : createAllocator K d buf z σ = .ok (r, τ)) : Undisturbed τ is := by
  cases P.create hz hK S with
  | inl hok =>
    obtain ⟨_, _, _, hσ, _, _, _, P', _⟩ := hok
    rw [hr] at hσ
    cases hσ
    exact P'
  | inr hstop =>
    obtain ⟨_, hσ, _⟩ := hstop
    rw [hr] at hσ
    contradiction

theorem Undisturbed.created {z : Int} {r : Int × MMData} {d' : MMData} {ms : Nat} {α : State}
    (hz : z = size) (P : Undisturbed σ is) (hK : TableFixed K buf) (S : Site σ is buf size)
    (hr : createAllocator K d buf z σ = .ok ((0, d'), τ))
    (hr' : createAllocator K d buf z (aloneWith σ buf size) = .ok (r, α))
    (hms : result (getMspace buf) τ = some ms) (hne : ms ≠ 0) :
    Undisturbed τ (Function.update is name (some ⟨buf, size, ms, [], α⟩)) := by
  cases P.create hz hK S with
  | inl hok =>
    obtain ⟨_, _, _, hσ, hα, _, _, _, hopen⟩ := hok
    rw [hr] at hσ
    rw [hr'] at hα
    cases hσ
    cases hα
    exact hopen ms rfl hms hne name
  | inr hstop =>
    obtain ⟨_, hσ, _⟩ := hstop
    rw [hr] at hσ
    contradiction

theorem Undisturbed.operated {r r' : Nat × List Nat} {α : State} (P : Undisturbed σ is)
    (hi : is name = some i) (hp : ParamsOwn i σ op)
    (hr : Image.operate i.buf i.ms i.live op σ = .ok (r, τ))
    (hr' : Image.operate i.buf i.ms i.live op i.alone = .ok (r', α)) :
    Undisturbed τ (Function.update is name (some { i with live := r.2, alone := α })) := by
  cases P.operate hi hp with
  | inl hok =>
    obtain ⟨_, _, _, hσ, hα, _, _, P'⟩ := hok
    rw [hr] at hσ
    rw [hr'] at hα
    cases hσ
    cases hα
    exact P'
  | inr hstop =>
    obtain ⟨_, hσ, _⟩ := hstop
    rw [hr] at hσ
    contradiction

theorem interleaved_undisturbed (hK : ∀ buf, TableFixed K buf) (R : Interleaved K σ is) :
    Undisturbed σ is := by
  induction R with
  | start hk hpage hlow =>
    exact ⟨⟨_, hk, hpage⟩, hlow, fun _ _ h => by contradiction, fun _ _ _ _ h => by contradiction⟩
  | map _ ha hfree ih => exact ih.map ha hfree
  | unmap _ ih => exact ih.unmap
  | forget _ ih => exact ih.update (by simp) (by simp)
  | elsewhere _ hf ih => exact ih.elsewhere hf
  | unused _ S hr ih => exact ih.unused rfl (hK _) S hr
  | created _ S hr hr' hms hne ih => exact ih.created rfl (hK _) S hr hr' hms hne
  | operated _ hi hp hr hr' ih => exact ih.operated hi hp hr hr'

theorem Undisturbed.create_same {z : Int} (hz : z = size) (P : Undisturbed σ is)
    (hK : TableFixed K buf) (S : Site σ is buf size) :
    SameThere buf size (createAllocator K d buf z) σ (aloneWith σ buf size) := by
  cases P.create hz hK S with
  | inr hstop => exact Or.inr hstop
  | inl hok =>
    obtain ⟨r, σ', α, hσ, hα, hO, hb, _⟩ := hok
    exact Or.inl ⟨r, σ', α, hσ, hα, hO, hb⟩

/-- Every operation on an open image, and every creation, does what it does in a process that
maps nothing but the buffer, and changes nothing outside it. -/
theorem images_independent (hK : ∀ buf, TableFixed K buf) (R : Interleaved K σ is) :
    (∀ name i, is name = some i → i.alone.maps = [(i.buf, i.buf + i.size)] ∧
      (∃ r ∈ σ.maps, r.1 ≤ i.buf ∧ i.buf + i.size ≤ r.2) ∧
      (∀ a, i.buf ≤ a → a < i.buf + i.size → i.alone.byte a = σ.byte a) ∧
      ∀ op, ParamsOwn i σ op →
        SameThere i.buf i.size (operate i.buf i.ms i.live op) σ i.alone) ∧
    ∀ buf size d, Site σ is buf size →
      SameThere buf size (createAllocator K d buf size) σ (aloneWith σ buf size) := by
  have P := interleaved_undisturbed hK R
  constructor
  · intro name i hi
    have M := P.mirrored name i hi
    refine ⟨?_, M.mapped, M.bytes, fun op hp => ?_⟩
    · obtain ⟨C, hsrc, _, hsize, S⟩ := M.mirror
      rw [S.only, hsrc, hsize]
    · cases P.operate hi hp with
      | inr hstop => exact Or.inr hstop
      | inl hok =>
        obtain ⟨r, σ', α, hσ, hα, hO, M', _⟩ := hok
        exact Or.inl ⟨r, σ', α, hσ, hα, hO, M'.bytes⟩
  · exact fun buf size d S => P.create_same rfl (hK buf) S

/-- A process that maps nothing. -/
def blank : State := ⟨fun _ => .known 0, [], ⟨0, 4096⟩⟩

/-- The process with one image of 4 MiB, in which there is one block. -/
def oneBlock : Code (Int × Nat × List Nat) := do
  become (mapAt (2 ^ 22) (2 ^ 22) fun _ => .known 0)
  let c ← createAllocator zeroTable .new (2 ^ 22) (2 ^ 22 : Nat)
  let r ← operate (2 ^ 22) 4198464 [] (.call (.malloc 100))
  return (c.1, r)

theorem site_mapAt (h0 : buf ≠ 0) (h8 : buf % 8 = 0) (h63 : size < 2 ^ 63)
    (hword : buf + size ≤ 2 ^ 64)
    (hA : ∀ name i, is name = some i → Separate i.buf i.size buf size) :
    Site (mapAt buf size f σ) is buf size :=
  ⟨h0, h8, h63, hword, ⟨_, List.mem_cons_self, Nat.le_refl _, Nat.le_refl _⟩, hA⟩

/-- A block is allocated in a new image. -/
theorem Interleaved.block {σ₁ σ₂ α₁ α₂ : State} {z : Int} {d' : MMData} {c r r' ms bytes}
    (hz : z = size) (I : Interleaved K σ is) (S : Site σ is buf size)
    (hc : createAllocator K d buf z σ = .ok ((0, d'), σ₁))
    (hc' : createAllocator K d buf z (aloneWith σ buf size) = .ok (c, α₁))
    (hms : result (getMspace buf) σ₁ = some ms) (hne : ms ≠ 0)
    (hr : operate buf ms [] (.call (.malloc bytes)) σ₁ = .ok (r, σ₂))
    (hr' : operate buf ms [] (.call (.malloc bytes)) α₁ = .ok (r', α₂)) :
    Interleaved K σ₂ (Function.update is name (some ⟨buf, size, ms, r.2, α₂⟩)) := by
  subst hz
  have I₁ : Interleaved K σ₁ (Function.update is name (some ⟨buf, size, ms, [], α₁⟩)) :=
    .created I S hc hc' hms hne
  have hp : ParamsOwn ⟨buf, size, ms, [], α₁⟩ σ₁ (.call (.malloc bytes)) := by
    refine Or.inr fun c hc => ?_
    cases hc
    rintro ⟨h, _, hT⟩
    exact hT
  have I₂ := Interleaved.operated I₁ (Function.update_self _ _ _) hp hr hr'
  rwa [Function.update_idem] at I₂

theorem blank_mapped : Interleaved zeroTable (mapAt (2 ^ 22) (2 ^ 22) (fun _ => .known 0) blank)
      (fun _ => none) ∧
    Site (mapAt (2 ^ 22) (2 ^ 22) (fun _ => .known 0) blank) (fun _ => none) (2 ^ 22)
      (2 ^ 22) := by
  have I : Interleaved zeroTable blank fun _ => none :=
    .start (Nat.le_refl 12) rfl fun m hm => absurd hm List.not_mem_nil
  exact ⟨.map I (by decide) fun m hm => absurd hm List.not_mem_nil,
    site_mapAt (by decide) (by decide) (by decide) (by decide) fun _ i h => absurd h (Option.some_ne_none i).symm⟩

set_option maxRecDepth 100000 in
theorem oneBlock_interleaved : ∃ σ α, oneBlock blank = .ok ((0, 4199400, [4199400]), σ) ∧
    Interleaved zeroTable σ
      (Function.update (fun _ => none) 0 (some ⟨2 ^ 22, 2 ^ 22, 4198464, [4199400], α⟩)) ∧
    result (operate (2 ^ 22) 4198464 [4199400] (.call (.free 0))) α = some (0, []) := by
  have hrun : result oneBlock blank = some (0, 4199400, [4199400]) := by
    decide +kernel
  have hms : result (do
      become (mapAt (2 ^ 22) (2 ^ 22) fun _ => .known 0)
      let _ ← createAllocator zeroTable .new (2 ^ 22) (2 ^ 22 : Nat)
      getMspace (2 ^ 22)) blank = some 4198464 := by
    decide +kernel
  have halone : result (do
      let c ← createAllocator zeroTable .new (2 ^ 22) (2 ^ 22 : Nat)
      let r ← operate (2 ^ 22) 4198464 [] (.call (.malloc 100))
      let f ← operate (2 ^ 22) 4198464 [4199400] (.call (.free 0))
      return (r, f)) (aloneWith (mapAt (2 ^ 22) (2 ^ 22) (fun _ => .known 0) blank) (2 ^ 22)
        (2 ^ 22)) = some ((4199400, [4199400]), 0, []) := by
    decide +kernel
  obtain ⟨σ, hσ⟩ := result_ok hrun
  have hone := hσ
  unfold oneBlock at hone
  obtain ⟨_, _, hmap, hrest⟩ := bind_ok hone
  cases hmap
  obtain ⟨⟨rc, d⟩, σ₂, hc, hrest⟩ := bind_ok hrest
  obtain ⟨r, σ₃, hr, hpure⟩ := bind_ok hrest
  obtain ⟨hout, rfl⟩ := Prod.mk.inj (Except.ok.inj hpure)
  obtain ⟨rfl, rfl⟩ : rc = 0 ∧ r = (4199400, [4199400]) := by
    simpa only [Prod.mk.injEq] using hout
  rw [result_bind rfl, result_bind hc] at hms
  obtain ⟨_, hα⟩ := result_ok halone
  obtain ⟨c', α₁, hc', hrest'⟩ := bind_ok hα
  obtain ⟨r', α₂, hr', hrest'⟩ := bind_ok hrest'
  obtain ⟨f, α₃, hf, hpure'⟩ := bind_ok hrest'
  obtain ⟨hout', rfl⟩ := Prod.mk.inj (Except.ok.inj hpure')
  obtain ⟨_, rfl⟩ : r' = (4199400, [4199400]) ∧ f = (0, []) := by
    simpa only [Prod.mk.injEq] using hout'
  exact ⟨σ₃, α₂, hσ, blank_mapped.1.block rfl blank_mapped.2 hc hc' hms (by decide) hr hr', by
    simp only [result, hf]⟩

set_option maxRecDepth 100000 in
/-- Another image is created and unmapped. The block of the first can be freed where the other
never was, the process stops over the unmapped parameters, and a further block can be given. -/
theorem unmapped_interleaved : ∃ σ is α, Interleaved zeroTable σ is ∧
    is 0 = some ⟨2 ^ 22, 2 ^ 22, 4198464, [4199400], α⟩ ∧
    result (operate (2 ^ 22) 4198464 [4199400] (.call (.free 0))) α = some (0, []) ∧
    result (operate (2 ^ 22) 4198464 [4199400] (.call (.free 0))) σ = none ∧
    result (operate (2 ^ 22) 4198464 [4199400] (.call (.malloc 7))) σ =
      some (4199512, [4199512, 4199400]) := by
  have hrun : result (do
      let r ← oneBlock
      become (mapAt (2 ^ 23) 65536 fun _ => .known 0)
      let c ← createAllocator zeroTable .new (2 ^ 23) (65536 : Nat)
      become (unmapAt (2 ^ 23) 65536)
      let v ← operate (2 ^ 22) 4198464 [4199400] (.call (.malloc 7))
      return (r, c.1, v)) blank =
        some ((0, 4199400, [4199400]), 0, 4199512, [4199512, 4199400]) := by
    decide +kernel
  have hmaps : (oneBlock blank).toOption.map (fun p => p.2.maps) = some [(2 ^ 22, 2 ^ 23)] := by
    decide +kernel
  have hstop : result (do
      let _ ← oneBlock
      become (mapAt (2 ^ 23) 65536 fun _ => .known 0)
      let _ ← createAllocator zeroTable .new (2 ^ 23) (65536 : Nat)
      become (unmapAt (2 ^ 23) 65536)
      operate (2 ^ 22) 4198464 [4199400] (.call (.free 0))) blank = none := by
    decide +kernel
  obtain ⟨σ, α, hone, I, halone⟩ := oneBlock_interleaved
  rw [hone] at hmaps
  have hσ : σ.maps = [(2 ^ 22, 2 ^ 23)] := Option.some.inj hmaps
  rw [result_bind hone, result_bind rfl] at hrun hstop
  obtain ⟨_, hτ⟩ := result_ok hrun
  obtain ⟨c, τ, hc, hrest⟩ := bind_ok hτ
  obtain ⟨_, _, hun, hrest⟩ := bind_ok hrest
  cases hun
  obtain ⟨v, ω, hv, hpure⟩ := bind_ok hrest
  obtain ⟨hout, _⟩ := Prod.mk.inj (Except.ok.inj hpure)
  obtain ⟨_, rfl⟩ : c.1 = 0 ∧ v = (4199512, [4199512, 4199400]) := by
    simpa only [Prod.mk.injEq, true_and] using hout
  rw [result_bind hc, result_bind rfl] at hstop
  have I₁ := I.map (a := 2 ^ 23) (n := 65536) (f := fun _ => .known 0) (by decide) fun m hm => by
    rw [hσ, List.mem_singleton] at hm
    rw [hm]
    exact Or.inl (Nat.le_refl _)
  have S : Site (mapAt (2 ^ 23) 65536 (fun _ => .known 0) σ) (Function.update (fun _ => none) 0
      (some ⟨2 ^ 22, 2 ^ 22, 4198464, [4199400], α⟩)) (2 ^ 23) 65536 := by
    apply site_mapAt (by decide) (by decide) (by decide) (by decide)
    intro name i hi
    cases update_some hi with
    | inl h =>
      rw [← Option.some.inj h.2]
      exact Or.inl (show 2 ^ 22 + 2 ^ 22 ≤ 2 ^ 23 by decide)
    | inr h => exact absurd h.2 (Option.some_ne_none i).symm
  have I₂ := (I₁.unused S hc).unmap (a := 2 ^ 23) (n := 65536)
  have hsep : Separate (2 ^ 22) (2 ^ 22) (2 ^ 23) 65536 := Or.inl (by decide)
  exact ⟨_, _, α, I₂, without_of_separate (Function.update_self _ _ _) hsep, halone, hstop, by
    simp only [result, hv]⟩

/-- Another image has been created and unmapped, and a further block of the first is allocated
as if it had not been. -/
theorem images_independent_block : ∃ σ α,
    SameThere (2 ^ 22) (2 ^ 22) (operate (2 ^ 22) 4198464 [4199400] (.call (.malloc 7))) σ α ∧
    result (operate (2 ^ 22) 4198464 [4199400] (.call (.malloc 7))) σ =
      some (4199512, [4199512, 4199400]) := by
  obtain ⟨σ, is, α, I, hi, _, _, hmalloc⟩ := unmapped_interleaved
  obtain ⟨_, _, _, hop⟩ := (images_independent zeroTable_fixed I).1 0 _ hi
  refine ⟨σ, α, hop (.call (.malloc 7)) (Or.inr fun c hc => ?_), hmalloc⟩
  cases hc
  rintro ⟨h, _, hT⟩
  exact hT

/-- The block of the first image can be freed where the other never was, and the process stops
over the unmapped parameters. -/
theorem unmapped_params : ∃ σ is i, Interleaved zeroTable σ is ∧ is 0 = some i ∧
    result (operate i.buf i.ms i.live (.call (.free 0))) i.alone = some (0, []) ∧
    result (operate i.buf i.ms i.live (.call (.free 0))) σ = none := by
  obtain ⟨σ, is, α, I, hi, halone, hstop, _⟩ := unmapped_interleaved
  exact ⟨σ, is, _, I, hi, halone, hstop⟩

end

end Mmdata.Proofs
