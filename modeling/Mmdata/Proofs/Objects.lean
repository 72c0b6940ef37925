import Mathlib.Data.List.InsertIdx
import Mmdata.Lib.Objects
import Mmdata.Proofs.Contracts
import Mmdata.Proofs.Lives

namespace Mmdata.Proofs
open Lib Malloc

/-- The object in the block at `p`. -/
def objectAt (σ : State) (p : Nat) : List Cell :=
  (List.range (usableSize σ p)).map fun i => σ.byte (p + i)

/-- The objects of a client: what is in its live blocks. -/
def objects (σ : State) (live : List Nat) : List (List Cell) := live.map (objectAt σ)

/-- What a request asks of the objects. -/
def demand : Request → Demand Cell
  | .call (.malloc n) => .allocate n false
  | .call (.free k) => .release k
  | .call (.realloc k n) => .resize k n
  | .call (.write k i b) => .write k i (.known b)
  | .calloc n e => .allocate (n * e) true
  | .memalign _ n => .allocate n false
  | .independentCalloc n e into => .allocateEach (List.replicate n e) true into
  | .independentComalloc sizes into => .allocateEach sizes false into
  | .trim _ => .keep
  | .mallopt _ _ => .keep

section

variable {D : Trap → Prop} {σ τ : State} {base cap p q n e v s k i a chunks : Nat} {h h' : Heap}
  {live live' sizes ns : List Nat} {target into : Option Nat} {cs : List Chunk} {zero : Prop}
  {clear : Bool} {c : Call}

theorem length_objectAt : (objectAt σ p).length = usableSize σ p := by
  rw [objectAt, List.length_map, List.length_range]

theorem take_objectAt (hn : n ≤ usableSize σ p) :
    (objectAt σ p).take n = (List.range n).map fun i => σ.byte (p + i) := by
  rw [objectAt, ← List.map_take, List.take_range, Nat.min_eq_left hn]

/-- One byte is written. -/
theorem objectAt_set {b : Cell} (hsize : usableSize τ p = usableSize σ p)
    (hbytes : ∀ j < usableSize σ p, τ.byte (p + j) = if i = j then b else σ.byte (p + j)) :
    objectAt τ p = (objectAt σ p).set i b := by
  apply List.ext_getElem
  · rw [List.length_set, length_objectAt, length_objectAt, hsize]
  · intro j h1 _
    rw [length_objectAt, hsize] at h1
    rw [List.getElem_set]
    simp only [objectAt, List.getElem_map, List.getElem_range]
    exact hbytes j h1

theorem Preserved.objectAt (P : Preserved σ τ p q) : objectAt τ q = objectAt σ p := by
  unfold Proofs.objectAt
  rw [P.size]
  exact List.map_congr_left fun i hi => P.bytes i (List.mem_range.mp hi)

theorem objects_same (hall : ∀ p ∈ live, Preserved σ τ p p) : objects τ live = objects σ live :=
  List.map_congr_left fun p hp => (hall p hp).objectAt

theorem getElem?_objects (hk : live[k]? = some p) :
    (objects σ live)[k]? = some (Proofs.objectAt σ p) := by
  rw [objects, List.getElem?_map, hk]
  rfl

theorem objects_append : objects τ (live' ++ live) = objects τ live' ++ objects τ live :=
  List.map_append

theorem objects_set (hall : ∀ j p, live[j]? = some p → j ≠ k → Preserved σ τ p p) :
    objects τ (live.set k v) = (objects σ live).set k (objectAt τ v) := by
  unfold objects
  rw [List.map_set]
  apply List.ext_getElem?
  intro j
  by_cases hj : k = j
  · subst hj
    rw [List.getElem?_set, if_pos rfl, List.getElem?_set, if_pos rfl, List.length_map,
      List.length_map]
  · rw [List.getElem?_set_ne hj, List.getElem?_set_ne hj, List.getElem?_map, List.getElem?_map]
    cases hp : live[j]? with
    | none => rfl
    | some p => exact congrArg some (hall j p hp (Ne.symm hj)).objectAt

theorem objects_eraseIdx (hall : ∀ j p, live[j]? = some p → j ≠ k → Preserved σ τ p p) :
    objects τ (live.eraseIdx k) = (objects σ live).eraseIdx k := by
  unfold objects
  rw [List.eraseIdx_map]
  apply List.map_congr_left
  intro p hp
  obtain ⟨j, hne, hj⟩ := List.mem_eraseIdx_iff_getElem?.mp hp
  exact (hall j p hj hne).objectAt

theorem Answered.same_objects (A : Answered σ base cap live h none live' τ h')
    (L : Living σ base cap live h) : objects τ live = objects σ live := by
  apply objects_same
  intro p hp
  obtain ⟨j, hj⟩ := List.mem_iff_getElem?.mp hp
  exact (A.preserved L hj fun he => by contradiction).2

theorem Answered.other_objects (A : Answered σ base cap live h (some k) live' τ h')
    (L : Living σ base cap live h) :
    ∀ j p, live[j]? = some p → j ≠ k → Preserved σ τ p p :=
  fun _ _ hj hne => (A.preserved L hj fun he => hne (Option.some.inj he).symm).2

theorem Given.allocated (G : Given σ base cap live h n v s τ h') (L : Living σ base cap live h)
    (hz : clear = true → ∀ b, v + 16 ≤ b → b < v + 16 + n → τ.byte b = .known 0) :
    Becomes (.known 0) (.allocate n clear) (objects σ live) (objects τ ((v + 16) :: live)) := by
  have hsize := G.grants.ok.usableSize_eq (G.grants.mem List.mem_cons_self)
  have hlarge := G.large
  have hfit : n ≤ usableSize τ (v + 16) := by omega
  rw [← G.answered.same_objects L]
  refine .allocated (by rwa [length_objectAt]) fun hc y hy => ?_
  rw [take_objectAt hfit] at hy
  obtain ⟨i, hi, rfl⟩ := List.mem_map.mp hy
  have hi' := List.mem_range.mp hi
  exact hz hc _ (by omega) (by omega)

/-! The calls. -/

theorem Outcome.write_heap {m lo hi : Nat} {b : UInt8}
    (R : Outcome σ m lo hi h live (.write k i b) v live' τ h') : h' = h := by
  cases R with
  | nothing => rfl
  | written => rfl

theorem wp_shape {x : Code (Nat × List Nat)} (hx : ∀ r υ, x σ = .ok (r, υ) → r.2 = live') :
    wp (fun _ => True) x (fun r _ => r.2 = live') σ := by
  unfold wp
  cases hr : x σ with
  | ok r => exact hx _ _ hr
  | error e => trivial

theorem wp_released {ms : Nat} :
    wp (fun _ => True) (perform ms live (.free k)) (fun r _ => r.2 = live.eraseIdx k) σ := by
  apply wp_shape
  intro r υ hr
  simp only [perform] at hr
  cases hk : live[k]? with
  | none =>
    rw [hk] at hr
    cases hr
    exact (List.eraseIdx_of_length_le (List.getElem?_eq_none_iff.mp hk)).symm
  | some p =>
    rw [hk] at hr
    obtain ⟨_, _, _, hr⟩ := bind_ok hr
    cases hr
    rfl

/-- A client writes inside its block, or not at all. -/
theorem Living.wp_written {b : UInt8} (L : Living σ base cap live h) :
    wp (fun _ => True) (perform (base + 64) live (.write k i b)) (fun r τ => r.2 = live ∧
      ∀ p s, live[k]? = some (p + 16) → (p, s) ∈ h.live →
        ∀ j < s - 8, τ.byte (p + 16 + j) = if i = j then .known b else σ.byte (p + 16 + j)) σ := by
  simp only [perform]
  cases hk : live[k]? with
  | none => exact ⟨rfl, fun p s hp => by contradiction⟩
  | some x =>
    obtain ⟨p, s, rfl, hp⟩ := L.held.blocks.chunk hk
    have hb := L.held.ok.core.chunk_bounds (mem_live.mp hp)
    have hsame : ∀ q t, some (p + 16) = some (q + 16) → (q, t) ∈ h.live → q = p ∧ t = s := by
      intro q t hq ht
      obtain rfl : p = q := by
        have he := Option.some.inj hq
        omega
      have h1 := L.held.ok.usableSize_eq hp
      have h2 := L.held.ok.usableSize_eq ht
      have hb' := L.held.ok.core.chunk_bounds (mem_live.mp ht)
      simp only at hb hb'
      omega
    simp only at hb
    simp only [wp_bind]
    apply L.held.ok.wp_usableSize hp
    by_cases hi : i < s - 8
    · rw [wp_if_pos hi, wp_bind, wp_store (L.held.ok.core.arena.covers (by omega) (by omega))]
      refine ⟨rfl, fun q t hq ht j hj => ?_⟩
      obtain ⟨rfl, rfl⟩ := hsame q t hq ht
      simp only [Machine.put, storeLE]
      by_cases hij : i = j
      · subst hij
        simp
      · rw [if_neg hij, if_neg (by omega)]
    · rw [wp_if_neg hi]
      refine ⟨rfl, fun q t hq ht j hj => ?_⟩
      obtain ⟨rfl, rfl⟩ := hsame q t hq ht
      rw [if_neg (by omega)]

theorem Living.wp_called (L : Living σ base cap live h) :
    wp D (perform (base + 64) live c)
      (fun r τ => Becomes (.known 0) (demand (.call c)) (objects σ live) (objects τ r.2)) σ := by
  have O := L.held.ok
  cases c with
  | malloc n =>
    apply wp_mono L.wp_call
    intro r τ hend
    obtain ⟨v, live'⟩ := r
    obtain ⟨h', A, R⟩ := hend
    have hlarge : v ≠ 0 → n ≤ usableSize τ v := fun hv => (R.result rfl hv).2.2
    cases R with
    | nothing => exact .refused trivial
    | @given _ v =>
      have hfit : n ≤ usableSize τ (v + 16) := hlarge (Nat.succ_ne_zero _)
      change Becomes (.known 0) (.allocate n false) _ (objectAt τ (v + 16) :: objects τ live)
      rw [← A.same_objects L]
      refine .allocated ?_ fun hc => absurd hc Bool.false_ne_true
      rwa [length_objectAt]
  | free k =>
    apply wp_mono (wp_also L.wp_call wp_released)
    intro r τ hend
    obtain ⟨⟨h', A, _⟩, hlive⟩ := hend
    rw [hlive, objects_eraseIdx (A.other_objects L)]
    exact .released
  | realloc k n =>
    apply wp_mono L.wp_call
    intro r τ hend
    obtain ⟨v, live'⟩ := r
    obtain ⟨h', A, R⟩ := hend
    have hlarge : v ≠ 0 → n ≤ usableSize τ v := fun hv => (R.result rfl hv).2.2
    have hkept : ∀ p, live[k]? = some p → v ≠ 0 →
        ∀ i < min (usableSize σ p) n, τ.byte (v + i) = σ.byte (p + i) :=
      fun p hk hv i hi => R.kept O hk hv hi
    cases R with
    | nothing => exact .refused trivial
    | @resized _ _ p s v _ _ _ hk _ _ =>
      have hfit : n ≤ usableSize τ (v + 16) := hlarge (Nat.succ_ne_zero _)
      change Becomes (.known 0) (.resize k n) _ (objects τ (live.set k (v + 16)))
      rw [objects_set (A.other_objects L)]
      apply Becomes.resized (getElem?_objects hk)
      · rwa [length_objectAt]
      · rw [length_objectAt, take_objectAt (by omega), take_objectAt (Nat.min_le_left _ _)]
        exact List.map_congr_left fun i hi => hkept _ hk (Nat.succ_ne_zero _) i (List.mem_range.mp hi)
  | write k i b =>
    apply wp_mono (wp_also L.wp_call L.wp_written)
    intro r τ hend
    obtain ⟨⟨h', A, R⟩, hlive, hbytes⟩ := hend
    obtain rfl := R.write_heap
    have hwrote : objects τ live = (objects σ live).modify k fun x => x.set i (.known b) := by
      apply List.ext_getElem?
      intro j
      rw [List.getElem?_modify, objects, objects, List.getElem?_map, List.getElem?_map]
      cases hj : live[j]? with
      | none => rfl
      | some x =>
        change some (objectAt τ x) =
          some (if k = j then (objectAt σ x).set i (.known b) else objectAt σ x)
        by_cases hkj : k = j
        · subst hkj
          obtain ⟨p, s, rfl, hp⟩ := L.held.blocks.chunk hj
          have hsize := O.usableSize_eq hp
          rw [if_pos rfl, objectAt_set]
          · rw [hsize, A.living.held.ok.usableSize_eq hp]
          · rw [hsize]
            exact hbytes p s hj hp
        · rw [if_neg hkj, (A.other_objects L j x hj (Ne.symm hkj)).objectAt]
    rw [hlive, hwrote]
    exact .written

/-! The arrays. -/

theorem GivenArray.allocated (L : Living σ base cap live h) (hns : ∀ y ∈ ns, y < maxRequest)
    (hA : ArrayOf live h ns.length into chunks)
    (G : GivenArray σ base cap live h (ns.map request2size) zero into chunks a cs τ h')
    (hz : clear = true → zero) :
    Becomes (.known 0) (.allocateEach ns clear into) (objects σ live)
      (objects τ (withElements live chunks a cs)) := by
  have ht : ∀ k, into = some k → live[k]? = some chunks := by
    intro k hk
    cases hA with
    | own => contradiction
    | given hk' _ _ =>
      cases hk
      exact hk'
  obtain ⟨hdist, hzero⟩ := G.distributed L hns hA ht
  have hroom := hdist.room
  have hsizes : List.Forall₂ (fun n x => n ≤ x.length) ns
      ((cs.map fun c => chunk2mem c.addr).map (objectAt τ)) := by
    apply List.forall₂_map_right_iff.mpr
    apply hdist.sizes.imp
    intro n p hp
    rwa [length_objectAt]
  have hclear : clear = true →
      ∀ x ∈ (cs.map fun c => chunk2mem c.addr).map (objectAt τ), ∀ y ∈ x, y = .known 0 := by
    intro hc x hx y hy
    obtain ⟨p, hp, rfl⟩ := List.mem_map.mp hx
    obtain ⟨i, hi, rfl⟩ := List.mem_map.mp hy
    exact hzero (hz hc) p hp i (List.mem_range.mp hi)
  have hne := hdist.array
  have hkept := hdist.new.kept
  have A := G.answered
  unfold withElements
  cases hA with
  | own =>
    rw [if_pos rfl, objects_append]
    change Becomes _ _ _ (_ ++ objectAt τ a :: objects τ live)
    rw [← A.same_objects L]
    refine .allocatedEach hsizes hclear ?_
    rwa [length_objectAt]
  | @given k p s hk hp hs =>
    obtain rfl := hne (by omega)
    have hsame : live.set k (p + 16) = live := by
      obtain ⟨hlt, hget⟩ := List.getElem?_eq_some_iff.mp hk
      rw [← hget]
      exact List.set_getElem_self hlt
    have hset := objects_set (v := p + 16) (A.other_objects L)
    rw [hsame] at hset
    have hlen := (hkept _ (List.mem_of_getElem? hk)).1
    rw [if_neg (by omega), objects_append, hset]
    refine .allocatedInto hsizes hclear (getElem?_objects hk) ?_ ?_
    · rw [length_objectAt]
      omega
    · rw [length_objectAt, length_objectAt, hlen]

/-! Every request. -/

theorem Given.wp_allocated {v : Nat} (G : Given σ base cap live h n v s τ h')
    (L : Living σ base cap live h)
    (hz : clear = true → ∀ b, v + 16 ≤ b → b < v + 16 + n → τ.byte b = .known 0) :
    wp D (pure (v + 16, if v + 16 = 0 then live else (v + 16) :: live))
      (fun r υ => Becomes (.known 0) (.allocate n clear) (objects σ live) (objects υ r.2)) τ := by
  rw [wp_pure, if_neg (by omega)]
  exact G.allocated L hz

/-- What the objects of a client become is what it asked for. -/
theorem Living.wp_objects {q : Request} (L : Living σ base cap live h) (hq : q.Fair) :
    wp D (serve (base + 64) live q)
      (fun r τ => Becomes (.known 0) (demand q) (objects σ live) (objects τ r.2)) σ := by
  cases q with
  | call c => exact L.wp_called
  | calloc n e =>
    rw [serve, wp_bind]
    apply L.wp_calloc
    · exact fun _ => .refused trivial
    · exact fun v s τ h' _ G hz => G.wp_allocated L fun _ => hz
  | memalign alignment bytes =>
    rw [serve, wp_bind]
    apply L.wp_memalign hq
    · exact fun _ => .refused trivial
    · exact fun v s j τ h' G _ _ _ => G.wp_allocated L fun hc => absurd hc Bool.false_ne_true
  | independentCalloc n e into =>
    rw [serve, wp_bind]
    apply L.wp_arrayFor
    · exact .refused trivial
    · intro chunks hA
      rw [wp_bind]
      apply L.wp_independentCalloc hq hA
      · exact fun _ => .refused trivial
      · intro a cs τ h' G
        obtain ⟨S, hsup⟩ := G.supplies
        rw [← List.map_replicate] at G
        have hrun : wp D (collect live chunks (List.replicate n (request2size e)).length a)
            (fun r τ => Becomes (.known 0) (demand (.independentCalloc n e into)) (objects σ live)
              (objects τ r.2)) τ :=
          hsup.wp_collect (G.allocated L (replicate_lt hq.1) hA.replicate fun _ => trivial)
        rwa [List.length_replicate] at hrun
  | independentComalloc sizes into =>
    rw [serve, wp_bind]
    apply L.wp_arrayFor
    · exact .refused trivial
    · intro chunks hA
      rw [wp_bind]
      apply L.wp_independentComalloc hq hA
      · exact fun _ => .refused trivial
      · intro a cs τ h' G
        obtain ⟨S, hsup⟩ := G.supplies
        have hrun : wp D (collect live chunks (sizes.map request2size).length a)
            (fun r τ => Becomes (.known 0) (demand (.independentComalloc sizes into))
              (objects σ live) (objects τ r.2)) τ :=
          hsup.wp_collect (G.allocated L hq.1 hA fun hc => absurd hc Bool.false_ne_true)
        rwa [List.length_map] at hrun
  | trim pad =>
    rw [serve, wp_bind]
    apply wp_mono L.wp_trim
    intro _ τ A
    change Becomes _ .keep _ (objects τ live)
    rw [A.same_objects L]
    exact .kept
  | mallopt paramNumber value =>
    rw [serve, wp_bind]
    obtain ⟨page, _, hp⟩ := L.settled.page
    apply L.wp_mallopt hp
    · exact fun _ => .kept
    · intro _ A
      change Becomes _ .keep _ (objects _ live)
      rw [A.same_objects L]
      exact .kept

end

end Mmdata.Proofs
