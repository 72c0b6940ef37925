import Mmdata.Proofs.Shadow
import Mmdata.Proofs.Views

namespace Mmdata.Proofs
open Lib Malloc Relocation

/-- The buffer of `size` bytes at `src`, and the place `dst` that its bytes are copied to, in
processes with one page size. -/
structure Copying where
  src : Nat
  dst : Nat
  size : Nat
  page : Nat
  low : 64 ≤ src
  pos : 0 < dst
  srcWord : src + size ≤ 2 ^ 64
  dstWord : dst + size ≤ 2 ^ 64
  align : src % 8 = dst % 8

theorem same_get {c d : Cell} {b : UInt8} (h : c = d) (hc : c.get? = some b) :
    d.get? = some b := h ▸ hc

theorem same_low {c d : Cell} {v : Nat} (h : c = d) (hc : c.low? = some v) :
    d.low? = some v := h ▸ hc

theorem same_setLow {c d : Cell} (h : c = d) : c.setLow = d.setLow := congrArg Cell.setLow h

theorem same_unknown {c d : Cell} (_ : True) (h : c = d) (hc : c.get? = none) :
    d.get? = none := h ▸ hc

theorem same_unknownLow {c d : Cell} (_ : True) (h : c = d) (hc : c.low? = none) :
    d.low? = none := h ▸ hc

/-- The parameters are copied too, when the first process has them in the buffer. -/
def Copying.relocation (C : Copying) : Relocation Globals where
  src := C.src
  dst := C.dst
  size := C.size
  cell := Eq
  glob := fun g g' => (g.pageSize = C.page ∧ g'.pageSize = C.page) ∧
    (C.src ≤ g.pmparams + mallocParamsSize → g.pmparams + C.dst = g'.pmparams + C.src)
  exact := True
  low := C.low
  pos := C.pos
  srcWord := C.srcWord
  dstWord := C.dstWord
  align := C.align
  known := known_stays
  get := same_get
  lowBit := same_low
  setLow := same_setLow
  exactGet := same_unknown
  exactLow := same_unknownLow

/-- The bytes alone, whatever the processes have for parameters. -/
def Copying.bare (C : Copying) : Relocation Globals :=
  { C.relocation with glob := fun _ _ => True }

/-- An address of the buffer at `a`, moved to the buffer at `b`; null stays null. -/
def rebase (a b v : Nat) : Nat := if v = 0 then 0 else v + b - a

def Copying.place (C : Copying) : Nat → Nat := rebase C.src C.dst

/-- A process maps the buffer at `src` and nothing else, and another has its bytes at `dst`. -/
structure Copied (C : Copying) (V σ : State) : Prop where
  only : V.maps = [(C.src, C.src + C.size)]
  mapped : ∃ r ∈ σ.maps, r.1 ≤ C.dst ∧ C.dst + C.size ≤ r.2
  bytes : ∀ i < C.size, V.byte (C.src + i) = σ.byte (C.dst + i)
  page : V.glob.pageSize = C.page ∧ σ.glob.pageSize = C.page

/-- Two processes have the bytes of one buffer, in which an mspace holds the blocks. -/
structure Twin (C C' : Copying) (base cap : Nat) (live : List Nat) (σ τ : State) : Prop where
  src : C'.src = C.src
  size : C'.size = C.size
  low : C.src ≤ base
  high : base + cap ≤ C.src + C.size
  shared : ∃ V h, Copied C V σ ∧ Copied C' V τ ∧ Held V base cap live h

/-- The call makes top exceed the trim threshold. -/
def Trims (σ : State) (ms : Nat) (live : List Nat) (c : Call) : Prop :=
  ∃ h, Sound σ ms h ∧ CallTrims σ ms h live c

section

variable {C C' : Copying} {L : Relocation Globals} {V V' σ τ : State} {base cap v : Nat} {h : Heap} {live live' : List Nat}
  {c : Call} {r : Nat × List Nat} {e : Trap}

theorem copying_params : ParamsMove C.relocation := by
  rintro g g' ⟨⟨hpage, hpage'⟩, hpm⟩
  refine ⟨hpage.trans hpage'.symm, ?_⟩
  intro o ho hle
  have h1 : C.src ≤ g.pmparams + o := hle
  have h2 := hpm (by omega)
  exact ⟨hle, show g.pmparams + o + C.dst = g'.pmparams + o + C.src by omega⟩

theorem copying_aims : AimsMove C.relocation := by
  rintro g g' p p' ⟨hpage, _⟩ ⟨_, hp⟩
  exact ⟨hpage, fun _ => hp⟩

theorem copying_moves {a : Nat} (h : C.src ≤ a) : C.relocation.Moves a (C.place a) := by
  have hlow := C.low
  have hne : a ≠ 0 := by omega
  refine ⟨h, ?_⟩
  show a + C.dst = C.place a + C.src
  rw [Copying.place, rebase, if_neg hne]
  omega

theorem moves_place {a b : Nat} (h : C.relocation.Moves a b) : b = C.place a := by
  have hlow := C.low
  obtain ⟨h1, h2⟩ := h
  have h1 : C.src ≤ a := h1
  have h2 : a + C.dst = b + C.src := h2
  rw [Copying.place, rebase, if_neg (by omega)]
  omega

theorem mem_place {a b : Nat} (h : MemMoves C.relocation a b) : b = C.place a := by
  cases h with
  | inl h =>
    obtain ⟨rfl, rfl⟩ := h
    rfl
  | inr h =>
    obtain ⟨p, p', hp, rfl, rfl⟩ := h
    exact moves_place (hp.add 16)

theorem live_place (h : LiveMoves C.relocation live live') : live' = live.map C.place := by
  induction h with
  | nil => rfl
  | cons hv _ ih => rw [List.map_cons, ih, mem_place (Or.inr hv)]

/-- The process without other memory, with its parameters at `v`. -/
theorem Copied.view (S : Copied C V σ) (hv : v = 0 ∨ C.src ≤ v ∧ σ.glob.pmparams = C.place v) :
    C.relocation.Match (aimed V v) σ := by
  refine ⟨S.only, S.mapped, S.bytes, S.page, ?_⟩
  intro hle
  cases hv with
  | inl h0 =>
    subst h0
    have hlow := C.low
    have hsmall : C.src ≤ 0 + mallocParamsSize := hle
    simp only [mallocParamsSize] at hsmall
    omega
  | inr hv =>
    have h2 := (copying_moves hv.1).2
    show v + C.dst = σ.glob.pmparams + C.src
    rw [hv.2]
    exact h2

/-- A call returns, and the mspace holds the blocks, or it stops over the granularity. -/
theorem Held.wp_call (H : Held σ base cap live h) (hm : σ.mapped (base + 16) 8 = true)
    (hT : CallTrims σ (base + 64) h live c → σ.glob.pmparams = base) :
    wp Leftover (perform (base + 64) live c) (fun r σ' => Frame (Within (base + 64) (base + cap))
      σ σ' ∧ ∃ h', Held σ' base cap r.2 h') σ := by
  have hstep : wp Leftover (perform (base + 64) live c) (fun r σ' => ∃ h',
      Outcome σ (base + 64) (base + 48) (base + cap) h live c r.1 r.2 σ' h') σ := by
    apply H.ok.wp_perform H.blocks
    intro hcall
    have hbase := hT hcall
    refine ⟨Or.inl ?_, ?_, fun _ => Or.inl rfl, fun _ => Or.inr rfl⟩
    · omega
    · rw [hbase]
      exact hm
  apply wp_mono hstep
  rintro r σ' ⟨h', hR⟩
  exact ⟨hR.frame H.ok, h', H.outcome hR⟩

theorem place_add {a : Nat} (h : C.src ≤ a) (k : Nat) : C.place (a + k) = C.place a + k := by
  have hmove := copying_moves h
  have hsum := moves_place (hmove.add k)
  exact hsum.symm

/-- The blocks of the mspace, and where they are in the copy. -/
theorem Held.live_moves (H : Held V base cap live h) (hlo : C.src ≤ base) :
    LiveMoves C.relocation live (live.map C.place) := by
  have hall : ∀ x ∈ live, BlockMoves C.relocation x (C.place x) := by
    intro x hx
    obtain ⟨k, hk⟩ := List.getElem?_of_mem hx
    obtain ⟨p, s, rfl, hp⟩ := H.blocks.chunk hk
    have hb := H.ok.core.chunk_bounds (mem_live.mp hp)
    simp only at hb
    have hsrc : C.src ≤ p := by omega
    exact ⟨p, C.place p, copying_moves hsrc, rfl, place_add hsrc 16⟩
  exact List.forall₂_map_right_iff.mpr (List.forall₂_same.mpr hall)

/-- What returns in the process without other memory returns in the other process, with the
same bytes. -/
theorem Copied.run {α β : Type} {x : Code α} {y : Code β} {R : α → β → Prop} {r : α}
    (hA : C.relocation.Alike x y R) (S : Copied C V σ)
    (hv : v = 0 ∨ C.src ≤ v ∧ σ.glob.pmparams = C.place v) (hr : x (aimed V v) = .ok (r, V')) :
    ∃ r' σ', y σ = .ok (r', σ') ∧ R r r' ∧ Copied C V' σ' ∧ C.relocation.Inside σ σ' ∧
      (C.src ≤ V'.glob.pmparams → σ'.glob.pmparams = C.place V'.glob.pmparams) := by
  have hstep := hA (aimed V v) σ (S.view hv)
  rw [hr] at hstep
  obtain ⟨r', σ', hσ, hR, M, hI⟩ := hstep
  refine ⟨r', σ', hσ, hR, ⟨M.only, M.mapped, M.cells, M.glob.1⟩, hI, ?_⟩
  intro hle
  exact moves_place ⟨hle, M.glob.2 (Nat.le_trans hle (Nat.le_add_right _ _))⟩

/-- So does what stops. -/
theorem Copied.stop {α β : Type} {x : Code α} {y : Code β} {R : α → β → Prop}
    (hA : C.relocation.Alike x y R) (S : Copied C V σ)
    (hv : v = 0 ∨ C.src ≤ v ∧ σ.glob.pmparams = C.place v) (he : Leftover e)
    (hr : x (aimed V v) = .error e) : y σ = .error e := by
  have hstep := hA (aimed V v) σ (S.view hv)
  rw [hr] at hstep
  exact hstep (leftover_loud trivial he)

/-- A call in the copy. -/
theorem Copying.call (H : Held V base cap live h) (hlo : C.src ≤ base) :
    C.relocation.Alike (perform (base + 64) live c)
      (perform (C.place (base + 64)) (live.map C.place) c) (StepMoves C.relocation) :=
  alike_perform copying_params (copying_moves (by omega)) (H.live_moves hlo) c

theorem step_place {r r' : Nat × List Nat} (h : StepMoves C.relocation r r') :
    r' = (C.place r.1, r.2.map C.place) := by
  rw [← mem_place h.1, ← live_place h.2]

theorem step_inside {r r' : Nat × List Nat} (h : StepMoves C.relocation r r') :
    r.1 = 0 ∨ C.src ≤ r.1 := by
  cases h.1 with
  | inl h => exact Or.inl h.1
  | inr h =>
    obtain ⟨p, p', hp, he, _⟩ := h
    rw [he]
    exact Or.inr (Nat.le_trans hp.1 (Nat.le_add_right _ _))

theorem place_same (hC : C.dst = C.src) (v : Nat) : C.place v = v := by
  unfold Copying.place rebase
  split
  · omega
  · omega

theorem live_same (hC : C.dst = C.src) (l : List Nat) : l.map C.place = l := by
  have hid : C.place = id := funext (place_same hC)
  rw [hid, List.map_id]

theorem Copied.bare (S : Copied C V σ) : C.bare.Match V σ :=
  ⟨S.only, S.mapped, S.bytes, trivial⟩

theorem Copied.shows (S : Copied C V σ) (hC : C.dst = C.src) : Shows V σ := S.bare.shows hC

/-- What is shown of the bytes decides whether a moved block makes top exceed the trim threshold. -/
theorem MoveTrims.still {m p s n : Nat} (T : MoveTrims V m p s n) (M : L.Match V σ)
    (hL : L.dst = L.src) (hm : L.src ≤ m) : MoveTrims σ m p s n := by
  obtain ⟨v, V', lo, hi, h', hr, hv, O, hF⟩ := T
  have hmove : L.Moves m m := ⟨hm, by rw [hL]⟩
  have hstep := @alike_mspaceMalloc L m m n hmove V σ M
  rw [hr] at hstep
  obtain ⟨v', σ', hσ, hR, M', _⟩ := hstep
  have S := M'.shows hL
  exact ⟨v', σ', lo, hi, h', hσ, fun h0 => hv (hR.zero_iff.mpr h0), O.shows S, hF.shows S⟩

theorem CallTrims.still {m : Nat} (T : CallTrims V m h live c) (M : L.Match V σ) (hL : L.dst = L.src)
    (hm : L.src ≤ m) : CallTrims σ m h live c := by
  have S := M.shows hL
  cases c with
  | malloc n => exact T
  | write k i b => exact T
  | free k =>
    obtain ⟨p, s, hk, hp, hF⟩ := T
    exact ⟨p, s, hk, hp, hF.shows S⟩
  | realloc k n =>
    obtain ⟨p, s, hk, hp, hmax, htop, hT⟩ := T
    refine ⟨p, s, hk, hp, hmax, htop, ?_⟩
    cases hT with
    | inl hT => exact Or.inl ⟨hT.1, hT.2.shows S⟩
    | inr hT => exact Or.inr ⟨hT.1, hT.2.still M hL hm⟩

/-- Two runs that return alike, and leave the bytes alike. -/
structure Together (C C' : Copying) (base cap : Nat) (σ τ : State) (r r' : Nat × List Nat)
    (σ' τ' : State) : Prop where
  result : r' = (C'.place r.1, r.2.map C'.place)
  offset : r.1 = 0 ∨ C.src ≤ r.1
  twin : Twin C C' base cap r.2 σ' τ'
  frame : Frame (Within (base + 64) (base + cap)) σ σ'
  inside : C'.relocation.Inside τ τ'

theorem Copied.trims (S : Copied C V σ) (hC : C.dst = C.src) (hlo : C.src ≤ base)
    (H : Held V base cap live h) (hcall : CallTrims V (base + 64) h live c) :
    Trims σ (base + 64) live c :=
  ⟨h, (H.shows (S.shows hC)).sound, hcall.still S.bare hC (Nat.le_trans hlo (Nat.le_add_right _ _))⟩

/-- Where the call does not trim, or both processes have the parameters of the mspace, both
return the same, with the same bytes, or both stop. -/
theorem Twin.call (T : Twin C C' base cap live σ τ) (hC : C.dst = C.src)
    (hσ : σ.glob.pmparams = base)
    (hτ : τ.glob.pmparams = C'.place base ∨ ∀ V h, Copied C V σ → Copied C' V τ →
      Held V base cap live h → ¬ CallTrims V (base + 64) h live c) :
    (∃ r σ' r' τ', perform (base + 64) live c σ = .ok (r, σ') ∧
        perform (C'.place (base + 64)) (live.map C'.place) c τ = .ok (r', τ') ∧
        Together C C' base cap σ τ r r' σ' τ') ∨
      ∃ e, perform (base + 64) live c σ = .error e ∧
        perform (C'.place (base + 64)) (live.map C'.place) c τ = .error e := by
  obtain ⟨hsrc, hsize, hlo, hhi, V, h, S, S', H⟩ := T
  have hlo' : C'.src ≤ base := by omega
  have hhigh := H.ok.core.arena.high
  have hshow := S.shows hC
  have hword : ∀ v, (aimed V v).mapped (base + 16) 8 = true := by
    intro v
    have hr : (C.src, C.src + C.size) ∈ (aimed V v).maps := by
      rw [show (aimed V v).maps = V.maps from rfl, S.only]
      exact List.mem_cons_self
    exact Machine.mapped_of_mem hr (show C.src ≤ base + 16 by omega)
      (show base + 16 + 8 ≤ C.src + C.size by omega)
  -- both follow a process that maps nothing else, with the parameters in reach if need be
  obtain ⟨v, hv, hv', hT⟩ : ∃ v, (v = 0 ∨ C.src ≤ v ∧ σ.glob.pmparams = C.place v) ∧
      (v = 0 ∨ C'.src ≤ v ∧ τ.glob.pmparams = C'.place v) ∧
      (CallTrims V (base + 64) h live c → v = base) := by
    by_cases hcall : CallTrims V (base + 64) h live c
    · have hpm : τ.glob.pmparams = C'.place base := by
        cases hτ with
        | inl hτ => exact hτ
        | inr hτ => exact absurd hcall (hτ V h S S' H)
      exact ⟨base, Or.inr ⟨hlo, by rw [place_same hC]; exact hσ⟩, Or.inr ⟨hlo', hpm⟩,
        fun _ => rfl⟩
    · exact ⟨0, Or.inl rfl, Or.inl rfl, fun hc => absurd hc hcall⟩
  have haim : C.bare.Match (aimed V v) V := by
    refine ⟨S.only, ⟨_, S.only ▸ List.mem_cons_self, ?_, ?_⟩, fun i _ => ?_, trivial⟩
    · exact Nat.le_of_eq hC.symm
    · exact Nat.le_of_eq (congrArg (· + C.size) hC)
    · show V.byte (C.src + i) = V.byte (C.dst + i)
      rw [hC]
  have haim' : Shows V (aimed V v) := shows_of_bytes (fun r hr => ⟨r, hr, Nat.le_refl _,
    Nat.le_refl _⟩) fun _ _ _ _ _ => rfl
  have hrun := (H.shows haim').wp_call (hword v) fun hcall =>
    hT (hcall.still haim hC (Nat.le_trans hlo (Nat.le_add_right _ _)))
  cases hr : perform (base + 64) live c (aimed V v) with
  | ok p =>
    obtain ⟨r, V'⟩ := p
    obtain ⟨_, h', H'⟩ := wp_ok hrun hr
    obtain ⟨r₁, σ', hrσ, hR, Sσ, _⟩ := S.run (Copying.call H hlo) hv hr
    obtain ⟨r', τ', hrτ, hR', Sτ, hI, _⟩ := S'.run (Copying.call H hlo') hv' hr
    have hoff := step_inside hR
    rw [step_place hR] at hrσ
    rw [place_same hC, place_same hC, live_same hC, live_same hC] at hrσ
    have hmσ : σ.mapped (base + 16) 8 = true := by
      obtain ⟨q, hq, h1, h2⟩ := S.mapped
      exact Machine.mapped_of_mem hq (by omega) (by omega)
    have hown := wp_ok ((H.shows hshow).wp_call hmσ fun _ => hσ) hrσ
    exact Or.inl ⟨r, σ', r', τ', hrσ, hrτ, step_place hR', hoff,
      ⟨hsrc, hsize, hlo, hhi, V', h', Sσ, Sτ, H'⟩, hown.1, hI⟩
  | error e =>
    have he := wp_error hrun hr
    have hrσ := S.stop (Copying.call H hlo) hv he hr
    rw [place_same hC, live_same hC] at hrσ
    exact Or.inr ⟨e, hrσ, S'.stop (Copying.call H hlo') hv' he hr⟩

end

end Mmdata.Proofs
