import Mmdata.Proofs.Narrow
import Mmdata.Proofs.Grants

namespace Mmdata.Proofs
open Lib Malloc Relocation

/-! A file has no indeterminate bytes, and no call brings any in. -/

/-- Cells that hold the same byte. -/
def SameByte (c d : Cell) : Prop := c = d ∧ ∃ v, c = .known v

theorem sameByte_known (b : UInt8) : SameByte (.known b) (.known b) := ⟨rfl, b, rfl⟩

theorem sameByte_get {c d : Cell} {b : UInt8} (h : SameByte c d) (hc : c.get? = some b) :
    d.get? = some b := h.1 ▸ hc

theorem sameByte_low {c d : Cell} {v : Nat} (h : SameByte c d) (hc : c.low? = some v) :
    d.low? = some v := h.1 ▸ hc

theorem sameByte_setLow {c d : Cell} (h : SameByte c d) : SameByte c.setLow d.setLow := by
  obtain ⟨rfl, v, rfl⟩ := h
  exact sameByte_known _

theorem sameByte_unknown {c d : Cell} (_ : True) (h : SameByte c d) (hc : c.get? = none) :
    d.get? = none := h.1 ▸ hc

theorem sameByte_unknownLow {c d : Cell} (_ : True) (h : SameByte c d) (hc : c.low? = none) :
    d.low? = none := h.1 ▸ hc

/-- The stretch stays where it is, and all of it is known. -/
def fileAt (lo n : Nat) (low : 64 ≤ lo) (word : lo + n ≤ 2 ^ 64) : Relocation Globals where
  src := lo
  dst := lo
  size := n
  cell := SameByte
  glob := Eq
  exact := True
  low := low
  pos := pos_of_low low
  srcWord := word
  dstWord := word
  align := align_self lo
  known := sameByte_known
  get := sameByte_get
  lowBit := sameByte_low
  setLow := sameByte_setLow
  exactGet := sameByte_unknown
  exactLow := sameByte_unknownLow

/-- A file is mapped at `base`: its bytes are known. Nothing is mapped at the null pointer. -/
structure Filed (σ : State) (base cap : Nat) : Prop where
  behind : 4096 ≤ base
  align : base % 8 = 0
  word : base + cap ≤ 2 ^ 64
  mapped : ∃ r ∈ σ.maps, r.1 ≤ base ∧ base + cap ≤ r.2
  null : σ.mapped 0 1 = false
  known : ∀ i < cap, ∃ v, σ.byte (base + i) = .known v

/-- The process uses the parameters of the file. -/
structure Homed (σ : State) (base cap : Nat) : Prop where
  filed : Filed σ base cap
  params : σ.glob.pmparams = base

section

variable {D : Trap → Prop} {σ τ : State} {W : Nat → Prop} {base cap m lo hi p s a n : Nat} {h : Heap}
  {low : 64 ≤ lo} {word : lo + n ≤ 2 ^ 64}

theorem fileAt_moves {a b : Nat} : (fileAt lo n low word).Moves a b ↔ lo ≤ a ∧ b = a := by
  simp only [Moves, fileAt]
  omega

theorem fileAt_params : ParamsMove (fileAt lo n low word) := by
  intro g g' hg
  cases (show g = g' from hg)
  exact ⟨rfl, fun o _ hle => fileAt_moves.mpr ⟨hle, rfl⟩⟩

theorem fileAt_aims : AimsMove (fileAt lo n low word) := by
  intro g g' p p' hg hp
  cases (show g = g' from hg)
  cases (fileAt_moves.mp hp).2
  exact rfl

theorem Filed.clear (F : Filed σ base cap) : 64 ≤ base := Nat.le_trans (by decide) F.behind

/-- A run that gets by with the file leaves all of the file known. -/
theorem Filed.wp_keeps {α : Type} {x : Code α} {R : α → α → Prop} (F : Filed σ base cap)
    (hx : (fileAt base cap F.clear F.word).Alike x x R)
    (hw : wp (· = .divZero) x (fun _ _ => True) (confine σ base cap)) :
    wp (fun _ => True) x (fun _ τ => Filed τ base cap) σ := by
  have M : (fileAt base cap F.clear F.word).Match (confine σ base cap) σ :=
    ⟨rfl, F.mapped, fun i hi => ⟨rfl, F.known i hi⟩, rfl⟩
  have hloud : ∀ e, e = Trap.divZero → (fileAt base cap F.clear F.word).Loud e := by
    intro e he
    subst he
    exact ⟨by decide, by decide, fun _ => trivial⟩
  apply wp_mono (wp_weaken (fun _ _ => trivial) (hx.wp M hw hloud))
  intro r τ hend
  obtain ⟨_, σ', _, _, M', hI⟩ := hend
  refine ⟨F.behind, F.align, F.word, ?_, ?_, fun i hi => ?_⟩
  · rw [hI.maps]
    exact F.mapped
  · rw [Machine.mapped_congr hI.maps]
    exact F.null
  · obtain ⟨he, v, hv⟩ := M'.cells i hi
    exact ⟨v, he.symm.trans hv⟩

theorem wp_also {α : Type} {x : Code α} {Q Q' : α → State → Prop} (h : wp D x Q σ)
    (h' : wp (fun _ => True) x Q' σ) : wp D x (fun r τ => Q r τ ∧ Q' r τ) σ := by
  unfold wp at h h' ⊢
  cases hx : x σ with
  | error e =>
    rw [hx] at h
    exact h
  | ok p =>
    rw [hx] at h h'
    exact ⟨h, h'⟩

/-- A file can be read. -/
theorem Filed.get (F : Filed σ base cap) (h1 : base ≤ a) (h2 : a + n ≤ base + cap) :
    ∃ v, σ.get n a = some v := by
  have hload : ∃ v, loadLE σ.byte a n = some v := by

    induction n generalizing a with
    | zero => exact ⟨0, rfl⟩
    | succ n ih =>
      obtain ⟨v, hv⟩ := F.known (a - base) (by omega)
      obtain ⟨w, hw⟩ := ih (a := a + 1) (by omega) (by omega)
      rw [show base + (a - base) = a by omega] at hv
      refine ⟨v.toNat + 256 * w, ?_⟩
      simp only [loadLE, hv, hw, Cell.get?]
  obtain ⟨v, hv⟩ := hload
  obtain ⟨r, hr, hlo, hhi⟩ := F.mapped
  refine ⟨v, ?_⟩
  rw [Machine.get, if_pos (Machine.mapped_of_mem hr (by omega) (by omega))]
  exact hv

/-- Stores put known bytes into a file. -/
theorem Filed.stored : Stored fun σ => Filed σ base cap := by
  constructor
  · intro σ n a v F
    refine ⟨F.behind, F.align, F.word, F.mapped, F.null, fun i hi => ?_⟩
    simp only [Machine.put, storeLE]
    split
    · exact ⟨_, rfl⟩
    · exact F.known i hi
  · intro σ a F
    refine ⟨F.behind, F.align, F.word, F.mapped, F.null, fun i hi => ?_⟩
    obtain ⟨v, hv⟩ := F.known i hi
    simp only [Machine.setLow, setLowByte, hv]
    split
    · exact ⟨_, rfl⟩
    · exact ⟨_, rfl⟩
  · intro σ a n v F
    refine ⟨F.behind, F.align, F.word, F.mapped, F.null, fun i hi => ?_⟩
    simp only [Machine.fill, fillBytes]
    split
    · exact ⟨_, rfl⟩
    · exact F.known i hi

theorem Homed.stored : Stored fun σ => Homed σ base cap :=
  ⟨fun n a v H => ⟨Filed.stored.put n a v H.filed, H.params⟩,
    fun a H => ⟨Filed.stored.setLow a H.filed, H.params⟩,
    fun a n v H => ⟨Filed.stored.fill a n v H.filed, H.params⟩⟩

theorem Filed.narrow (F : Filed σ base cap) (O : Ok σ (base + 64) (base + 48) (base + cap) h) :
    Ok (confine σ base cap) (base + 64) (base + 48) (base + cap) h :=
  O.narrow F.null (by omega) (Nat.le_refl _)

/-- Trimming reads the file only. -/
theorem Homed.trim (H : Homed σ base cap) (hcap : 24 ≤ cap) :
    TrimOk (· = .divZero) (confine σ base cap) (base + 64) (base + cap) := by
  obtain ⟨v, hv⟩ := H.filed.get (n := 8) (a := base + 16) (by omega) (by omega)
  have hv' : (confine σ base cap).get 8 (base + 16) = some v :=
    get_narrow hv (by omega) (by omega)
  have hp : (confine σ base cap).glob.pmparams = base := H.params
  refine ⟨?_, ?_, ?_, fun _ => rfl⟩
  · omega
  · rw [hp]
    exact Machine.mapped_of_get hv'
  · rw [hp, hv']
    intro hn
    contradiction

/-- A file goes on being one in `mspace_malloc` and `mspace_free`. -/
theorem homed_lasting :
    Lasting D (base + 64) (base + 48) (base + cap) fun σ => Homed σ base cap := by
  refine ⟨Homed.stored, ?_, ?_⟩
  · intro σ h n O H
    have hmoves : (fileAt base cap H.filed.clear H.filed.word).Moves (base + 64) (base + 64) :=
      fileAt_moves.mpr ⟨by omega, rfl⟩
    have hglob : wp D (mspaceMalloc (base + 64) n) (fun _ τ => τ.glob = σ.glob) σ := by
      apply wp_mspaceMalloc O
      · exact fun _ => rfl
      · exact fun _ _ _ _ _ _ _ _ _ hf => hf.glob
    have hkeeps : wp (fun _ => True) (mspaceMalloc (base + 64) n) (fun _ τ => Filed τ base cap) σ := by
      apply H.filed.wp_keeps (alike_mspaceMalloc hmoves)
      apply wp_mspaceMalloc (H.filed.narrow O)
      · exact fun _ => trivial
      · exact fun _ _ _ _ _ _ _ _ _ _ => trivial
    exact wp_mono (wp_also hglob hkeeps) fun _ τ hend => ⟨hend.2, hend.1 ▸ H.params⟩
  · intro σ h p s O T hp H
    have hhigh := O.core.arena.high
    have hb := O.core.chunk_bounds (mem_live.mp hp)
    simp only at hb
    have hmoves : (fileAt base cap H.filed.clear H.filed.word).Moves (base + 64) (base + 64) :=
      fileAt_moves.mpr ⟨by omega, rfl⟩
    have hmem : MemMoves (fileAt base cap H.filed.clear H.filed.word) (p + 16) (p + 16) :=
      Or.inr ⟨p, p, fileAt_moves.mpr ⟨by omega, rfl⟩, rfl, rfl⟩
    have hglob : wp D (mspaceFree (base + 64) (p + 16)) (fun _ τ => τ.glob = σ.glob) σ := by
      apply O.wp_mspaceFree (fun _ => T) hp
      exact fun _ _ _ _ _ hf _ => hf.glob
    have hkeeps : wp (fun _ => True) (mspaceFree (base + 64) (p + 16))
        (fun _ τ => Filed τ base cap) σ := by
      apply H.filed.wp_keeps (alike_mspaceFree fileAt_params hmoves hmem)
      apply (H.filed.narrow O).wp_mspaceFree (fun _ => H.trim (by omega)) hp
      exact fun _ _ _ _ _ _ _ => trivial
    exact wp_mono (wp_also hglob hkeeps) fun _ τ hend => ⟨hend.2, hend.1 ▸ H.params⟩

end

end Mmdata.Proofs
