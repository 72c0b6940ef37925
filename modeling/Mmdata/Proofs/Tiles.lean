import Mmdata.Proofs.Binned

namespace Mmdata.Proofs
open Lib Malloc

structure Chunk where
  addr : Nat
  size : Nat
  used : Bool
deriving DecidableEq

/-- The chunk `c`, after a predecessor in use or not: its head, and when it is
free the copy of its size behind it. Two neighbours are never both free. -/
structure ChunkAt (σ : State) (pu : Bool) (c : Chunk) : Prop where
  align : c.size % 8 = 0
  large : 32 ≤ c.size
  head : σ.get 8 (c.addr + 8) = some (headWord c.size pu c.used)
  free : c.used = false → pu = true ∧ σ.get 8 (c.addr + c.size) = some c.size

/-- The chunks `cs` fill the memory from `p` to `q` without gaps. The flags
tell whether the chunks before `p` and before `q` are in use. -/
def Tiled (σ : State) : Bool → Nat → List Chunk → Bool → Nat → Prop
  | pu, p, [], pu', q => pu' = pu ∧ q = p
  | pu, p, c :: cs, pu', q =>
    c.addr = p ∧ ChunkAt σ pu c ∧ Tiled σ c.used (p + c.size) cs pu' q

/-- The words that tiling reads: heads, and feet of free chunks. -/
def TileWord (cs : List Chunk) (b : Nat) : Prop :=
  ∃ c ∈ cs, c.addr + 8 ≤ b ∧ b < c.addr + 16 ∨
    c.used = false ∧ c.addr + c.size ≤ b ∧ b < c.addr + c.size + 8

/-- The usable bytes of the chunks in use. -/
def Payload (cs : List Chunk) (b : Nat) : Prop :=
  ∃ c ∈ cs, c.used = true ∧ c.addr + 16 ≤ b ∧ b < c.addr + c.size + 8

section

variable {σ τ : State} {W : Nat → Prop} {pu pu' pv : Bool} {p q a : Nat} {c d : Chunk}
  {cs l₁ l₂ : List Chunk}

theorem tiled_append : Tiled σ pu p (l₁ ++ l₂) pu' q ↔
    ∃ pv r, Tiled σ pu p l₁ pv r ∧ Tiled σ pv r l₂ pu' q := by
  induction l₁ generalizing pu p with
  | nil =>
    constructor
    · intro h
      exact ⟨pu, p, ⟨rfl, rfl⟩, h⟩
    · rintro ⟨pv, r, ⟨rfl, rfl⟩, h⟩
      exact h
  | cons c l ih =>
    simp only [List.cons_append, Tiled, ih]
    constructor
    · rintro ⟨ha, hc, pv, r, h1, h2⟩
      exact ⟨pv, r, ⟨ha, hc, h1⟩, h2⟩
    · rintro ⟨pv, r, ⟨ha, hc, h1⟩, h2⟩
      exact ⟨ha, hc, pv, r, h1, h2⟩

theorem Tiled.le (h : Tiled σ pu p cs pu' q) : p ≤ q := by
  induction cs generalizing pu p with
  | nil => exact Nat.le_of_eq h.2.symm
  | cons c cs ih =>
    have hle := ih h.2.2
    omega

theorem Tiled.mem (h : Tiled σ pu p cs pu' q) (hc : c ∈ cs) :
    p ≤ c.addr ∧ c.addr + c.size ≤ q ∧ ∃ pv, ChunkAt σ pv c := by
  induction cs generalizing pu p with
  | nil => contradiction
  | cons e cs ih =>
    obtain ⟨ha, he, ht⟩ := h
    have hle := ht.le
    rcases List.mem_cons.mp hc with rfl | hc
    · exact ⟨by omega, by omega, pu, he⟩
    · obtain ⟨h1, h2, h3⟩ := ih ht hc
      exact ⟨by omega, h2, h3⟩

theorem Tiled.align (h : Tiled σ pu p cs pu' q) (hp : p % 8 = 0) : q % 8 = 0 := by
  induction cs generalizing pu p with
  | nil => rw [h.2]; exact hp
  | cons e cs ih =>
    obtain ⟨_, he, ht⟩ := h
    have h8 := he.align
    exact ih ht (by omega)

theorem Tiled.mem_align (h : Tiled σ pu p cs pu' q) (hp : p % 8 = 0) (hc : c ∈ cs) :
    c.addr % 8 = 0 := by
  obtain ⟨l₁, l₂, rfl⟩ := List.append_of_mem hc
  obtain ⟨pv, r, h1, h2, _⟩ := tiled_append.mp h
  rw [h2]
  exact h1.align hp

/-- The chunks that tile a range can be read off memory. -/
theorem Tiled.unique {cs' : List Chunk} {pv pv' : Bool} (h : Tiled σ pu p cs pv q)
    (h' : Tiled σ pu p cs' pv' q) : cs = cs' := by
  induction cs generalizing pu p cs' with
  | nil =>
    cases cs' with
    | nil => rfl
    | cons d ds =>
      obtain ⟨_, hd, hrest⟩ := h'
      have hpq := h.2
      have hlarge := hd.large
      have hle := hrest.le
      omega
  | cons c cs ih =>
    obtain ⟨hca, hc, hcs⟩ := h
    have hcl := hc.large
    have hle := hcs.le
    cases cs' with
    | nil =>
      have hpq := h'.2
      omega
    | cons d ds =>
      obtain ⟨hda, hd, hds⟩ := h'
      have hhead := hc.head
      rw [hca, ← hda] at hhead
      obtain ⟨hsize, hused⟩ := headWord_inj hc.align hd.align (Option.some.inj (hhead.symm.trans hd.head))
      obtain ⟨a, s, u⟩ := c
      obtain ⟨b, t, w⟩ := d
      simp only at hca hda hsize hused hcs hds
      subst hca hda hsize hused
      rw [ih hcs hds]

/-- Chunks that tile do not overlap. -/
theorem Tiled.apart (h : Tiled σ pu p cs pu' q) (hc : c ∈ cs) (hd : d ∈ cs) :
    c = d ∨ c.addr + c.size ≤ d.addr ∨ d.addr + d.size ≤ c.addr := by
  induction cs generalizing pu p with
  | nil => contradiction
  | cons e cs ih =>
    obtain ⟨ha, _, ht⟩ := h
    rcases List.mem_cons.mp hc with hce | hct
    · rcases List.mem_cons.mp hd with hde | hdt
      · exact Or.inl (hce.trans hde.symm)
      · have hm := (ht.mem hdt).1
        subst hce
        omega
    · rcases List.mem_cons.mp hd with hde | hdt
      · have hm := (ht.mem hct).1
        subst hde
        omega
      · exact ih ht hct hdt

theorem Tiled.eq_of_addr (h : Tiled σ pu p cs pu' q) (hc : c ∈ cs) (hd : d ∈ cs)
    (he : c.addr = d.addr) : c = d := by
  obtain ⟨_, _, _, hcc⟩ := h.mem hc
  obtain ⟨_, _, _, hdd⟩ := h.mem hd
  have hcl := hcc.large
  have hdl := hdd.large
  rcases h.apart hc hd with hap | hap | hap
  · exact hap
  · omega
  · omega

theorem ChunkAt.frame (h : ChunkAt σ pu c) (hf : Frame W σ τ)
    (hw : ∀ b, TileWord [c] b → ¬ W b) : ChunkAt τ pu c := by
  refine ⟨h.align, h.large, ?_, fun hu => ⟨(h.free hu).1, ?_⟩⟩
  · rw [hf.get (fun b h1 h2 => hw b ⟨c, by simp, Or.inl ⟨h1, by omega⟩⟩)]
    exact h.head
  · rw [hf.get (fun b h1 h2 => hw b ⟨c, by simp, Or.inr ⟨hu, h1, h2⟩⟩)]
    exact (h.free hu).2

theorem Tiled.frame (h : Tiled σ pu p cs pu' q) (hf : Frame W σ τ)
    (hw : ∀ b, TileWord cs b → ¬ W b) : Tiled τ pu p cs pu' q := by
  induction cs generalizing pu p with
  | nil => exact h
  | cons c cs ih =>
    obtain ⟨ha, hc, ht⟩ := h
    refine ⟨ha, hc.frame hf ?_, ih ht ?_⟩
    · rintro b ⟨d, hd, hb⟩
      rw [List.mem_singleton] at hd
      exact hw b ⟨d, by simp [hd], hb⟩
    · rintro b ⟨d, hd, hb⟩
      exact hw b ⟨d, by simp [hd], hb⟩

theorem Tiled.word_bounds (h : Tiled σ pu p cs pu' q) {b : Nat} (hb : TileWord cs b) :
    p + 8 ≤ b ∧ b < q + 8 := by
  obtain ⟨c, hc, hw⟩ := hb
  obtain ⟨h1, h2, _, hcc⟩ := h.mem hc
  have hl := hcc.large
  omega

/-- Writes on either side of a range leave its tiling alone. -/
theorem Tiled.frame_outside (h : Tiled σ pu p cs pu' q) (hf : Frame W σ τ)
    (hw : ∀ b, p + 8 ≤ b → b < q + 8 → ¬ W b) : Tiled τ pu p cs pu' q := by
  refine h.frame hf (fun b hb => ?_)
  obtain ⟨h1, h2⟩ := h.word_bounds hb
  exact hw b h1 h2

/-- What lies before a place in a tiling. -/
theorem Tiled.last (h : Tiled σ pu p (l₁ ++ [c]) pu' q) :
    pu' = c.used ∧ q = c.addr + c.size ∧ ∃ pv, ChunkAt σ pv c ∧ Tiled σ pu p l₁ pv c.addr := by
  obtain ⟨pv, r, h1, h2, h3, h4, h5⟩ := tiled_append.mp h
  subst h2
  exact ⟨h4, h5, pv, h3, h1⟩

/-- The chunk after a place where the chunk before is free is in use. -/
theorem Tiled.head_used (h : Tiled σ false p (c :: cs) pu' q) : c.used = true := by
  cases hu : c.used with
  | true => rfl
  | false =>
    have hf := (h.2.1.free hu).1
    contradiction

/-- A chunk in use does not mind what happens to the flag of its predecessor. -/
theorem Tiled.rehead (h : Tiled σ pu p (c :: cs) pu' q) (hu : c.used = true)
    (hf : Frame W σ τ) (hg : τ.get 8 (p + 8) = some (headWord c.size pv true))
    (hw : ∀ b, p + 16 ≤ b → b < q + 8 → ¬ W b) : Tiled τ pv p (c :: cs) pu' q := by
  obtain ⟨ha, hc, ht⟩ := h
  have hl := hc.large
  refine ⟨ha, ⟨hc.align, hl, ?_, ?_⟩, ht.frame_outside hf ?_⟩
  · rw [ha, hu]
    exact hg
  · intro hfr
    rw [hu] at hfr
    contradiction
  · exact fun b h1 h2 => hw b (by omega) h2

theorem Tiled.payload_bounds (h : Tiled σ pu p cs pu' q) {b : Nat} (hb : Payload cs b) :
    p + 16 ≤ b ∧ b < q + 8 := by
  obtain ⟨c, hc, _, h1, h2⟩ := hb
  obtain ⟨h3, h4, _⟩ := h.mem hc
  omega

/-- Heads and feet are not usable memory. -/
theorem Tiled.word_not_payload (h : Tiled σ pu p cs pu' q) {b : Nat} (hb : TileWord cs b) :
    ¬ Payload cs b := by
  rintro ⟨d, hd, hu, h1, h2⟩
  obtain ⟨c, hc, hw⟩ := hb
  obtain ⟨_, _, _, hcc⟩ := h.mem hc
  have hl := hcc.large
  rcases h.apart hc hd with rfl | hap | hap
  · rcases hw with hw | ⟨hf, _⟩
    · omega
    · rw [hu] at hf
      contradiction
  · omega
  · omega

/-- Nor is anything of a free chunk. -/
theorem Tiled.free_not_payload (h : Tiled σ pu p cs pu' q) (hc : c ∈ cs) (hf : c.used = false)
    {b : Nat} (h1 : c.addr + 8 ≤ b) (h2 : b < c.addr + c.size + 8) : ¬ Payload cs b := by
  rintro ⟨d, hd, hu, h3, h4⟩
  rcases h.apart hc hd with rfl | hap | hap
  · rw [hu] at hf
    contradiction
  · omega
  · omega

end

end Mmdata.Proofs
