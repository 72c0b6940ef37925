import Mathlib.Algebra.BigOperators.Ring.List
import Mmdata.Proofs.Aligned
import Mmdata.Proofs.ImageBounds
import Mmdata.Malloc.Service

namespace Mmdata.Proofs
open Lib Malloc

/-- Chunks in use of the given sizes, one behind the other. -/
def inUse : Nat → List Nat → List Chunk
  | _, [] => []
  | p, t :: ts => ⟨p, t, true⟩ :: inUse (p + t) ts

/-- The words from `a` on are the blocks of the chunks. -/
def Listed (σ : State) (a : Nat) (cs : List Chunk) : Prop :=
  ∀ j c, cs[j]? = some c → σ.get 8 (a + 8 * j) = some (chunk2mem c.addr)

section

variable {K K' : State → Prop} {D : Trap → Prop} {σ τ υ : State} {W : Nat → Prop} {m lo hi p q s v n k i a r : Nat}
  {h h' : Heap} {L : List (Nat × Nat)} {cs : List Chunk} {zs ts sizes : List Nat}
  {elementSize marray : Nat}

theorem inUse_used : ∀ c ∈ inUse p ts, c.used = true := by
  induction ts generalizing p with
  | nil => simp [inUse]
  | cons t ts ih =>
    intro c hc
    rcases List.mem_cons.mp hc with rfl | hc
    · rfl
    · exact ih c hc

theorem Listed.cons {c : Chunk} (h0 : σ.get 8 a = some (chunk2mem c.addr))
    (hl : Listed σ (a + 8) cs) : Listed σ a (c :: cs) := by
  intro j d hd
  cases j with
  | zero =>
    cases hd
    exact h0
  | succ j =>
    have hrest := hl j d hd
    rw [← hrest]
    congr 1
    omega

theorem inUse_bounds {c : Chunk} (hc : c ∈ inUse p ts) :
    p ≤ c.addr ∧ c.addr + c.size ≤ p + ts.sum := by
  induction ts generalizing p with
  | nil => contradiction
  | cons t ts ih =>
    rw [List.sum_cons]
    rcases List.mem_cons.mp hc with rfl | hc
    · exact ⟨Nat.le_refl p, by simp only; omega⟩
    · obtain ⟨h1, h2⟩ := ih hc
      omega

/-- The bytes that splitting writes: heads, and `k` words of the array. -/
def SplitBytes (a k : Nat) (cs : List Chunk) (b : Nat) : Prop :=
  (∃ c ∈ cs, c.addr + 8 ≤ b ∧ b < c.addr + 16) ∨ a ≤ b ∧ b < a + 8 * k

theorem wp_splitElements {Q : Unit → State → Prop} (hK : Stored K) (hσ : K σ)
    (hlen : zs.length = k)
    (hz : ∀ j z, zs[j]? = some z → elementSizeAt elementSize sizes (i + j) = z)
    (hz8 : ∀ z ∈ zs, z % 8 = 0 ∧ 32 ≤ z) (hsum : zs.sum + 32 ≤ r) (hr8 : r % 8 = 0)
    (hword : p + r < 2 ^ 64) (hmap : ∀ a, p ≤ a → a + 8 ≤ p + r → σ.mapped a 8 = true)
    (harr : ∀ a, marray + 8 * i ≤ a → a + 8 ≤ marray + 8 * i + 8 * (k + 1) →
      σ.mapped a 8 = true)
    (hap : marray + 8 * i + 8 * (k + 1) ≤ p + 8 ∨ p + r ≤ marray + 8 * i)
    (hQ : ∀ τ, Frame (SplitBytes (marray + 8 * i) (k + 1) (inUse p (zs ++ [r - zs.sum]))) σ τ →
      Tiled τ true p (inUse p (zs ++ [r - zs.sum])) true (p + r) →
      Listed τ (marray + 8 * i) (inUse p (zs ++ [r - zs.sum])) → K τ → Q () τ) :
    wp D (splitElements marray elementSize sizes k i p r) Q σ := by
  induction zs generalizing σ i k p r with
  | nil =>
    subst hlen
    simp only [List.sum_nil, Nat.zero_add, List.nil_append, Nat.sub_zero] at hsum hQ
    simp only [List.length_nil] at harr hap hQ
    simp only [splitElements, List.length_nil, wp_bind]
    rw [wp_store (harr _ (Nat.le_refl _) (by omega))]
    have hm : (σ.put 8 (marray + 8 * i) (chunk2mem p)).mapped (p + 8) 8 = true :=
      hmap (p + 8) (by omega) (by omega)
    rw [wp_setSizeAndPinuseOfInuseChunk hr8 hm]
    apply hQ
    · refine ((Frame.refl _ σ).put ?_).put ?_
      · exact fun b h1 h2 => Or.inr ⟨h1, by omega⟩
      · exact fun b h1 h2 => Or.inl ⟨⟨p, r, true⟩, List.mem_cons_self, h1, by simp only; omega⟩
    · refine ⟨rfl, ⟨hr8, hsum, ?_, fun hc => by contradiction⟩, rfl, rfl⟩
      exact Machine.get_put_same hm (headWord_lt (by omega))
    · refine Listed.cons ?_ fun j c hc => by contradiction
      rw [Machine.get_put_ne (by omega)]
      exact Machine.get_put_same (harr _ (Nat.le_refl _) (by omega))
        (by simp only [chunk2mem]; omega)
    · exact hK.put _ _ _ (hK.put _ _ _ hσ)
  | cons z zs ih =>
    subst hlen
    have hzz := hz8 z List.mem_cons_self
    have hsz : elementSizeAt elementSize sizes i = z := hz 0 z rfl
    simp only [List.sum_cons, List.length_cons] at hsum hQ harr hap
    simp only [splitElements, List.length_cons, wp_bind]
    rw [wp_store (harr _ (Nat.le_refl _) (by omega)), hsz]
    have hm : (σ.put 8 (marray + 8 * i) (chunk2mem p)).mapped (p + 8) 8 = true :=
      hmap (p + 8) (by omega) (by omega)
    rw [wp_setSizeAndPinuseOfInuseChunk hzz.1 hm, subSize_le (by omega) (by omega)]
    have hend : p + z + (r - z) = p + r := by omega
    have hrest : r - z - zs.sum = r - (z + zs.sum) := by omega
    have hnext : marray + 8 * (i + 1) = marray + 8 * i + 8 := by omega
    apply ih (hK.put _ _ _ (hK.put _ _ _ hσ)) rfl
    · intro j y hy
      have hyy := hz (j + 1) y hy
      rw [← hyy]
      congr 1
      omega
    · exact fun y hy => hz8 y (List.mem_cons_of_mem _ hy)
    · omega
    · omega
    · omega
    · intro a h1 h2
      exact hmap a (by omega) (by omega)
    · intro a h1 h2
      exact harr a (by omega) (by omega)
    · omega
    · intro τ hf ht hl hτ
      rw [hnext] at hf hl
      rw [hrest] at hf ht hl
      have hout : ∀ b, SplitBytes (marray + 8 * i + 8) (zs.length + 1)
          (inUse (p + z) (zs ++ [r - (z + zs.sum)])) b → p + z + 8 ≤ b ∧ b < p + r ∨
            marray + 8 * i + 8 ≤ b ∧ b < marray + 8 * i + 8 * (zs.length + 1 + 1) := by
        rintro b (⟨c, hc, h1, h2⟩ | hb)
        · have hcb := inUse_bounds hc
          obtain ⟨_, _, _, hcc⟩ := ht.mem hc
          have hlarge := hcc.large
          rw [List.sum_append, List.sum_singleton] at hcb
          omega
        · omega
      have hhead : τ.get 8 (p + 8) = some (headWord z true true) := by
        rw [hf.get fun b h1 h2 hb => by have ho := hout b hb; omega]
        exact Machine.get_put_same hm (headWord_lt (by omega))
      have hentry : τ.get 8 (marray + 8 * i) = some (chunk2mem p) := by
        rw [hf.get fun b h1 h2 hb => by have ho := hout b hb; omega,
          Machine.get_put_ne (by omega)]
        exact Machine.get_put_same (harr _ (Nat.le_refl _) (by omega))
          (by simp only [chunk2mem]; omega)
      apply hQ
      · refine Frame.trans (τ := (σ.put 8 (marray + 8 * i) (chunk2mem p)).put 8 (p + 8)
          (headWord z true true)) (((Frame.refl _ σ).put ?_).put ?_) (hf.mono ?_)
        · exact fun b h1 h2 => Or.inr ⟨h1, by omega⟩
        · exact fun b h1 h2 => Or.inl ⟨⟨p, z, true⟩, List.mem_cons_self, h1, by simp only; omega⟩
        · rintro b (⟨c, hc, hb⟩ | hb)
          · exact Or.inl ⟨c, List.mem_cons_of_mem _ hc, hb⟩
          · exact Or.inr ⟨by omega, by omega⟩
      · refine ⟨rfl, ⟨hzz.1, hzz.2, hhead, fun hc => by contradiction⟩, ?_⟩
        rw [hend] at ht
        exact ht
      · exact Listed.cons hentry hl
      · exact hτ

theorem Grants.after (hf : Frame (Own m hi (Payload h.chunks)) σ υ)
    (G : Grants K υ m lo hi h L τ h') : Grants K σ m lo hi h L τ h' :=
  ⟨G.ok, G.live, G.exts, hf.trans G.frame, G.lasts⟩

theorem Grants.lasting (G : Grants K σ m lo hi h L τ h') (hK : K' τ) :
    Grants K' σ m lo hi h L τ h' := ⟨G.ok, G.live, G.exts, G.frame, hK⟩

theorem Grants.setFlags {w : Nat} (G : Grants K σ m lo hi h L τ h') (hw : w < 2 ^ 32)
    (hK : Stored K) : Grants K σ m lo hi h L (τ.put 4 (m + 872) w) h' := by
  refine ⟨⟨G.ok.core.setFlags inBins_free hw, G.ok.dvOk⟩, G.live, G.exts, G.frame.trans ?_,
    hK.put _ _ _ G.lasts⟩
  refine (Frame.refl _ τ).put fun b h1 h2 => ?_
  exact own_mono G.keeps b (G.ok.core.scalar_own (by omega) (by omega))

theorem wp_enableMmap {Q : Unit → State → Prop} {w : Nat} (hw : σ.get 4 (m + 872) = some w) :
    wp D (enableMmap m) Q σ ↔ Q () (σ.put 4 (m + 872) (w ||| useMmapBit)) := by
  rw [enableMmap, mflags]
  exact wp_update hw

/-- The aggregate: null, or one chunk, and direct mapping is enabled as before. -/
theorem Ok.wp_aggregate {Q : Nat → State → Prop} {size : Nat} (O : Ok σ m lo hi h)
    (hK : Lasting D m lo hi K) (hσ : K σ) (h8 : 8 ≤ size) (hlt : size < 2 ^ 64)
    (h0 : h.Refuses (size - 8) → Q 0 σ)
    (hQ : ∀ v s τ h', Grants K σ m lo hi h [(v, s)] τ h' → size ≤ s →
      τ.get 8 (v + 8) = some (headWord s true true) → Q (v + 16) τ) :
    wp D (iallocAggregate m size) Q σ := by
  obtain ⟨w, hw⟩ := O.core.scalars.flags
  have hw32 : w < 2 ^ 32 := by
    have hl := Machine.get_lt hw
    omega
  have hbit : (w &&& useMmapBit != 0) = decide (w % 2 = 1) := by
    rw [useMmapBit, Nat.and_one_is_mod]
    cases Nat.mod_two_eq_zero_or_one w with
    | inl he => simp [he]
    | inr he => simp [he]
  have hclear : clearBits w useMmapBit = w - w % 2 := by
    rw [clearBits, useMmapBit, Nat.and_one_is_mod]
  have hmap : ∀ υ : State, υ.maps = σ.maps → υ.mapped (m + 872) 4 = true := by
    intro υ hυ
    rw [Machine.mapped_congr hυ]
    exact Machine.mapped_of_get hw
  have hsub : subSize size chunkOverhead = size - 8 := subSize_le h8 hlt
  have hown : Frame (Own m hi (Payload h.chunks)) σ (σ.put 4 (m + 872) (w - w % 2)) :=
    (Frame.refl _ σ).put fun b h1 h2 => O.core.scalar_own (by omega) (by omega)
  have O' : Ok (σ.put 4 (m + 872) (w - w % 2)) m lo hi h :=
    ⟨O.core.setFlags inBins_free (by omega), O.dvOk⟩
  have hodd : w % 2 = 1 → w - w % 2 ||| useMmapBit = w := by
    intro he
    rw [useMmapBit, or_one]
    omega
  unfold iallocAggregate
  rw [hsub]
  simp only [useMmap, disableMmap, mflags, wp_bind]
  rw [wp_load hw, wp_pure, wp_update hw, hclear, hbit]
  refine O'.wp_grant hK (hK.stored.put _ _ _ hσ) ?_ ?_
  · intro hno
    have hself : (σ.put 4 (m + 872) (w - w % 2)).get 4 (m + 872) = some (w - w % 2) :=
      Machine.get_put_same (hmap σ rfl) (by omega)
    by_cases he : w % 2 = 1
    · rw [wp_if_pos (decide_eq_true he), wp_bind, wp_enableMmap hself, hodd he, Machine.put_put,
        Machine.put_self hw, wp_pure]
      exact h0 hno
    · have hsame : w - w % 2 = w := by omega
      rw [wp_if_neg (by simpa using he), wp_pure, hsame, Machine.put_self hw]
      exact h0 hno
  · intro v s τ h' G hs hhead
    have G' := G.after hown
    have hb := G.ok.core.chunk_bounds (mem_live.mp (G.mem List.mem_cons_self))
    simp only at hb
    by_cases he : w % 2 = 1
    · obtain ⟨w', hw'⟩ := G.ok.core.scalars.flags
      have hlt' : w' ||| useMmapBit < 2 ^ 32 := by
        have hl := Machine.get_lt hw'
        rw [useMmapBit, or_one]
        omega
      rw [wp_if_pos (decide_eq_true he), wp_bind, wp_enableMmap hw', wp_pure]
      refine hQ v s _ h' (G'.setFlags hlt' hK.stored) (by omega) ?_
      rw [Machine.get_put_ne (by omega)]
      exact hhead
    · rw [wp_if_neg (by simpa using he), wp_pure]
      exact hQ v s τ h' G' (by omega) hhead

/-- The array of pointers, where the caller brings it along. -/
def InArray (chunks n b : Nat) : Prop := chunks ≠ 0 ∧ chunks ≤ b ∧ b < chunks + 8 * n

instance (chunks n : Nat) : DecidablePred (InArray chunks n) :=
  fun b => inferInstanceAs (Decidable (chunks ≠ 0 ∧ chunks ≤ b ∧ b < chunks + 8 * n))

/-- Where the array is: in a chunk of its own, or where the caller wants it. -/
inductive Slots : Nat → Nat → Nat → List (Nat × Nat) → Prop
  | own (n q s : Nat) : 8 * n + 8 ≤ s → Slots 0 n (q + 16) [(q, s)]
  | given (chunks n : Nat) : chunks ≠ 0 → Slots chunks n chunks []

/-- The heap has given elements of at least the sizes `zs`, listed in the array at `a`. -/
structure Supplies (K : State → Prop) (σ : State) (m lo hi : Nat) (h : Heap) (zs : List Nat) (zero : Prop)
    (chunks a : Nat) (cs : List Chunk) (S : List (Nat × Nat)) (τ : State) (h' : Heap) : Prop where
  sizes : List.Forall₂ (fun z c => z ≤ c.size) zs cs
  slots : Slots chunks zs.length a S
  grants : ∃ υ, Frame (InArray chunks zs.length) σ υ ∧
    Grants K υ m lo hi h (pairs cs ++ S) τ h'
  listed : Listed τ a cs
  zeroed : zero → ∀ c ∈ cs, ∀ b, c.addr + 16 ≤ b → b < c.addr + c.size + 8 → τ.byte b = .known 0

theorem inUse_sizes (hle : List.Forall₂ (· ≤ ·) zs ts) :
    List.Forall₂ (fun z c => z ≤ c.size) zs (inUse p ts) := by
  induction hle generalizing p with
  | nil => exact .nil
  | cons h _ ih => exact .cons h ih

theorem forall₂_same : List.Forall₂ (· ≤ ·) zs zs := by
  induction zs with
  | nil => exact .nil
  | cons z zs ih => exact .cons (Nat.le_refl z) ih

/-- The last element takes what is left. -/
theorem last_absorbs {z : Nat} (hle : z ≤ r) :
    List.Forall₂ (· ≤ ·) (zs ++ [z]) (zs ++ [r]) :=
  List.rel_append forall₂_same (.cons hle .nil)

/-- What is written to the caller's array may as well have been there before. -/
theorem Grants.overlay {A : Nat → Prop} [DecidablePred A] (G : Grants K σ m lo hi h L τ h')
    (hA : ∀ b, m ≤ b → b < hi → A b → Payload h.chunks b) (hK : K' (τ.overlay υ A)) :
    Grants K' (σ.overlay υ A) m lo hi h L (τ.overlay υ A) h' := by
  refine ⟨G.ok.outside Frame.overlay ?_, G.live, G.exts, G.frame.overlay_both, hK⟩
  intro b h1 h2 hb
  obtain ⟨p, s, hp, h3, h4⟩ := Payload.live.mp (hA b h1 h2 hb)
  exact Payload.live.mpr ⟨p, s, G.keeps _ hp, h3, h4⟩

/-- The caller's array does not meet what has been granted. -/
theorem Grants.array_apart {chunks : Nat} (G : Grants K σ m lo hi h ((p, s) :: L) τ h')
    (hA : ∀ b, m ≤ b → b < hi → InArray chunks n b → Payload h.chunks b) (h0 : chunks ≠ 0) :
    chunks + 8 * n ≤ p + 8 ∨ p + s + 8 ≤ chunks ∨ n = 0 := by
  have hboth : ∀ b, InArray chunks n b → p + 8 ≤ b → b < p + s + 8 → False := by
    intro b hb h1 h2
    have hown := G.ok.own_of_granted G.live h1 h2
    exact hown.2.2 (hA b hown.1 hown.2.1 hb)
  have h1 := hboth chunks
  have h2 := hboth (p + 8)
  unfold InArray at h1 h2
  have hb := G.ok.core.chunk_bounds (mem_live.mp (G.mem List.mem_cons_self))
  simp only at hb
  by_contra hc
  by_cases hle : p + 8 ≤ chunks
  · exact h1 ⟨h0, Nat.le_refl _, by omega⟩ hle (by omega)
  · exact h2 ⟨h0, by omega, by omega⟩ (Nat.le_refl _) (by omega)

/-- The elements of a range are zero where the range was. -/
theorem split_zeroed {c : Chunk} (ht : Tiled τ true p cs true q) (hc : c ∈ cs)
    (hf : Frame (SplitBytes a k cs) σ τ) (ha : a + 8 * k ≤ p + 8 ∨ q + 8 ≤ a)
    (hz : ∀ b, p + 16 ≤ b → b < q + 8 → σ.byte b = .known 0) {b : Nat} (h1 : c.addr + 16 ≤ b)
    (h2 : b < c.addr + c.size + 8) : τ.byte b = .known 0 := by
  obtain ⟨h3, h4, _⟩ := ht.mem hc
  rw [hf.byte b]
  · exact hz b (by omega) (by omega)
  · rintro (⟨d, hd, h5, h6⟩ | hb)
    · obtain ⟨_, _, _, hdd⟩ := ht.mem hd
      have hlarge := hdd.large
      rcases ht.apart hc hd with rfl | hap | hap
      all_goals omega
    · omega

/-- The array becomes the last part of the aggregate. -/
theorem Grants.wp_ownArray {Q : Nat → State → Prop} {z : Nat} {zero : Prop}
    (G : Grants K σ m lo hi h [(v, s)] τ h') (hK : Stored K)
    (hhead : τ.get 8 (v + 8) = some (headWord s true true))
    (hz : ∀ j y, zs[j]? = some y → elementSizeAt elementSize sizes (0 + j) = y)
    (hz8 : ∀ y ∈ zs ++ [z], y % 8 = 0 ∧ 32 ≤ y)
    (hroom : (zs ++ [z]).sum + (8 * (zs.length + 1) + 8) ≤ s) (h32 : (zs ++ [z]).sum + 32 ≤ s)
    (hzero : zero → ∀ b, v + 16 ≤ b → b < v + (zs ++ [z]).sum + 8 → τ.byte b = .known 0)
    (hQ : ∀ a cs S υ h₁, Supplies K σ m lo hi h (zs ++ [z]) zero 0 a cs S υ h₁ → Q a υ) :
    wp D (do
      let (marray, remainder) ← iallocArray v (zs ++ [z]).sum s 0
      splitElements marray elementSize sizes zs.length 0 v remainder
      return marray) Q τ := by
  have hsum : (zs ++ [z]).sum = zs.sum + z := by simp
  have hz32 := hz8 z (by simp)
  have hzs8 : ∀ y ∈ zs, y % 8 = 0 ∧ 32 ≤ y := fun y hy => hz8 y (List.mem_append_left _ hy)
  have hsum8 : zs.sum % 8 = 0 := by
    apply Nat.mod_eq_zero_of_dvd
    exact List.dvd_sum fun y hy => Nat.dvd_of_mod_eq_zero (hzs8 y hy).1
  have hpm := mem_live.mp (G.mem List.mem_cons_self)
  have hb := G.ok.core.chunk_bounds hpm
  have hword := G.ok.core.arena.word
  simp only at hb
  have hmap : ∀ υ : State, υ.maps = τ.maps → ∀ a, v ≤ a → a + 8 ≤ v + s + 8 →
      υ.mapped a 8 = true := by
    intro υ hυ a h1 h2
    rw [Machine.mapped_congr hυ]
    exact G.ok.core.arena.covers (by omega) (by omega)
  rw [hsum] at hroom h32 hzero ⊢
  have hrest : (s - (zs.sum + z)) % 8 = 0 := by omega
  simp only [iallocArray, if_true, wp_bind]
  rw [subSize_le (by omega) (by omega),
    wp_setSizeAndPinuseOfInuseChunk hrest (hmap τ rfl _ (by omega) (by omega)), wp_pure]
  simp only [chunk2mem]
  have hput : ∀ a, (τ.put 8 (v + (zs.sum + z) + 8)
      (headWord (s - (zs.sum + z)) true true)).mapped a 8 = τ.mapped a 8 := fun _ => rfl
  apply wp_splitElements hK (hK.put _ _ _ G.lasts) rfl hz hzs8 (r := zs.sum + z) (by omega)
    (by omega) (by omega)
  · intro a h1 h2
    exact hmap _ rfl a h1 (by omega)
  · intro a h1 h2
    exact hmap _ rfl a (by omega) (by omega)
  · omega
  intro υ hf ht hl hυ
  rw [wp_pure]
  rw [Nat.mul_zero, Nat.add_zero, show zs.sum + z - zs.sum = z by omega] at hf hl
  rw [show zs.sum + z - zs.sum = z by omega] at ht
  have hout : ∀ b, SplitBytes (v + (zs.sum + z) + 16) (zs.length + 1) (inUse v (zs ++ [z])) b →
      v + 8 ≤ b ∧ b < v + (zs.sum + z) ∨ v + (zs.sum + z) + 16 ≤ b ∧ b < v + s + 8 := by
    rintro b (⟨c, hc, h1, h2⟩ | hb)
    · obtain ⟨h3, h4, _, hcc⟩ := ht.mem hc
      have hlarge := hcc.large
      omega
    · omega
  have harray : υ.get 8 (v + (zs.sum + z) + 8) =
      some (headWord (s - (zs.sum + z)) true true) := by
    rw [hf.get fun b h1 h2 hb => by have ho := hout b hb; omega]
    exact Machine.get_put_same (hmap τ rfl _ (by omega) (by omega)) (headWord_lt (by omega))
  have hframe : Frame (fun b => v + 8 ≤ b ∧ b < v + s + 8) τ υ := by
    refine Frame.trans (((Frame.refl _ τ).put ?_)) (hf.mono fun b hb => ?_)
    · exact fun b h1 h2 => ⟨by omega, by omega⟩
    · have ho := hout b hb
      omega
  obtain ⟨h₁, G₁⟩ := G.split (inUse v (zs ++ [z]) ++
      [⟨v + (zs.sum + z), s - (zs.sum + z), true⟩]) hframe hυ (fun _ hb => hb) (by
    intro pu hpu
    obtain rfl := headWord_flag hb.2.1 (Option.some.inj (hhead.symm.trans hpu))
    refine tiled_append.mpr ⟨true, v + (zs.sum + z), ht, rfl, ?_, rfl, ?_⟩
    · exact ⟨hrest, by simp only; omega, harray, fun hc => by contradiction⟩
    · simp only
      omega) (by
    intro c hc
    rcases List.mem_append.mp hc with hc | hc
    · exact inUse_used c hc
    · rw [List.mem_singleton.mp hc])
  refine hQ _ (inUse v (zs ++ [z])) [(v + (zs.sum + z), s - (zs.sum + z))] υ h₁
    ⟨inUse_sizes forall₂_same, ?_, ⟨σ, Frame.refl _ σ, ?_⟩, hl, ?_⟩
  · apply Slots.own
    rw [List.length_append, List.length_singleton]
    omega
  · simpa [pairs] using G₁
  · intro hzer c hc b h1 h2
    apply split_zeroed ht hc hf (Or.inr (by omega)) _ h1 h2
    intro b h3 h4
    rw [show (τ.put 8 (v + (zs.sum + z) + 8) (headWord (s - (zs.sum + z)) true true)).byte b =
      τ.byte b from ((Frame.refl (fun b => v + (zs.sum + z) + 8 ≤ b) τ).put
        fun b h1 h2 => h1).byte b (by omega)]
    exact hzero hzer b h3 (by omega)

/-- The array is the caller's, and the last element takes what is left. -/
theorem Grants.wp_givenArray {Q : Nat → State → Prop} {z chunks : Nat} {zero : Prop}
    (G : Grants K σ m lo hi h [(v, s)] τ h') (hK : Stored K)
    (hhead : τ.get 8 (v + 8) = some (headWord s true true))
    (hz : ∀ j y, zs[j]? = some y → elementSizeAt elementSize sizes (0 + j) = y)
    (hz8 : ∀ y ∈ zs ++ [z], y % 8 = 0 ∧ 32 ≤ y) (hroom : (zs ++ [z]).sum ≤ s) (h0 : chunks ≠ 0)
    (hA : ∀ b, m ≤ b → b < hi → InArray chunks (zs.length + 1) b → Payload h.chunks b)
    (harr : ∀ a, chunks ≤ a → a + 8 ≤ chunks + 8 * (zs.length + 1) → σ.mapped a 8 = true)
    (hzero : zero → ∀ b, v + 16 ≤ b → b < v + s + 8 → τ.byte b = .known 0)
    (hQ : ∀ a cs S υ h₁, Supplies K σ m lo hi h (zs ++ [z]) zero chunks a cs S υ h₁ → Q a υ) :
    wp D (do
      let (marray, remainder) ← iallocArray v (zs ++ [z]).sum s chunks
      splitElements marray elementSize sizes zs.length 0 v remainder
      return marray) Q τ := by
  have hsum : (zs ++ [z]).sum = zs.sum + z := by simp
  have hlen : (zs ++ [z]).length = zs.length + 1 := by simp
  have hz32 := hz8 z (by simp)
  have hzs8 : ∀ y ∈ zs, y % 8 = 0 ∧ 32 ≤ y := fun y hy => hz8 y (List.mem_append_left _ hy)
  have hpm := mem_live.mp (G.mem List.mem_cons_self)
  have hb := G.ok.core.chunk_bounds hpm
  have hword := G.ok.core.arena.word
  have hmaps := G.frame.maps
  simp only at hb
  have hap : chunks + 8 * (zs.length + 1) ≤ v + 8 ∨ v + s + 8 ≤ chunks := by
    have ha := G.array_apart hA h0
    omega
  rw [hsum] at hroom ⊢
  simp only [iallocArray, if_neg h0, wp_bind, wp_pure]
  apply wp_splitElements hK G.lasts rfl hz hzs8 (by omega) hb.2.1 (by omega)
  · intro a h1 h2
    exact G.ok.core.arena.covers (by omega) (by omega)
  · intro a h1 h2
    rw [Machine.mapped_congr hmaps]
    exact harr a (by omega) (by omega)
  · omega
  intro υ hf ht hl hυ
  rw [Nat.mul_zero, Nat.add_zero] at hf hl
  have hframe : Frame (fun b => (v + 8 ≤ b ∧ b < v + s + 8) ∨ InArray chunks (zs.length + 1) b)
      τ υ := by
    apply hf.mono
    rintro b (⟨c, hc, h1, h2⟩ | hb)
    · obtain ⟨h3, h4, _, hcc⟩ := ht.mem hc
      have hlarge := hcc.large
      exact Or.inl ⟨by omega, by omega⟩
    · exact Or.inr ⟨h0, hb⟩
  have G' : Grants (fun _ => True) (σ.overlay υ (InArray chunks (zs.length + 1))) m lo hi h _
      (τ.overlay υ (InArray chunks (zs.length + 1))) h' := G.overlay hA trivial
  obtain ⟨h₁, G₁⟩ := G'.split (inUse v (zs ++ [s - zs.sum])) hframe.to_overlay
    trivial (fun _ hb => hb) (by
    intro pu hpu
    have hsame : (τ.overlay υ (InArray chunks (zs.length + 1))).get 8 (v + 8) =
        τ.get 8 (v + 8) := by
      apply Frame.get Frame.overlay
      intro b h1 h2 hb
      have hin := hb.2
      omega
    rw [hsame] at hpu
    obtain rfl := headWord_flag hb.2.1 (Option.some.inj (hhead.symm.trans hpu))
    exact ht) inUse_used
  refine hQ chunks (inUse v (zs ++ [s - zs.sum])) [] υ h₁
    ⟨inUse_sizes (last_absorbs (by omega)), .given _ _ h0, ⟨_, ?_, G₁.lasting hυ⟩, hl, ?_⟩
  · rw [hlen]
    exact Frame.overlay
  · intro hzer c hc b h1 h2
    exact split_zeroed ht hc hf (by omega) (hzero hzer) h1 h2

theorem sum_large (hz8 : ∀ y ∈ zs, y % 8 = 0 ∧ 32 ≤ y) : 32 * zs.length ≤ zs.sum := by
  induction zs with
  | nil => exact Nat.le_refl 0
  | cons z zs ih =>
    have hz := (hz8 z List.mem_cons_self).2
    have hrest := ih fun y hy => hz8 y (List.mem_cons_of_mem _ hy)
    rw [List.length_cons, List.sum_cons]
    omega

/-- `ialloc` returns null and changes nothing, or supplies the elements, wherever their padded
sizes and the array add up to a `size_t`. -/
theorem Ok.wp_ialloc {Q : Nat → State → Prop} {opts chunks : Nat} (O : Ok σ m lo hi h)
    (hK : Lasting D m lo hi K) (hσ : K σ)
    (helem : elementSize = if opts &&& 1 ≠ 0 then request2size (sizes.getD 0 0) else 0)
    (hz : ∀ j y, zs[j]? = some y → elementSizeAt elementSize sizes (0 + j) = y)
    (hz8 : ∀ y ∈ zs, y % 8 = 0 ∧ 32 ≤ y)
    (hcontents : (if opts &&& 1 ≠ 0 then timesSize zs.length elementSize
      else addSizes sizes zs.length 0 0) = zs.sum)
    (hfit : iallocTotal zs chunks < 2 ^ 64)
    (hA : ∀ b, m ≤ b → b < hi → InArray chunks zs.length b → Payload h.chunks b)
    (harr : chunks ≠ 0 → ∀ a, chunks ≤ a → a + 8 ≤ chunks + 8 * zs.length → σ.mapped a 8 = true)
    (h0 : h.Refuses (iallocTotal zs chunks - 8) → Q 0 σ)
    (hQ : ∀ a cs S υ h₁, Supplies K σ m lo hi h zs (opts &&& 2 ≠ 0) chunks a cs S υ h₁ → Q a υ) :
    wp D (ialloc m zs.length sizes opts chunks) Q σ := by
  unfold ialloc
  rcases List.eq_nil_or_concat zs with rfl | ⟨ys, z, rfl⟩
  · rw [List.length_nil, if_pos rfl]
    by_cases hc : chunks ≠ 0
    · rw [if_pos hc]
      exact hQ chunks [] [] σ h ⟨.nil, .given _ _ hc, ⟨σ, Frame.refl _ σ, .nothing O hσ⟩,
        fun j c hc => by contradiction, fun _ c hc => by contradiction⟩
    · rw [if_neg hc]
      have hcz : chunks = 0 := Decidable.not_not.mp hc
      subst hcz
      have hleast : request2size (iallocTotal [] 0 - 8) = request2size 0 := by decide
      apply O.wp_grant hK hσ
      · exact fun hno => h0 fun _ => hleast ▸ hno (by decide)
      intro v s τ h' G hs _
      exact hQ (v + 16) [] [(v, s)] τ h' ⟨.nil, .own _ _ _ (by simpa using hs),
        ⟨σ, Frame.refl _ σ, G⟩, fun j c hc => by contradiction, fun _ c hc => by contradiction⟩
  rw [List.concat_eq_append] at *
  have hlen : (ys ++ [z]).length = ys.length + 1 := by simp
  have hlarge := sum_large hz8
  have hsum : (ys ++ [z]).sum = ys.sum + z := by simp
  have hz32 := hz8 z (by simp)
  have hz' : ∀ j y, ys[j]? = some y → elementSizeAt elementSize sizes (0 + j) = y := by
    intro j y hy
    apply hz j y
    rw [List.getElem?_append_left (List.getElem?_eq_some_iff.mp hy).1]
    exact hy
  -- the array that is asked for
  unfold iallocTotal at hfit h0
  generalize hasz : (if chunks ≠ 0 then 0 else request2size (8 * (ys ++ [z]).length)) = asz
    at hfit h0
  have htimes : timesSize (ys ++ [z]).length 8 = 8 * (ys ++ [z]).length := by
    unfold timesSize
    omega
  have hadd : addSize (ys ++ [z]).sum asz = (ys ++ [z]).sum + asz := by
    unfold addSize
    omega
  rw [if_neg (by rw [hlen]; exact Nat.succ_ne_zero _)]
  simp only [htimes, hasz, ← helem, hcontents, hadd]
  rw [wp_bind]
  refine O.wp_aggregate hK hσ (by omega) hfit ?_ ?_
  · intro hno
    rw [wp_if_pos rfl]
    exact h0 hno
  intro v s τ h' G hs hhead
  have hpm := mem_live.mp (G.mem List.mem_cons_self)
  have hb := G.ok.core.chunk_bounds hpm
  have hword := G.ok.core.arena.word
  simp only at hb
  have hasz' : chunks = 0 → 8 * (ys ++ [z]).length + 8 ≤ asz ∧ 32 ≤ asz := by
    intro hc
    rw [← hasz, if_neg (not_not.mpr hc)]
    obtain ⟨h32, _, hle, _⟩ :=
      request2size_spec (show 8 * (ys ++ [z]).length < maxRequest by
        simp only [maxRequest]
        omega)
    exact ⟨hle, h32⟩
  -- the pieces, once the memory has been cleared or not
  have hpieces : ∀ υ, Grants K σ m lo hi h [(v, s)] υ h' →
      υ.get 8 (v + 8) = some (headWord s true true) →
      (opts &&& 2 ≠ 0 → ∀ b, v + 16 ≤ b → b < v + s - asz + 8 → υ.byte b = .known 0) →
      wp D (do
        let (marray, remainder) ← iallocArray v (ys ++ [z]).sum s chunks
        splitElements marray elementSize sizes ys.length 0 v remainder
        return marray) Q υ := by
    intro υ Gυ hυ hzero
    by_cases hc : chunks = 0
    · subst hc
      have hroom := hasz' rfl
      rw [hlen] at hroom
      refine Gυ.wp_ownArray hK.stored hυ hz' hz8 (by omega) (by omega) ?_ hQ
      intro hzer b h1 h2
      exact hzero hzer b h1 (by omega)
    · have hno : asz = 0 := by
        rw [← hasz, if_pos hc]
      rw [hlen] at hA harr
      refine Gυ.wp_givenArray hK.stored hυ hz' hz8 (by omega) hc hA (harr hc) ?_ hQ
      intro hzer b h1 h2
      exact hzero hzer b h1 (by omega)
  rw [wp_if_neg (by omega), wp_bind]
  simp only [mem2chunk, Nat.add_sub_cancel]
  rw [wp_chunksize hhead hb.2.1]
  have hn : (ys ++ [z]).length - 1 = ys.length := by omega
  have hclear : subSize (subSize s 8) asz = s - 8 - asz := by
    have h8 : subSize s 8 = s - 8 := subSize_le (by omega) (by omega)
    rw [h8, subSize_le (by omega) (by omega)]
  simp only [hn, hclear]
  by_cases hop : opts &&& 2 ≠ 0
  · rw [wp_if_pos hop, wp_bind, wp_memset (G.ok.core.arena.covers (by omega) (by omega))]
    have hf : Frame (fun b => v + 16 ≤ b ∧ b < v + s + 8) τ (τ.fill (v + 16) (s - 8 - asz) 0) :=
      (Frame.refl _ τ).fill fun b h1 h2 => ⟨h1, by omega⟩
    apply hpieces _ (G.write hf (hK.stored.fill _ _ _ G.lasts) fun b hb => ⟨v, s, List.mem_cons_self, hb⟩)
    · rw [Machine.get_fill_ne (by omega)]
      exact hhead
    · intro _ b h1 h2
      exact if_pos ⟨h1, by omega⟩
  · rw [wp_if_neg hop]
    exact hpieces τ G hhead fun hc => absurd hc hop

/-- The padded sizes, added up where that stays a `size_t`. -/
theorem addSizes_eq {total : Nat} (hn : i + n = sizes.length)
    (hlt : total + ((sizes.drop i).map request2size).sum < 2 ^ 64) :
    addSizes sizes n i total = total + ((sizes.drop i).map request2size).sum := by
  induction n generalizing i total with
  | zero => simp [addSizes, List.drop_eq_nil_of_le (show sizes.length ≤ i by omega)]
  | succ n ih =>
    have hi : i < sizes.length := by omega
    have hget : sizes.getD i 0 = sizes[i] := by simp [List.getD, hi]
    rw [List.drop_eq_getElem_cons hi, List.map_cons, List.sum_cons, ← Nat.add_assoc] at hlt ⊢
    have hadd : addSize total (request2size sizes[i]) = total + request2size sizes[i] := by
      unfold addSize
      omega
    simp only [addSizes, hget, hadd]
    exact ih (by omega) hlt

theorem request2size_fits (hb : ∀ y ∈ sizes, y < maxRequest) :
    ∀ z ∈ sizes.map request2size, z % 8 = 0 ∧ 32 ≤ z := by
  intro z hz
  obtain ⟨y, hy, rfl⟩ := List.mem_map.mp hz
  obtain ⟨h1, h2, _⟩ := request2size_spec (hb y hy)
  exact ⟨h2, h1⟩

/-- `mspace_independent_comalloc`: null, or elements of the sizes asked for. -/
theorem Ok.wp_mspaceIndependentComalloc {Q : Nat → State → Prop} {chunks : Nat}
    (O : Ok σ m lo hi h) (hK : Lasting D m lo hi K) (hσ : K σ)
    (hb : ∀ y ∈ sizes, y < maxRequest)
    (hfit : iallocTotal (sizes.map request2size) chunks < 2 ^ 64)
    (hA : ∀ b, m ≤ b → b < hi → InArray chunks sizes.length b → Payload h.chunks b)
    (harr : chunks ≠ 0 → ∀ a, chunks ≤ a → a + 8 ≤ chunks + 8 * sizes.length →
      σ.mapped a 8 = true)
    (h0 : h.Refuses (iallocTotal (sizes.map request2size) chunks - 8) → Q 0 σ)
    (hQ : ∀ a cs S υ h₁,
      Supplies K σ m lo hi h (sizes.map request2size) False chunks a cs S υ h₁ → Q a υ) :
    wp D (mspaceIndependentComalloc m sizes.length sizes chunks) Q σ := by
  have hlen : (sizes.map request2size).length = sizes.length := List.length_map _
  have hsum : (sizes.map request2size).sum < 2 ^ 64 := by
    unfold iallocTotal at hfit
    omega
  have hrun : wp D (ialloc m (sizes.map request2size).length sizes 0 chunks) Q σ := by
    apply O.wp_ialloc hK hσ rfl
    · intro j y hy
      rw [Nat.zero_add, elementSizeAt, if_neg (by simp)]
      rw [List.getElem?_map] at hy
      obtain ⟨x, hx, rfl⟩ := Option.map_eq_some_iff.mp hy
      rw [List.getD, hx]
      rfl
    · exact request2size_fits hb
    · rw [if_neg (by simp), hlen, addSizes_eq (by simp) (by simpa using hsum)]
      simp
    · exact hfit
    · rw [hlen]
      exact hA
    · rw [hlen]
      exact harr
    · exact h0
    · intro a cs S υ h₁ hsup
      exact hQ a cs S υ h₁ ⟨hsup.sizes, hsup.slots, hsup.grants, hsup.listed, fun hc => hc.elim⟩
  rw [hlen] at hrun
  exact hrun

/-- `mspace_independent_calloc`: null, or elements of one size, and they are zero. -/
theorem Ok.wp_mspaceIndependentCalloc {Q : Nat → State → Prop} {chunks e : Nat}
    (O : Ok σ m lo hi h) (hK : Lasting D m lo hi K) (hσ : K σ) (hb : e < maxRequest)
    (hfit : iallocTotal (List.replicate n (request2size e)) chunks < 2 ^ 64)
    (hA : ∀ b, m ≤ b → b < hi → InArray chunks n b → Payload h.chunks b)
    (harr : chunks ≠ 0 → ∀ a, chunks ≤ a → a + 8 ≤ chunks + 8 * n → σ.mapped a 8 = true)
    (h0 : h.Refuses (iallocTotal (List.replicate n (request2size e)) chunks - 8) → Q 0 σ)
    (hQ : ∀ a cs S υ h₁, Supplies K σ m lo hi h (List.replicate n (request2size e)) True chunks
      a cs S υ h₁ → Q a υ) :
    wp D (mspaceIndependentCalloc m n e chunks) Q σ := by
  have hlen : (List.replicate n (request2size e)).length = n := List.length_replicate
  obtain ⟨h32, h8, _⟩ := request2size_spec hb
  have hsum : n * request2size e < 2 ^ 64 := by
    unfold iallocTotal at hfit
    rw [List.sum_replicate_nat] at hfit
    omega
  have hrun : wp D (ialloc m (List.replicate n (request2size e)).length [e] 3 chunks) Q σ := by
    have helem : request2size e =
        if 3 &&& 1 ≠ 0 then request2size ([e].getD 0 0) else 0 := by
      rw [if_pos (by decide)]
      rfl
    apply O.wp_ialloc hK hσ helem
    · intro j y hy
      obtain rfl := List.eq_of_mem_replicate (List.mem_of_getElem? hy)
      rw [elementSizeAt, if_pos (by omega)]
    · intro y hy
      rw [List.eq_of_mem_replicate hy]
      exact ⟨h8, h32⟩
    · rw [if_pos (by decide), hlen, List.sum_replicate_nat, timesSize, Nat.mod_eq_of_lt hsum]
    · exact hfit
    · rw [hlen]
      exact hA
    · rw [hlen]
      exact harr
    · exact h0
    · intro a cs S υ h₁ hsup
      exact hQ a cs S υ h₁ ⟨hsup.sizes, hsup.slots, hsup.grants, hsup.listed,
        fun _ => hsup.zeroed (by decide)⟩
  rw [hlen] at hrun
  exact hrun

/-- The overflow check of `calloc` is exact. -/
theorem callocRequest_eq (n e : Nat) :
    callocRequest n e = if n * e < 2 ^ 64 then n * e else maxSizeT := by
  unfold callocRequest
  by_cases hn : n ≠ 0
  · rw [if_pos hn]
    by_cases hlt : n * e < 2 ^ 64
    · have hreq : timesSize n e = n * e := Nat.mod_eq_of_lt hlt
      have hdiv : n * e / n = e := Nat.mul_div_cancel_left e (Nat.pos_of_ne_zero hn)
      rw [if_pos hlt, hreq, hdiv, if_neg fun hc => hc.2 rfl]
    · rw [if_neg hlt, if_pos]
      constructor
      · intro hsmall
        have hmask : clearBits (n ||| e) 0xFFFF = (n ||| e) - (n ||| e) % 2 ^ 16 := by
          rw [clearBits, show (0xFFFF : Nat) = 2 ^ 16 - 1 from rfl, Nat.and_two_pow_sub_one_eq_mod]
        rw [hmask] at hsmall
        have hor : n ||| e < 2 ^ 16 := by omega
        have hmul : n * e ≤ 2 ^ 16 * 2 ^ 16 :=
          Nat.mul_le_mul (Nat.le_of_lt (Nat.lt_of_le_of_lt Nat.left_le_or hor))
            (Nat.le_of_lt (Nat.lt_of_le_of_lt Nat.right_le_or hor))
        omega
      · intro he
        have hle := Nat.mul_div_le (timesSize n e) n
        rw [he] at hle
        have hmod : timesSize n e < 2 ^ 64 := Nat.mod_lt _ (by decide)
        omega
  · have hz : n = 0 := Decidable.not_not.mp hn
    rw [if_neg hn, hz, Nat.zero_mul, if_pos (by decide)]

/-- `mspace_calloc`: null, where the product overflows at least, or that much zeroed memory. -/
theorem Ok.wp_mspaceCalloc {Q : Nat → State → Prop} {e : Nat} (O : Ok σ m lo hi h)
    (hK : Lasting D m lo hi K) (hσ : K σ) (h0 : h.Refuses (callocRequest n e) → Q 0 σ)
    (hQ : n * e < 2 ^ 64 → ∀ v s τ h', Grants K σ m lo hi h [(v, s)] τ h' → n * e + 8 ≤ s →
      (∀ b, v + 16 ≤ b → b < v + 16 + n * e → τ.byte b = .known 0) → Q (v + 16) τ) :
    wp D (mspaceCalloc m n e) Q σ := by
  unfold mspaceCalloc
  simp only [wp_bind]
  refine O.wp_grant hK hσ ?_ ?_
  · intro hno
    rw [wp_if_neg (by simp)]
    exact h0 hno
  intro v s τ h' G hs _
  have hpm := mem_live.mp (G.mem List.mem_cons_self)
  have hb := G.ok.core.chunk_bounds hpm
  have hword := G.ok.core.arena.word
  simp only at hb
  have hlt : n * e < 2 ^ 64 := by
    rw [callocRequest_eq] at hs
    by_contra hge
    rw [if_neg hge] at hs
    simp only [maxSizeT] at hs
    omega
  rw [callocRequest_eq, if_pos hlt] at hs ⊢
  rw [wp_if_pos (by omega)]
  simp only [callocMustClear, wp_bind, mem2chunk, Nat.add_sub_cancel]
  refine G.ok.core.wp_isMmapped hpm ?_
  rw [wp_pure, wp_if_pos (by decide), wp_bind, wp_memset (G.ok.core.arena.covers (by omega) (by omega)),
    wp_pure]
  have hf : Frame (fun b => v + 16 ≤ b ∧ b < v + s + 8) τ (τ.fill (v + 16) (n * e) 0) :=
    (Frame.refl _ τ).fill fun b h1 h2 => ⟨h1, by omega⟩
  exact hQ hlt v s _ h' (G.write hf (hK.stored.fill _ _ _ G.lasts) fun b hb =>
    ⟨v, s, List.mem_cons_self, hb⟩) hs fun b h1 h2 => if_pos ⟨h1, h2⟩

end

end Mmdata.Proofs
