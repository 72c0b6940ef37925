import Mmdata.Image.Opened
import Mmdata.Proofs.RootObject
import Mmdata.Proofs.Sited
import Mmdata.Proofs.Twins

namespace Mmdata.Proofs
open Lib Malloc Image Relocation

/-- The process has the parameters of the image, or the operation does not make top exceed the
trim threshold. -/
def ParamsOwn (i : Opened) (σ : State) (op : ImageOp) : Prop :=
  σ.glob.pmparams = i.buf + allocatorMetaSize ∨ ∀ c, op = .call c → ¬ Trims σ i.ms i.live c

/-- Nothing but bytes of the buffer changes, and where `pmparams` points. -/
structure OnlyIn (buf size : Nat) (σ τ : State) : Prop where
  maps : τ.maps = σ.maps
  page : τ.glob.pageSize = σ.glob.pageSize
  byte : ∀ a, OutOf buf size a → τ.byte a = σ.byte a

/-- The image in the process is the one that there would be without others, and its mspace holds
its blocks. -/
structure Mirrored (i : Opened) (σ : State) : Prop where
  mirror : ∃ C : Copying, C.src = i.buf ∧ C.dst = C.src ∧ C.size = i.size ∧ Copied C i.alone σ
  sited : ∃ cap, Sited i.alone i.buf cap i.size i.live
  mspace : i.ms = i.buf + 4096 + 64

section

variable {i : Opened} {C : Copying} {V V' σ τ υ : State} {buf size cap ms v a : Nat} {live : List Nat}
  {K : Objects} {d : MMData} {memsize : Int} {op : ImageOp}

/-! Where an image stays where it is. -/

theorem same_moves (hC : C.dst = C.src) (h : C.src ≤ a) : C.relocation.Moves a a := by
  have hmove := copying_moves h
  rwa [place_same hC] at hmove

theorem same_aims (hC : C.dst = C.src) (a : Nat) : C.relocation.Aims a a :=
  fun h => same_moves hC h

theorem same_points {t t' : Nat} (hC : C.dst = C.src) (h : C.relocation.Points t t') : t = t' := by
  cases h with
  | inl h => rw [h.1, h.2]
  | inr h => rw [moves_place h, place_same hC]

theorem alike_table (hC : C.dst = C.src) (hsrc : C.src = buf) (hsize : 8192 ≤ C.size)
    (hK : TableFixed K buf) : C.relocation.Alike (K.table (namingTable buf) buf)
      (K.table (namingTable buf) buf) fun _ _ => True := by
  obtain ⟨f, hf⟩ := hK buf
  subst hsrc
  have hnt : namingTable C.src = C.src + 1040 := rfl
  have hsz : maxNamingTableSize = 256 := rfl
  intro V σ M
  have hV : V.mapped (namingTable C.src) maxNamingTableSize = true := by
    have hr : (C.src, C.src + C.size) ∈ V.maps := by
      rw [M.only]
      exact List.mem_cons_self
    exact Machine.mapped_of_mem hr (by omega) (by omega)
  have hσ : σ.mapped (namingTable C.src) maxNamingTableSize = true := by
    obtain ⟨q, hq, h1, h2⟩ := M.mapped
    have h1 : q.1 ≤ C.dst := h1
    have h2 : C.dst + C.size ≤ q.2 := h2
    exact Machine.mapped_of_mem hq (by omega) (by omega)
  rw [hf V hV]
  refine ⟨(), _, hf σ hσ, trivial, M.write ?_, rfl, ?_⟩
  · intro i hi
    have hc : V.byte (C.src + i) = σ.byte (C.dst + i) := M.cells i hi
    show (if _ then _ else _) = (if _ then _ else _)
    rw [show C.relocation.dst = C.src from hC, show C.relocation.src = C.src from rfl]
    rw [hC] at hc
    rw [hc]
  · intro b hb
    have hb : b < C.dst ∨ C.dst + C.size ≤ b := hb
    exact if_neg (by omega)

theorem alike_allignPage (n : Int) : C.relocation.Alike (allignPage n) (allignPage n) Eq := by
  unfold allignPage
  apply alike_bind alike_globals
  intro g g' hg
  rw [show g.pageSize = g'.pageSize from hg.1.1.trans hg.1.2.symm]
  apply alike_if Iff.rfl
  · intro _
    exact alike_trap
  · intro _
    exact alike_pure rfl

theorem alike_createAllocator (hC : C.dst = C.src) (hsrc : C.src = buf)
    (hsize : C.size = memsize) (hK : TableFixed K buf) :
    C.relocation.Alike (createAllocator K d buf memsize) (createAllocator K d buf memsize) Eq := by
  have hpos : buf ≠ 0 := by
    have hlow := C.low
    omega
  unfold createAllocator
  apply alike_if Iff.rfl
  · intro _
    exact alike_pure rfl
  intro hlarge
  simp only [allocatorMetaSize] at hlarge
  apply alike_bind (alike_memset (same_aims hC _))
  intro _ _ _
  apply alike_bind (alike_store (same_aims hC _))
  intro _ _ _
  apply alike_bind (alike_load (same_aims hC _))
  intro n _ hn
  subst hn
  apply alike_bind (alike_allignPage _)
  intro n _ hn
  subst hn
  apply alike_bind (alike_store (same_aims hC _))
  intro _ _ _
  apply alike_bind (alike_load (same_aims hC _))
  intro cap _ hcap
  subst hcap
  apply alike_bind (alike_createMspaceWithBase copying_params copying_aims
    (same_moves hC (by omega)))
  intro m m' hm
  cases same_points hC hm
  apply alike_bind (alike_store (same_aims hC _))
  intro _ _ _
  simp only [if_pos hpos]
  apply alike_bind (alike_table hC hsrc (by omega) hK)
  intro _ _ _
  exact alike_pure rfl

theorem alike_usedSpace (hC : C.dst = C.src) :
    C.relocation.Alike (usedSpace buf) (usedSpace buf) Eq := by
  unfold usedSpace getMspace mspaceTopAddress
  apply alike_bind (R := Eq)
  · apply alike_bind (alike_load (same_aims hC _))
    intro n _ hn
    exact alike_pure (congrArg (addSize buf) hn)
  intro m _ hm
  subst hm
  apply alike_bind (R := Eq)
  · apply alike_bind (alike_loadPtr (same_aims hC _))
    intro t _ ht
    exact alike_pure (congrArg chunk2mem (same_points hC ht))
  intro t _ ht
  exact alike_pure (congrArg (subSize · buf) ht)

/-- A naming table of zeros. -/
def zeroTable : Objects := ⟨fun t _ => memset t maxNamingTableSize 0, fun _ _ => pure ()⟩

theorem zeroTable_fixed (buf : Nat) : TableFixed zeroTable buf := by
  intro space
  refine ⟨fun _ _ => .known 0, fun σ hm => ?_⟩
  show memset (namingTable buf) maxNamingTableSize 0 σ = _
  unfold memset
  rw [hm]
  rfl

theorem remade_frame {f : Nat → Cell → Cell} {n : Nat} :
    Frame (Within a (a + n)) σ (remade f a n σ) := ⟨rfl, rfl, fun _ hb => if_neg hb⟩

theorem tableFixed_ok (hK : TableFixed K buf) : TableOk K buf := by
  intro space σ hm
  obtain ⟨f, hf⟩ := hK space
  rw [wp, hf σ hm]
  exact remade_frame

/-- The processes have the same bytes of an image, and one maps nothing else. -/
theorem Copied.pair (hC : C.dst = C.src) (S : Copied C V σ) (S' : Copied C V τ)
    (hm : σ.maps = [(C.src, C.src + C.size)]) : Copied C σ τ := by
  refine ⟨hm, S'.mapped, ?_, S.page.2, S'.page.2⟩
  intro i hi
  have hσ := S.bytes i hi
  rw [hC] at hσ
  exact hσ.symm.trans (S'.bytes i hi)

theorem Copied.self (S : Copied C V σ) (hC : C.dst = C.src) : Copied C V V := by
  refine ⟨S.only, ⟨_, S.only ▸ List.mem_cons_self, ?_, ?_⟩, fun i _ => by rw [hC], S.page.1, S.page.1⟩
  · exact Nat.le_of_eq hC.symm
  · exact Nat.le_of_eq (by rw [hC])

/-- What does not need the parameters does the same in both processes. -/
theorem Copied.both {α : Type} {x : Code α} (hC : C.dst = C.src)
    (hA : C.relocation.Alike x x Eq) (S : Copied C σ τ)
    (hx : wp Leftover x (fun _ _ => True) (aimed σ 0)) :
    (∃ r σ' τ', x σ = .ok (r, σ') ∧ x τ = .ok (r, τ') ∧ Copied C σ' τ' ∧
        C.relocation.Inside τ τ') ∨ ∃ e, x σ = .error e ∧ x τ = .error e := by
  cases hr : x (aimed σ 0) with
  | ok p =>
    obtain ⟨r, V⟩ := p
    obtain ⟨r₁, σ', hσ, h1, S₁, hI₁, _⟩ := (S.self hC).run hA (Or.inl rfl) hr
    obtain ⟨r₂, τ', hτ, h2, S₂, hI₂, _⟩ := S.run hA (Or.inl rfl) hr
    subst h1 h2
    exact Or.inl ⟨r, σ', τ', hσ, hτ, S₁.pair hC S₂ (hI₁.maps.trans S.only), hI₂⟩
  | error e =>
    have he := wp_error hx hr
    exact Or.inr ⟨e, (S.self hC).stop hA (Or.inl rfl) he hr, S.stop hA (Or.inl rfl) he hr⟩

theorem Copied.onlyIn (S : Copied C σ τ) (S' : Copied C V υ) (hC : C.dst = C.src)
    (hI : C.relocation.Inside τ υ) : OnlyIn C.src C.size τ υ := by
  refine ⟨hI.maps, S'.page.2.trans S.page.2.symm, ?_⟩
  intro a ha
  exact hI.byte a (by rw [show C.relocation.dst = C.src from hC]; exact ha)

theorem alike_operate (hC : C.dst = C.src) (hop : ∀ c, op ≠ .call c) :
    C.relocation.Alike (operate buf ms live op) (operate buf ms live op) Eq := by
  cases op with
  | call c => exact absurd rfl (hop c)
  | root j b =>
    apply alike_if Iff.rfl
    · intro _
      apply alike_bind (alike_store (same_aims hC _))
      intro _ _ _
      exact alike_pure rfl
    · intro _
      exact alike_pure rfl
  | used =>
    unfold operate
    apply alike_bind (alike_usedSpace hC)
    intro n _ hn
    exact alike_pure (congrArg (·, live) hn)

/-- What an image keeps when something else is written. -/
theorem Sited.elsewhere (I : Sited σ buf cap size live)
    (hf : Frame (fun a => ¬ Reserved buf size a) σ τ) : Sited τ buf cap size live :=
  have hu : Use ⟨fun _ => pure 0, fun _ => pure ()⟩ buf size (σ, live) (τ, live) := .elsewhere hf
  (I.use hu).1

theorem NoMspace.elsewhere (N : NoMspace σ buf live)
    (hf : Frame (fun a => ¬ Reserved buf size a) σ τ) : NoMspace τ buf live :=
  have hu : Use ⟨fun _ => pure 0, fun _ => pure ()⟩ buf size (σ, live) (τ, live) := .elsewhere hf
  N.use hu

/-- Such an operation returns. -/
theorem Sited.wp_operate (I : Sited σ buf cap size live)
    (hm : ∃ r ∈ σ.maps, r.1 ≤ buf ∧ buf + size ≤ r.2) (hop : ∀ c, op ≠ .call c) :
    wp Leftover (operate buf ms live op) (fun r τ => r.2 = live ∧
      Frame (fun a => ¬ Reserved buf size a) (aimed σ v) τ) (aimed σ v) := by
  obtain ⟨h, H⟩ := I.heap
  have hfits := I.fits
  have hword := H.ok.core.arena.word
  have hhigh := H.ok.core.arena.high
  cases op with
  | call c => exact absurd rfl (hop c)
  | root j b =>
    have hroot : rootObject buf = buf + 16 := rfl
    have hsz : maxRootStructSize = 1024 := rfl
    unfold operate
    by_cases hj : j < maxRootStructSize
    · have hcov : (aimed σ v).mapped (rootObject buf + j) 1 = true := by
        obtain ⟨r, hr, h1, h2⟩ := hm
        exact Machine.mapped_of_mem hr (by omega) (by omega)
      rw [wp_if_pos hj, wp_bind, wp_store hcov, wp_pure]
      refine ⟨rfl, (Frame.refl _ _).put ?_⟩
      intro a h1 h2 hr
      simp only [Reserved, allocatorMetaSize] at hr
      omega
    · rw [wp_if_neg hj]
      exact ⟨rfl, Frame.refl _ _⟩
  | used =>
    unfold operate usedSpace mspaceTopAddress
    simp only [wp_bind]
    have hoff : (aimed σ v).get 8 (mspaceOffset buf) = some (subSize (buf + 4096 + 64) buf) :=
      I.offset
    have htop : (aimed σ v).getPtr (top (buf + 4096 + 64)) = some h.top :=
      H.ok.core.scalars.topPtr
    apply wp_getMspace hoff (by omega) (by omega)
    rw [wp_loadPtr htop]
    exact ⟨rfl, Frame.refl _ _⟩

/-- An operation does in the process what it does where the other images do not exist. -/
theorem Mirrored.operate (M : Mirrored i σ) (hp : ParamsOwn i σ op) :
    (∃ r σ' α, Image.operate i.buf i.ms i.live op σ = .ok (r, σ') ∧
        Image.operate i.buf i.ms i.live op i.alone = .ok (r, α) ∧
        Mirrored { i with live := r.2, alone := α } σ' ∧ OnlyIn i.buf i.size σ σ') ∨
      ∃ e, Image.operate i.buf i.ms i.live op σ = .error e ∧
        Image.operate i.buf i.ms i.live op i.alone = .error e := by
  obtain ⟨⟨C, hsrc, hC, hsize, S⟩, ⟨cap, I⟩, hms⟩ := M
  by_cases hcall : ∃ c, op = .call c
  · obtain ⟨c, rfl⟩ := hcall
    obtain ⟨h, H⟩ := I.heap
    have hfits := I.fits
    have T : Twin C C (i.buf + 4096) cap i.live i.alone σ :=
      ⟨rfl, rfl, by omega, by omega, i.alone, h, S.self hC, S, H⟩
    have hτ : σ.glob.pmparams = C.place (i.buf + 4096) ∨ ∀ V h, Copied C V i.alone →
        Copied C V σ → Held V (i.buf + 4096) cap i.live h →
        ¬ CallTrims V (i.buf + 4096 + 64) h i.live c := by
      rw [place_same hC]
      cases hp with
      | inl hp => exact Or.inl hp
      | inr hp => exact Or.inr fun V h _ S' H hcall => hp c rfl (hms ▸ S'.trims hC (by omega) H hcall)
    have hcall := T.call hC I.params hτ
    rw [place_same hC, live_same hC, ← hms] at hcall
    cases hcall with
    | inl hok =>
      obtain ⟨r, α, r', σ', hα, hσ, G⟩ := hok
      have hr := G.result
      rw [place_same hC, live_same hC] at hr
      subst hr
      obtain ⟨_, _, _, _, V, h', S₁, S₂, _⟩ := G.twin
      have S' := S₁.pair hC S₂ (G.frame.maps.trans S.only)
      have hown := S.onlyIn S₂ hC G.inside
      rw [hsrc, hsize] at hown
      exact Or.inl ⟨_, σ', α, hσ, hα,
        ⟨⟨C, hsrc, hC, hsize, S'⟩, ⟨cap, (I.perform (hms ▸ hα)).1⟩, hms⟩, hown⟩
    | inr hstop =>
      obtain ⟨e, hα, hσ⟩ := hstop
      exact Or.inr ⟨e, hσ, hα⟩
  · have hop : ∀ c, op ≠ .call c := fun c hc => hcall ⟨c, hc⟩
    have hm : ∃ r ∈ i.alone.maps, r.1 ≤ i.buf ∧ i.buf + i.size ≤ r.2 :=
      ⟨_, S.only ▸ List.mem_cons_self, Nat.le_of_eq hsrc, by rw [hsrc, hsize]⟩
    have hrun := @Sited.wp_operate i.alone i.buf i.size cap i.ms 0 i.live op I hm hop
    cases S.both hC (alike_operate hC hop) (wp_mono hrun fun _ _ _ => trivial) with
    | inl hok =>
      obtain ⟨r, α, σ', hα, hσ, S', hI⟩ := hok
      obtain ⟨hlive, hf⟩ := wp_ok (I.wp_operate hm hop) hα
      have hf : Frame (fun a => ¬ Reserved i.buf i.size a) i.alone α := hf
      have I' := I.elsewhere hf
      have hown := S.onlyIn S' hC hI
      rw [hsrc, hsize] at hown
      exact Or.inl ⟨r, σ', α, hσ, hα,
        ⟨⟨C, hsrc, hC, hsize, S'⟩, ⟨cap, hlive ▸ I'⟩, hms⟩, hown⟩
    | inr hstop =>
      obtain ⟨e, hα, hσ⟩ := hstop
      exact Or.inr ⟨e, hσ, hα⟩

theorem wp_createAlone {k : Nat} {n : Int} (hn : n = size) (hK : TableFixed K buf) (hk : 12 ≤ k)
    (hpage : σ.glob.pageSize = 2 ^ k) (h8 : buf % 8 = 0) (h63 : size < 2 ^ 63)
    (hword : buf + size ≤ 2 ^ 64) (hmap : ∃ r ∈ σ.maps, r.1 ≤ buf ∧ buf + size ≤ r.2) :
    wp Leftover (createAllocator K d buf n) (fun _ _ => True) σ := by
  by_cases hl : 8192 ≤ size
  · have hmap' : ∃ r ∈ σ.maps, r.1 ≤ buf ∧ (buf : Int) + n ≤ r.2 := by
      obtain ⟨r, hr, h1, h2⟩ := hmap
      exact ⟨r, hr, h1, by omega⟩
    obtain ⟨_, _, hcreate⟩ := @created_shadow σ buf k K d n (tableFixed_ok hK) (by omega)
      (by omega) h8 (by omega) hk hpage hmap'
    exact wp_mono hcreate fun _ _ _ => trivial
  · unfold createAllocator
    rw [wp_if_pos (by simp only [allocatorMetaSize]; omega)]
    trivial

/-- An image is created in the process as it is created where the others do not exist. -/
theorem create_mirrored {k : Nat} {n : Int} (hn : n = size) (hK : TableFixed K buf) (hk : 12 ≤ k)
    (hpage : σ.glob.pageSize = 2 ^ k) (hlow : ∀ m ∈ σ.maps, 4096 ≤ m.1) (h8 : buf % 8 = 0)
    (h63 : size < 2 ^ 63) (hword : buf + size ≤ 2 ^ 64)
    (hmap : ∃ r ∈ σ.maps, r.1 ≤ buf ∧ buf + size ≤ r.2) :
    (∃ r σ' α, createAllocator K d buf n σ = .ok (r, σ') ∧
        createAllocator K d buf n (aloneWith σ buf size) = .ok (r, α) ∧
        OnlyIn buf size σ σ' ∧ (∀ a, buf ≤ a → a < buf + size → α.byte a = σ'.byte a) ∧
        ∀ ms, r.1 = 0 → result (getMspace buf) σ' = some ms → ms ≠ 0 →
          Mirrored ⟨buf, size, ms, [], α⟩ σ') ∨
      ∃ e, createAllocator K d buf n σ = .error e ∧
        createAllocator K d buf n (aloneWith σ buf size) = .error e := by
  obtain ⟨q, hq, hq1, hq2⟩ := hmap
  have hbuf : 4096 ≤ buf := Nat.le_trans (hlow q hq) hq1
  let C : Copying := ⟨buf, buf, size, 2 ^ k, by omega, by omega, hword, hword, rfl⟩
  have S : Copied C (aloneWith σ buf size) σ := ⟨rfl, ⟨q, hq, hq1, hq2⟩, fun _ _ => rfl, hpage, hpage⟩
  have hself : ∃ r ∈ (aloneWith σ buf size).maps, r.1 ≤ buf ∧ buf + size ≤ r.2 :=
    ⟨_, List.mem_cons_self, Nat.le_refl _, Nat.le_refl _⟩
  have hrun : wp Leftover (createAllocator K d buf n) (fun _ _ => True)
      (aimed (aloneWith σ buf size) 0) := wp_createAlone hn hK hk hpage h8 h63 hword hself
  have hA : C.relocation.Alike (createAllocator K d buf n) (createAllocator K d buf n) Eq :=
    alike_createAllocator rfl rfl hn.symm hK
  cases S.both rfl hA hrun with
  | inr hstop =>
    obtain ⟨e, hα, hσ⟩ := hstop
    exact Or.inr ⟨e, hσ, hα⟩
  | inl hok =>
    obtain ⟨⟨rc, d'⟩, α, σ', hα, hσ, S', hI⟩ := hok
    refine Or.inl ⟨_, σ', α, hσ, hα, S.onlyIn S' rfl hI, ?_, ?_⟩
    · intro a h1 h2
      have hb := S'.bytes (a - buf) (by show a - buf < size; omega)
      rwa [show C.src + (a - buf) = a by show buf + _ = a; omega] at hb
    · intro ms hrc hms hne
      cases (show rc = 0 from hrc)
      have hends : CreateEnds d buf n _ (0, d') α := wp_ok any_createAllocator hα
      have hl : 8192 ≤ size := by
        cases hends with
        | created hlarge => omega
      have hlow' : ∀ m ∈ (aloneWith σ buf size).maps, 4096 ≤ m.1 := by
        intro m hm
        cases List.mem_singleton.mp hm
        exact hbuf
      have hpage' : (aloneWith σ buf size).glob.pageSize = 2 ^ k := hpage
      obtain ⟨σ₁, hmaps, L, ht⟩ := created_laid hn (by omega) h63 h8 hword hk hpage' hself hlow' hα
      have hcov : σ₁.mapped (namingTable buf) maxNamingTableSize = true := by
        rw [Machine.mapped_congr hmaps]
        exact Machine.mapped_of_mem List.mem_cons_self
          (by simp only [namingTable, maxRootStructSize]; omega)
          (by simp only [namingTable, maxRootStructSize, maxNamingTableSize]; omega)
      have hf : Frame (fun a => ¬ Reserved buf size a) σ₁ α := by
        apply (wp_ok (tableFixed_ok hK buf σ₁ hcov) ht).mono
        intro b hb hres
        have hb2 := hb.2
        simp only [Within, Reserved, namingTable, rootObject, allocatorMetaSize,
          maxRootStructSize, maxNamingTableSize] at hb hb2 hres
        omega
      have hat : ∀ m, α.get 8 (mspaceOffset buf) = some (subSize m buf) → m < 2 ^ 64 → ms = m := by
        intro m hm hlt
        obtain ⟨υ, hυ⟩ := result_ok hms
        have hget : wp (fun _ => True) (getMspace buf) (fun v _ => v = m) σ' :=
          wp_getMspace ((S'.shows rfl).get hm) hlt (by omega) rfl
        exact wp_ok hget hυ
      cases L.heap with
      | inl N => exact absurd (hat 0 (N.2.elsewhere hf).offset (by decide)) hne
      | inr I =>
        have I' := I.2.elsewhere hf
        have hword' : buf + 4096 + 64 < 2 ^ 64 := by omega
        exact ⟨⟨C, rfl, rfl, rfl, S'⟩, ⟨_, I'⟩, hat _ I'.offset hword'⟩

end

end Mmdata.Proofs
