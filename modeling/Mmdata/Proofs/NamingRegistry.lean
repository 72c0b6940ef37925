import Mmdata.Proofs.NamingAtomic

namespace Mmdata.Naming
open Lib Image

def nodeBlocks : List Node → Multiset Block
  | [] => 0
  | e :: nodes => e.blocks + nodeBlocks nodes

/-- The nodes without one. -/
def without (e : Node) (nodes : List Node) : List Node :=
  nodes.filter fun f => decide (f.mem ≠ e.mem)

/-- The table binds each name to the object that `ref` knows. What the table and the
objects take is allocated, each block for one of them. -/
structure Registry (d : MMData) (s : Store) (t : NamingTable) (ref : List UInt8 → Nat) :
    Prop where
  image : d.meta_ ≠ 0
  table : s.tables d.meta_ = some t
  mems : (t.nodes.map Node.mem).Nodup
  keys : ∀ e ∈ t.nodes, ∀ f ∈ t.nodes, e.first.chars = f.first.chars → e.mem = f.mem
  named : ∀ e ∈ t.nodes, ref e.first.chars = e.second
  absent : ∀ str, (∀ e ∈ t.nodes, e.first.chars ≠ str) → ref str = 0
  owned : t.array + nodeBlocks t.nodes + s.objects ≤ s.live
  objects : ∀ e ∈ t.nodes, e.second ≠ 0 → ∃ o ∈ s.objects, o.addr = e.second ∧ 0 < o.size
  distinct : ∀ e ∈ t.nodes, ∀ f ∈ t.nodes, e.second ≠ 0 → e.second = f.second → e.mem = f.mem

/-- What `DeleteNamingObject` of the name in the node `e` and the object `o` leaves. -/
structure Removed (d : MMData) (s : Store) (t : NamingTable) (e : Node) (o : Block) (s' : Store) :
    Prop where
  tables : s'.tables = (s.setTable d.meta_ { t with nodes := without e t.nodes }).tables
  objects : s.objects = {o} + s'.objects
  live : s.live = e.blocks + {o} + s'.live

/-- The object that is registered under a name. -/
def Store.registered (s : Store) (d : MMData) (str : List UInt8) : Option Nat :=
  (s.tables d.meta_).bind fun t => (t.find str).map Node.second

/-- The states of an image that was loaded for writing, and the object that each name was
given last, or 0. A name is deleted with the object that is registered under it. A
constructor may throw. -/
inductive Using (L : Boost) : MMData → Store → (List UInt8 → Nat) → Prop
  | loaded {d₀ d : MMData} {s s' : Store} {buf p : Nat} {size : Int} : buf ≠ 0 →
      s.objects ≤ s.live → loadRootWriteObject d₀ buf size s = .ok (p, d) s' → p ≠ 0 →
      Using L d s' fun _ => 0
  | new {d : MMData} {s s' : Store} {ref : List UInt8 → Nat} {T : ObjectType}
      {str : List UInt8} {r : NewAnswer} {v : Nat} : Using L d s ref →
      newNamingObject L d T str r s = .ok v s' →
      Using L d s' fun str' => if v ≠ 0 ∧ str' = str then v else ref str'
  | thrown {d : MMData} {s s' : Store} {ref : List UInt8 → Nat} {T : ObjectType}
      {str : List UInt8} {r : NewAnswer} : Using L d s ref →
      newNamingObject L d T str r s = .error .constructor s' → Using L d s' ref
  | get {d : MMData} {s s' : Store} {ref : List UInt8 → Nat} {str : List UInt8}
      {answer : Option Nat} {v : Nat} : Using L d s ref →
      getNamingObject L d str answer s = .ok v s' → Using L d s' ref
  | delete {d : MMData} {s s' : Store} {ref : List UInt8 → Nat} {T : ObjectType}
      {str : List UInt8} {p : Nat} {answer : Option Nat} {done : Bool} : Using L d s ref →
      (∀ v, s.registered d str = some v → p = v) →
      deleteNamingObject L d T str p answer s = .ok done s' →
      Using L d s' fun str' => if done = true ∧ str' = str then 0 else ref str'

/-- What the calls do with names: `GetNamingObject`, granted a block for its key, returns the
object that the name was given last, and it returns no other, each such object is constructed and its block allocated, different names have
different objects, and `DeleteNamingObject` of a name with its object destroys that object
and frees its block, those of the entry, and no others. -/
structure FaithfulRegistry (L : Boost) (d : MMData) (s : Store) (ref : List UInt8 → Nat) : Prop where
  get : ∀ str answer, StringGranted L s str d.allocator_ answer →
    getNamingObject L d str answer s = .ok (ref str) s
  only : ∀ str answer v s', getNamingObject L d str answer s = .ok v s' → v = ref str
  live : ∀ str, ref str ≠ 0 → ∃ o ∈ s.objects, o ∈ s.live ∧ o.addr = ref str
  distinct : ∀ str str', ref str ≠ 0 → ref str = ref str' → str = str'
  delete : ∀ T str p answer s', (∀ v, s.registered d str = some v → p = v) →
    deleteNamingObject L d T str p answer s = .ok true s' → p = ref str ∧
      s.objects = {⟨d.allocator_, p, T.size⟩} + s'.objects ∧
      ∃ t e, s.tables d.meta_ = some t ∧ t.find str = some e ∧
        s.live = e.blocks + {⟨d.allocator_, p, T.size⟩} + s'.live

section

variable {L : Boost} {d : MMData} {T : ObjectType} {s s' : Store} {str str' : List UInt8}
  {t t' : NamingTable} {r : NewAnswer} {answer : Option Nat} {p v : Nat} {x : Thrown}
  {e f : Node} {o : Block} {nodes : List Node} {ref : List UInt8 → Nat}

theorem find_some (h : t.find str = some e) : e ∈ t.nodes ∧ e.first.chars = str := by
  refine ⟨List.mem_of_find?_eq_some h, ?_⟩
  have hp := List.find?_some h
  simpa using hp

theorem find_none (h : t.find str = none) (he : e ∈ t.nodes) : e.first.chars ≠ str := by
  have hp := List.find?_eq_none.mp h e he
  simpa using hp

theorem mem_without : f ∈ without e nodes ↔ f ∈ nodes ∧ f.mem ≠ e.mem := by
  simp [without]

theorem blocks_le_of_mem (he : e ∈ nodes) : e.blocks ≤ nodeBlocks nodes := by
  induction nodes with
  | nil => cases he
  | cons f nodes ih =>
    cases he with
    | head => exact Multiset.le_add_right _ _
    | tail _ he => exact (ih he).trans (Multiset.le_add_left _ _)

/-- A node is one of the nodes, once. -/
theorem nodeBlocks_without (hn : (nodes.map Node.mem).Nodup) (he : e ∈ nodes) :
    nodeBlocks nodes = e.blocks + nodeBlocks (without e nodes) := by
  induction nodes with
  | nil => cases he
  | cons f nodes ih =>
    obtain ⟨hnot, hn'⟩ := List.nodup_cons.mp hn
    cases he with
    | head =>
      have hrest : without e (e :: nodes) = nodes := by
        unfold without
        rw [List.filter_cons_of_neg (by simp)]
        apply List.filter_eq_self.mpr
        intro g hg
        simp only [decide_not, Bool.not_eq_true', decide_eq_false_iff_not]
        intro hm
        exact hnot (hm ▸ List.mem_map.mpr ⟨g, hg, rfl⟩)
      rw [hrest]
      rfl
    | tail _ he =>
      have hne : f.mem ≠ e.mem := by
        intro hm
        exact hnot (hm ▸ List.mem_map.mpr ⟨e, he, rfl⟩)
      have hrest : without e (f :: nodes) = f :: without e nodes := by
        unfold without
        rw [List.filter_cons_of_pos (by simpa using hne)]
      rw [hrest]
      simp only [nodeBlocks]
      rw [ih hn' he]
      ac_rfl

theorem map_secondSet {it : Block} (h : ∀ f ∈ nodes, f.mem ≠ it) :
    nodes.map (secondSet it v) = nodes := by
  apply (List.map_congr_left ?_).trans (List.map_id nodes)
  intro f hf
  simp only [secondSet, if_neg (h f hf), id]

/-- A block apart from one with bytes is another. -/
theorem ne_of_apart {a b : Block} (h : Apart a.addr a.size b.addr b.size) (ha : 0 < a.size)
    (hb : 0 < b.size) : a.addr ≠ b.addr := by
  unfold Apart at h
  omega

theorem Registry.mem_live (R : Registry d s t ref) (he : e ∈ t.nodes) : e.mem ∈ s.live := by
  have hle : e.blocks ≤ s.live :=
    (blocks_le_of_mem he).trans ((Multiset.le_add_left _ _).trans
      ((Multiset.le_add_right _ _).trans R.owned))
  exact Multiset.mem_of_le hle (Multiset.mem_add.mpr (Or.inl (Multiset.mem_singleton_self _)))

/-- A node that the allocator gives is none of the table's. -/
theorem Registry.fresh (R : Registry d s t ref) {b : Block} (hb : s.Allows b) (hpos : 0 < b.size) :
    ∀ f ∈ t.nodes, f.mem ≠ b := by
  intro f hf hfb
  have hapart := hb.2.2 f.mem (R.mem_live hf)
  rw [hfb] at hapart
  exact ne_of_apart hapart hpos hpos rfl

theorem Registry.find (R : Registry d s t ref) :
    ref str = match t.find str with
      | some e => e.second
      | none => 0 := by
  cases hf : t.find str with
  | some e =>
    obtain ⟨he, hstr⟩ := find_some hf
    rw [← hstr]
    exact R.named e he
  | none => exact R.absent str fun e he => find_none hf he

/-- `GetNamingObject` returns what `ref` knows and changes nothing. -/
theorem Registry.get (R : Registry d s t ref)
    (hr : getNamingObject L d str answer s = .ok v s') : v = ref str ∧ s' = s := by
  have hend : ends (getNamingObject L d str answer) (fun v s' => v = ref str ∧ s' = s)
      (fun _ _ => True) s := by
    unfold getNamingObject
    rw [ends_if_neg R.image]
    apply ends_withString _ (fun _ _ => trivial) (fun _ => trivial) (fun _ => trivial)
    intro key hkey _
    rw [ends_bind]
    apply ends_getNamingTable
    · intro t₀ ht₀
      cases R.table.symm.trans ht₀
      rw [hkey.sameChars, R.find]
      cases t.find str with
      | none =>
        intro s₂ hs₂
        exact ⟨rfl, (Store.eq_of_add hs₂).symm⟩
      | some e =>
        intro s₂ hs₂
        exact ⟨rfl, (Store.eq_of_add hs₂).symm⟩
    · exact fun _ _ => trivial
  have hend := ends_ok hend hr
  exact hend

/-- All that `DeleteNamingObject` may do when it returns. -/
theorem ends_deleteNamingObject {Q : Bool → Store → Prop} (ht : s.tables d.meta_ = some t)
    (hno : t.find str = none → Q false s)
    (hdone : ∀ e s', t.find str = some e → Removed d s t e ⟨d.allocator_, p, T.size⟩ s' →
      Q true s') :
    ends (deleteNamingObject L d T str p answer) Q (fun _ _ => True) s := by
  unfold deleteNamingObject
  apply ends_withString _ (fun _ _ => trivial) (fun _ => trivial) (fun _ => trivial)
  intro key hkey _
  rw [ends_bind]
  apply ends_getNamingTable
  · intro t₀ ht₀
    cases ht.symm.trans ht₀
    rw [hkey.sameChars]
    cases hf : t.find str with
    | none =>
      intro s₂ hs₂
      cases Store.eq_of_add hs₂
      exact hno hf
    | some e =>
      simp only
      unfold erase delete
      rw [ends_bind, ends_bind]
      apply ends_getNamingTable
      · intro t₁ ht₁
        cases ht.symm.trans ht₁
        rw [ends_bind, ends_setNamingTable, ends_bind]
        apply ends_destroyString
        · intro s₁ hs₁
          apply ends_deallocate
          · intro s₂ hs₂
            rw [ends_bind, ends_bind, ends_get]
            by_cases ho : ⟨d.allocator_, p, T.size⟩ ∈ s₂.objects
            · rw [ends_if_pos ho, ends_bind, ends_modify]
              apply ends_deallocate
              · intro s₃ hs₃ s₄ hs₄
                apply hdone e s₄ hf
                obtain ⟨_, hl₁, ho₁, ht₁⟩ := Store.mk.inj hs₁
                obtain ⟨_, hl₂, ho₂, ht₂⟩ := Store.mk.inj hs₂
                obtain ⟨_, hl₃, ho₃, ht₃⟩ := Store.mk.inj hs₃
                obtain ⟨_, hl₄, ho₄, ht₄⟩ := Store.mk.inj hs₄
                refine ⟨(ht₁.trans (ht₂.trans (ht₃.trans ht₄))).symm, ?_, ?_⟩
                · have hsame : s.objects = s₂.objects := ho₁.trans ho₂
                  rw [hsame, ← ho₄, ← ho₃, Multiset.singleton_add, Multiset.cons_erase ho]
                · have hadd : key.blocks + s.live = e.first.blocks + s₁.live := hl₁
                  rw [hl₂, hl₃, hl₄] at hadd
                  have hsum : key.blocks + s.live =
                      key.blocks + (e.blocks + {⟨d.allocator_, p, T.size⟩} + s₄.live) := by
                    rw [hadd, Node.blocks]
                    ac_rfl
                  exact add_left_cancel hsum
              · exact fun _ _ _ => trivial
            · rw [ends_if_neg ho]
              exact fun _ _ => trivial
          · exact fun _ _ _ => trivial
        · exact fun _ _ => trivial
      · exact fun _ _ => trivial
  · exact fun _ _ => trivial

/-- A new entry leads to an object that nothing else leads to, or to none. -/
theorem Registry.insert {ref' : List UInt8 → Nat} (R : Registry d s t ref)
    (ht : s'.tables d.meta_ = some t') (hnodes : t'.nodes = e :: t.nodes)
    (hkey : e.first.chars = str) (hfree : t.find str = none) (hnode : s.Allows e.mem)
    (hpos : 0 < e.mem.size) (href : ∀ str', ref' str' = if str' = str then e.second else ref str')
    (howned : t'.array + nodeBlocks t'.nodes + s'.objects ≤ s'.live)
    (hobjects : ∀ o ∈ s.objects, o ∈ s'.objects)
    (hsecond : e.second ≠ 0 → (∃ o ∈ s'.objects, o.addr = e.second ∧ 0 < o.size) ∧
      ∀ f ∈ t.nodes, f.second ≠ e.second) : Registry d s' t' ref' := by
  have hfresh : ∀ f ∈ t.nodes, f.mem ≠ e.mem := R.fresh hnode hpos
  have hother : ∀ f ∈ t.nodes, f.first.chars ≠ str := fun f hf => find_none hfree hf
  refine ⟨R.image, ht, ?_, ?_, ?_, ?_, howned, ?_, ?_⟩
  · rw [hnodes, List.map_cons, List.nodup_cons]
    refine ⟨?_, R.mems⟩
    intro hmem
    obtain ⟨f, hf, hfe⟩ := List.mem_map.mp hmem
    exact hfresh f hf hfe
  · rw [hnodes]
    intro f hf g hg hfg
    cases hf with
    | head =>
      cases hg with
      | head => rfl
      | tail _ hg => exact absurd (hfg.symm.trans hkey) (hother g hg)
    | tail _ hf =>
      cases hg with
      | head => exact absurd (hfg.trans hkey) (hother f hf)
      | tail _ hg => exact R.keys f hf g hg hfg
  · rw [hnodes]
    intro f hf
    rw [href]
    cases hf with
    | head => rw [if_pos hkey]
    | tail _ hf =>
      rw [if_neg (hother f hf)]
      exact R.named f hf
  · rw [hnodes]
    intro str' hno
    have hne : str' ≠ str := by
      intro h
      exact hno e List.mem_cons_self (hkey.trans h.symm)
    rw [href, if_neg hne]
    exact R.absent str' fun f hf => hno f (List.mem_cons_of_mem _ hf)
  · rw [hnodes]
    intro f hf h0
    cases hf with
    | head => exact (hsecond h0).1
    | tail _ hf =>
      obtain ⟨o, ho, hof⟩ := R.objects f hf h0
      exact ⟨o, hobjects o ho, hof⟩
  · rw [hnodes]
    intro f hf g hg h0 hfg
    cases hf with
    | head =>
      cases hg with
      | head => rfl
      | tail _ hg => exact absurd hfg.symm ((hsecond h0).2 g hg)
    | tail _ hf =>
      cases hg with
      | head =>
        have h0' : e.second ≠ 0 := hfg ▸ h0
        exact absurd hfg ((hsecond h0').2 f hf)
      | tail _ hg => exact R.distinct f hf g hg h0 hfg

theorem setTable_self {b : Nat} : (s.setTable b t).tables b = some t := if_pos rfl

/-- `NewNamingObject` binds the name to an object that is there and that no other name
leads to. -/
theorem Registry.made (R : Registry d s t ref) (hfree : t.find str = none) {v : Block}
    (M : Made L d T s t str e v t' s') :
    Registry d s' t' (fun str' => if str' = str then v.addr else ref str') := by
  have hpos : 0 < e.mem.size := by
    rw [M.nodeSize]
    exact L.pos
  have hnodes : t'.nodes = e :: t.nodes := by
    rw [M.nodes, map_secondSet (R.fresh M.node hpos)]
  obtain ⟨u, hu⟩ := Multiset.le_iff_exists_add.mp R.owned
  have hlive : s'.live = {v} + (nodeBlocks t.nodes + s.objects + u + e.blocks + t'.array) := by
    have hsum : t.array + s'.live =
        t.array + ({v} + (nodeBlocks t.nodes + s.objects + u + e.blocks + t'.array)) := by
      rw [add_comm, M.live, hu]
      ac_rfl
    exact add_left_cancel hsum
  apply R.insert _ hnodes M.key hfree M.node hpos
  · intro str'
    simp only [M.second]
  · rw [hnodes, M.objects, hlive, ← Multiset.singleton_add]
    apply Multiset.le_iff_exists_add.mpr
    refine ⟨u, ?_⟩
    simp only [nodeBlocks]
    ac_rfl
  · intro o ho
    rw [M.objects]
    exact Multiset.mem_cons_of_mem ho
  · intro h0
    refine ⟨⟨v, ?_, M.second.symm, ?_⟩, ?_⟩
    · rw [M.objects]
      exact Multiset.mem_cons_self v _
    · rw [M.objectSize]
      exact T.pos
    · intro f hf hfv
      rw [M.second] at hfv
      obtain ⟨o, ho, hof, hosize⟩ := R.objects f hf (by rw [hfv]; exact M.object)
      have hmem : o ∈ nodeBlocks t.nodes + s.objects + u + e.blocks + t'.array := by
        simp only [Multiset.mem_add]
        exact Or.inl (Or.inl (Or.inl (Or.inr ho)))
      have hvpos : 0 < v.size := by
        rw [M.objectSize]
        exact T.pos
      exact ne_of_apart (M.apart _ hlive o hmem) hvpos hosize (hfv.symm.trans hof.symm)
  · rw [M.tables]
    exact setTable_self

/-- An entry whose object could not be constructed leads to none. -/
theorem Registry.halfDone (R : Registry d s t ref) (hfree : t.find str = none)
    (H : HalfDone L d s t str s') : ∃ t', Registry d s' t' ref := by
  obtain ⟨e, t', hnodes, _, hkey, hzero, hnode, hsize, htables, leak, hlive⟩ := H.done
  have hpos : 0 < e.mem.size := by
    rw [hsize]
    exact L.pos
  obtain ⟨u, hu⟩ := Multiset.le_iff_exists_add.mp R.owned
  refine ⟨t', R.insert ?_ hnodes hkey hfree hnode hpos ?_ ?_ ?_ ?_⟩
  · rw [htables]
    exact setTable_self
  · intro str'
    split
    · rename_i hstr
      rw [hzero, hstr, R.find, hfree]
    · rfl
  · have hsum : t.array + s'.live =
        t.array + (t'.array + nodeBlocks t'.nodes + s'.objects + (u + leak)) := by
      rw [add_comm, hlive, hu, hnodes, H.objects]
      simp only [nodeBlocks]
      ac_rfl
    rw [add_left_cancel hsum]
    exact Multiset.le_add_right _ _
  · intro o ho
    rw [H.objects]
    exact ho
  · intro h0
    exact absurd hzero h0

/-- `DeleteNamingObject` with the object of the name takes both away. -/
theorem Registry.removed (R : Registry d s t ref) (hf : t.find str = some e)
    (D : Removed d s t e o s') (ho : o.addr = e.second) :
    Registry d s' { t with nodes := without e t.nodes }
      (fun str' => if str' = str then 0 else ref str') := by
  obtain ⟨he, hstr⟩ := find_some hf
  refine ⟨R.image, ?_, ?_, ?_, ?_, ?_, ?_, ?_, ?_⟩
  · rw [D.tables]
    exact setTable_self
  · exact R.mems.sublist ((List.filter_sublist).map _)
  · intro f hf g hg hfg
    exact R.keys f (mem_without.mp hf).1 g (mem_without.mp hg).1 hfg
  · intro f hf
    obtain ⟨hf, hne⟩ := mem_without.mp hf
    have hother : f.first.chars ≠ str := by
      intro h
      exact hne (R.keys f hf e he (h.trans hstr.symm))
    rw [if_neg hother]
    exact R.named f hf
  · intro str' hno
    split
    · rfl
    · rename_i hne
      apply R.absent
      intro f hf hfs
      by_cases hm : f.mem = e.mem
      · have hfe : f = e := List.inj_on_of_nodup_map R.mems hf he hm
        rw [hfe] at hfs
        exact hne (hfs.symm.trans hstr)
      · exact hno f (mem_without.mpr ⟨hf, hm⟩) hfs
  · have hle := R.owned
    rw [D.live, D.objects, nodeBlocks_without R.mems he] at hle
    have hle' : (e.blocks + {o}) + (t.array + nodeBlocks (without e t.nodes) + s'.objects) ≤
        (e.blocks + {o}) + s'.live := by
      refine le_trans (le_of_eq ?_) hle
      ac_rfl
    exact le_of_add_le_add_left hle'
  · intro f hf hf0
    obtain ⟨hf, hne⟩ := mem_without.mp hf
    obtain ⟨o', ho', hof, hsize⟩ := R.objects f hf hf0
    rw [D.objects] at ho'
    cases Multiset.mem_add.mp ho' with
    | inl hmem =>
      rw [Multiset.mem_singleton.mp hmem, ho] at hof
      have he0 : e.second ≠ 0 := hof ▸ hf0
      exact absurd (R.distinct e he f hf he0 hof).symm hne
    | inr hmem => exact ⟨o', hmem, hof, hsize⟩
  · intro f hf g hg
    exact R.distinct f (mem_without.mp hf).1 g (mem_without.mp hg).1

/-- A table without entries knows no name. -/
theorem Registry.empty (h0 : d.meta_ ≠ 0) (ht : s.tables d.meta_ = some ⟨p, none, []⟩)
    (howned : s.objects ≤ s.live) : Registry d s ⟨p, none, []⟩ fun _ => 0 := by
  refine ⟨h0, ht, List.nodup_nil, ?_, ?_, fun _ _ => rfl, ?_, ?_, ?_⟩
  · intro e he
    cases he
  · intro e he
    cases he
  · simpa only [NamingTable.array, nodeBlocks, zero_add] using howned
  · intro e he
    cases he
  · intro e he
    cases he

theorem loaded_registry {d₀ : MMData} {buf : Nat} {size : Int} (hbuf : buf ≠ 0)
    (howned : s.objects ≤ s.live) (hr : loadRootWriteObject d₀ buf size s = .ok (p, d) s')
    (hp : p ≠ 0) : ∃ t, Registry d s' t fun _ => 0 := by
  have hend : ends (loadRootWriteObject d₀ buf size)
      (fun v s' => v.1 ≠ 0 → ∃ t, Registry v.2 s' t fun _ => 0) (fun _ _ => True) s := by
    unfold loadRootWriteObject createAllocator
    rw [ends_bind]
    by_cases hsmall : size < Image.allocatorMetaSize * 2
    · rw [ends_if_pos hsmall]
      intro hne
      exact absurd rfl hne
    · rw [ends_if_neg hsmall]
      simp only [if_pos hbuf, ends_bind]
      have hdone : ¬ (0 : Int) ≠ 0 := by decide
      rw [ends_modify, ends_pure, ends_if_neg hdone]
      intro _
      refine ⟨⟨buf, none, []⟩, Registry.empty hbuf (if_pos rfl) ?_⟩
      exact Multiset.filter_le_filter _ howned
  have hend := ends_ok hend hr
  exact hend hp

theorem Using.registry (U : Using L d s ref) : ∃ t, Registry d s t ref := by
  induction U with
  | loaded hbuf howned hr hp => exact loaded_registry hbuf howned hr hp
  | @new d s s' ref T str r v _ hr ih =>
    obtain ⟨t, R⟩ := ih
    have hend : ends (newNamingObject L d T str r)
        (fun v s' => ∃ t, Registry d s' t fun str' => if v ≠ 0 ∧ str' = str then v else ref str')
        (fun _ _ => True) s := by
      apply ends_newNamingObject R.image R.table (fun _ => trivial) (fun _ => trivial)
      · intro e _
        refine ⟨t, ?_⟩
        simpa using R
      · intro e v t' s' hfree M
        refine ⟨t', ?_⟩
        simpa [M.object] using R.made hfree M
      · exact fun _ => trivial
      · exact fun _ _ _ _ _ => trivial
    have hend := ends_ok hend hr
    exact hend
  | @thrown d s s' ref T str r _ hr ih =>
    obtain ⟨t, R⟩ := ih
    have hend : ends (newNamingObject L d T str r) (fun _ _ => True)
        (fun x s' => x = .constructor → ∃ t, Registry d s' t ref) s := by
      apply ends_newNamingObject R.image R.table
      · intro _ hx
        cases hx
      · intro _ hx
        cases hx
      · exact fun _ _ => trivial
      · exact fun _ _ _ _ _ _ => trivial
      · intro _ hx
        cases hx
      · intro x s' hfree _ H _
        exact R.halfDone hfree H
    have hend := ends_error hend hr
    exact hend rfl
  | get _ hr ih =>
    obtain ⟨t, R⟩ := ih
    obtain ⟨_, rfl⟩ := R.get hr
    exact ⟨t, R⟩
  | @delete d s s' ref T str p answer done _ hown hr ih =>
    obtain ⟨t, R⟩ := ih
    have hend : ends (deleteNamingObject L d T str p answer)
        (fun done s' => ∃ t, Registry d s' t
          fun str' => if done = true ∧ str' = str then 0 else ref str') (fun _ _ => True) s := by
      apply ends_deleteNamingObject R.table
      · intro _
        refine ⟨t, ?_⟩
        simpa using R
      · intro e s' hf D
        have hp : p = e.second := by
          apply hown
          simp only [Store.registered, R.table, Option.bind_some, hf, Option.map_some]
        refine ⟨{ t with nodes := without e t.nodes }, ?_⟩
        simpa using R.removed hf D hp
    have hend := ends_ok hend hr
    exact hend

theorem Registry.get_returns (R : Registry d s t ref)
    (hg : StringGranted L s str d.allocator_ answer) :
    getNamingObject L d str answer s = .ok (ref str) s := by
  have hend : ends (getNamingObject L d str answer) (fun _ _ => True) (fun _ _ => False) s := by
    unfold getNamingObject
    rw [ends_if_neg R.image]
    apply ends_stringScope (ends_makeString_granted hg fun k hk => ⟨rfl, hk⟩)
    intro k _
    rw [ends_bind]
    unfold getNamingTable
    rw [ends_bind, ends_get, Store.add_tables, R.table, ends_pure]
    cases t.find k.chars with
    | none => exact ⟨s, rfl, trivial⟩
    | some e => exact ⟨s, rfl, trivial⟩
  obtain ⟨v, s', hr, _⟩ := returns_of_ends hend
  obtain ⟨rfl, rfl⟩ := R.get hr
  exact hr

/-- After any calls, each deleting a name with its own object, the table is a faithful
registry. -/
theorem registry_faithful (U : Using L d s ref) : FaithfulRegistry L d s ref := by
  obtain ⟨t, R⟩ := U.registry
  refine ⟨fun str answer hg => R.get_returns hg, ?_, ?_, ?_, ?_⟩
  · intro str answer v s' hr
    exact (R.get hr).1
  · intro str h0
    rw [R.find] at h0 ⊢
    cases hf : t.find str with
    | none =>
      rw [hf] at h0
      exact absurd rfl h0
    | some e =>
      rw [hf] at h0
      obtain ⟨o, ho, hoe, _⟩ := R.objects e (find_some hf).1 h0
      refine ⟨o, ho, ?_, hoe⟩
      exact Multiset.mem_of_le ((Multiset.le_add_left _ _).trans R.owned) ho
  · intro str str' h0 heq
    rw [R.find] at h0 heq
    cases hf : t.find str with
    | none =>
      rw [hf] at h0
      exact absurd rfl h0
    | some e =>
      rw [hf] at h0 heq
      rw [R.find] at heq
      cases hf' : t.find str' with
      | none =>
        rw [hf'] at heq
        exact absurd heq h0
      | some f =>
        rw [hf'] at heq
        obtain ⟨he, hstr⟩ := find_some hf
        obtain ⟨hf, hstr'⟩ := find_some hf'
        have hm : e.mem = f.mem := R.distinct e he f hf h0 heq
        have hef : e = f := List.inj_on_of_nodup_map R.mems he hf hm
        rw [← hstr, ← hstr', hef]
  · intro T str p answer s' hown hr
    have hend : ends (deleteNamingObject L d T str p answer) (fun done s' => done = true →
        p = ref str ∧ s.objects = {⟨d.allocator_, p, T.size⟩} + s'.objects ∧
        ∃ t e, s.tables d.meta_ = some t ∧ t.find str = some e ∧
          s.live = e.blocks + {⟨d.allocator_, p, T.size⟩} + s'.live) (fun _ _ => True) s := by
      apply ends_deleteNamingObject R.table
      · intro _ hdone
        cases hdone
      · intro e s' hf D _
        have hp : p = e.second := by
          apply hown
          simp only [Store.registered, R.table, Option.bind_some, hf, Option.map_some]
        refine ⟨?_, D.objects, t, e, R.table, hf, D.live⟩
        rw [R.find, hf, hp]
    have hend := ends_ok hend hr
    exact hend rfl

/-- A process with a buffer of 16 pages. -/
def oneBuffer : Store := ⟨[(4096, 65536)], 0, 0, fun _ => none⟩

/-- Answers for a short name. -/
def granted (node object : Nat) : NewAnswer := ⟨none, none, some ⟨node, 0, none⟩, some object, true⟩

def noData : MMData := ⟨0, 0, ""⟩

/-- Two objects are made, and the first is deleted by its name. -/
theorem registry_faithful_two : ∃ s, FaithfulRegistry boost imageData s fun str =>
    if true = true ∧ str = [97] then 0
    else if 10200 ≠ 0 ∧ str = [98] then 10200
    else if 10000 ≠ 0 ∧ str = [97] then 10000 else 0 := by
  have hrun : ∃ s, (do
      let r ← loadRootWriteObject noData 4096 65536
      let a ← newNamingObject boost r.2 thing [97] (granted 9000 10000)
      let b ← newNamingObject boost r.2 thing [98] (granted 9100 10200)
      let done ← deleteNamingObject boost r.2 thing [97] 10000 none
      return (r.1, r.2, a, b, done)) oneBuffer = .ok (4112, imageData, 10000, 10200, true) s := by
    exact ⟨_, rfl⟩
  obtain ⟨s, hs⟩ := hrun
  obtain ⟨⟨p, d⟩, s₁, h₁, hs⟩ := run_of_bind hs
  obtain ⟨a, s₂, h₂, hs⟩ := run_of_bind hs
  obtain ⟨b, s₃, h₃, hs⟩ := run_of_bind hs
  obtain ⟨done, s₄, h₄, hs⟩ := run_of_bind hs
  cases hs
  have U₁ := Using.loaded (L := boost) (by decide) (le_refl 0) h₁ (by decide)
  have hown : ∀ v, s₃.registered imageData [97] = some v → 10000 = v := by
    cases h₁
    cases h₂
    cases h₃
    intro v hv
    exact Option.some.inj hv
  exact ⟨_, registry_faithful (((U₁.new h₂).new h₃).delete hown h₄)⟩

/-- The first name is deleted with the object of the second, which is gone while its name
still leads to it. -/
theorem deleted_under_other_name : ∃ s s', Using boost imageData s (fun str =>
      if 10200 ≠ 0 ∧ str = [98] then 10200
      else if 10000 ≠ 0 ∧ str = [97] then 10000 else 0) ∧
    deleteNamingObject boost imageData thing [97] 10200 none s = .ok true s' ∧
    s'.registered imageData [98] = some 10200 ∧ ∀ o ∈ s'.objects, o.addr ≠ 10200 := by
  have hrun : ∃ s, (do
      let r ← loadRootWriteObject noData 4096 65536
      let a ← newNamingObject boost r.2 thing [97] (granted 9000 10000)
      let b ← newNamingObject boost r.2 thing [98] (granted 9100 10200)
      return (r.1, r.2, a, b)) oneBuffer = .ok (4112, imageData, 10000, 10200) s := by
    exact ⟨_, rfl⟩
  obtain ⟨s, hs⟩ := hrun
  obtain ⟨⟨p, d⟩, s₁, h₁, hs⟩ := run_of_bind hs
  obtain ⟨a, s₂, h₂, hs⟩ := run_of_bind hs
  obtain ⟨b, s₃, h₃, hs⟩ := run_of_bind hs
  cases hs
  have U₁ := Using.loaded (L := boost) (by decide) (le_refl 0) h₁ (by decide)
  have U₃ := (U₁.new h₂).new h₃
  cases h₁
  cases h₂
  cases h₃
  refine ⟨_, _, U₃, rfl, rfl, ?_⟩
  decide

end

end Mmdata.Naming
