import Mmdata.Image.Naming

namespace Mmdata.Naming
open Lib Image

/-- The block of the characters, if there is one. -/
def ShmString.blocks (k : ShmString) : Multiset Block :=
  match k.mem with
  | none => 0
  | some b => {b}

/-- More blocks are allocated. -/
def Store.add (s : Store) (m : Multiset Block) : Store := { s with live := m + s.live }

/-- A string of the space: its characters are in the string or in a block that the
allocator may give. -/
structure StringIn (s : Store) (chars : List UInt8) (space : Nat) (k : ShmString) : Prop where
  sameChars : k.chars = chars
  sameSpace : k.space = space
  given : ∀ b, k.mem = some b → s.Allows b ∧ b.space = space

/-- The blocks of a node: its own, and that of its key. -/
def Node.blocks (e : Node) : Multiset Block := {e.mem} + e.first.blocks

/-- The block of the array of buckets. -/
def NamingTable.array (t : NamingTable) : Multiset Block :=
  match t.buckets with
  | none => 0
  | some b => {b}

/-- The naming table of an image is another. -/
def Store.setTable (s : Store) (b : Nat) (t : NamingTable) : Store :=
  { s with tables := fun c => if c = b then some t else s.tables c }

/-- An object is constructed in a new block. -/
def Store.construct (s : Store) (v : Block) : Store :=
  { s.add {v} with objects := v ::ₘ s.objects }

/-- The two stores differ in nothing but what is allocated. -/
structure SameBut (s s' : Store) : Prop where
  buffers : s'.buffers = s.buffers
  objects : s'.objects = s.objects
  tables : s'.tables = s.tables

/-- The block that the characters ask for, if they do not fit into the string, is given. -/
def StringGranted (L : Boost) (s : Store) (chars : List UInt8) (space : Nat) (answer : Option Nat) :
    Prop :=
  L.internal < chars.length → ∃ a, answer = some a ∧ s.Allows ⟨space, a, chars.length + 1⟩

/-- A new node is in the table, with a copy of the key. -/
structure Inserted (L : Boost) (d : MMData) (s : Store) (t : NamingTable) (first : ShmString)
    (e : Node) (t' : NamingTable) (s' : Store) : Prop where
  nodes : t'.nodes = e :: t.nodes
  tableSpace : t'.space = t.space
  key : e.first.chars = first.chars
  keyIn : ∀ b, e.first.mem = some b → s.InSpace b ∧ b.space = first.space
  node : s.Allows e.mem
  nodeSpace : e.mem.space = t.space
  nodeSize : e.mem.size = L.node
  buffers : s'.buffers = s.buffers
  objects : s'.objects = s.objects
  tables : s'.tables = (s.setTable d.meta_ t').tables
  live : s'.live + t.array = s.live + e.blocks + t'.array

section

variable {L : Boost} {d : MMData} {T : ObjectType} {s s' : Store} {space size : Nat}
  {chars str : List UInt8} {answer : Option Nat} {α : Type} {b : Block} {t : NamingTable}
  {Q : α → Store → Prop} {E : Thrown → Store → Prop}

@[simp] theorem Store.add_live (m : Multiset Block) : (s.add m).live = m + s.live := rfl
@[simp] theorem Store.add_objects (m : Multiset Block) : (s.add m).objects = s.objects := rfl
@[simp] theorem Store.add_tables (m : Multiset Block) : (s.add m).tables = s.tables := rfl
@[simp] theorem Store.add_buffers (m : Multiset Block) : (s.add m).buffers = s.buffers := rfl

theorem Store.le_add {m : Multiset Block} : s.live ≤ (s.add m).live := Multiset.le_add_left _ _

/-- What is allocated has been added. -/
theorem Store.exists_add {m : Multiset Block} (h : m ≤ s.live) : ∃ s' : Store, s = s'.add m := by
  refine ⟨{ s with live := s.live - m }, ?_⟩
  simp only [Store.add, add_tsub_cancel_of_le h]

theorem Store.exists_add_two {m n : Multiset Block} (h : n + m ≤ s.live) :
    ∃ s' : Store, s = (s'.add m).add n := by
  obtain ⟨s', rfl⟩ := Store.exists_add h
  refine ⟨s', ?_⟩
  simp only [Store.add, add_assoc]

/-- What is added last can be taken away. -/
theorem Store.eq_of_add {m : Multiset Block} (h : s.add m = s'.add m) : s = s' := by
  obtain ⟨hb, hl, ho, ht⟩ := Store.mk.inj h
  cases s
  cases s'
  cases hb
  cases ho
  cases ht
  cases add_left_cancel hl
  rfl

theorem ends_allocate {Q : Block → Store → Prop}
    (hgiven : ∀ a, answer = some a → s.Allows ⟨space, a, size⟩ →
      Q ⟨space, a, size⟩ (s.add {⟨space, a, size⟩}))
    (hnone : answer = none → E (if space = 0 then .undefined else .badAlloc) s)
    (hno : E .impossible s) : ends (allocate space size answer) Q E s := by
  unfold allocate
  cases answer with
  | none => exact hnone rfl
  | some a =>
    simp only
    rw [ends_bind, ends_get]
    by_cases ha : s.Allows ⟨space, a, size⟩
    · rw [ends_if_pos ha]
      have hq := hgiven a rfl ha
      simp only [Store.add, Multiset.singleton_add] at hq
      exact hq
    · rw [ends_if_neg ha]
      exact hno

theorem ends_deallocate {Q : Unit → Store → Prop} (hgone : ∀ s', s = s'.add {b} → Q () s')
    (hno : b ∉ s.live → E .undefined s) : ends (deallocate b) Q E s := by
  unfold deallocate
  rw [ends_bind, ends_get]
  by_cases hb : b ∈ s.live
  · rw [ends_if_pos hb, ends_modify]
    apply hgone
    simp only [Store.add, Multiset.singleton_add, Multiset.cons_erase hb]
  · rw [ends_if_neg hb]
    exact hno hb

theorem ends_makeString {Q : ShmString → Store → Prop}
    (hmade : ∀ k, StringIn s chars space k → (L.internal < chars.length → answer ≠ none) →
      Q k (s.add k.blocks))
    (hnone : L.internal < chars.length → answer = none →
      E (if space = 0 then .undefined else .badAlloc) s)
    (hno : E .impossible s) : ends (makeString L chars space answer) Q E s := by
  unfold makeString
  by_cases hfits : chars.length ≤ L.internal
  · rw [ends_if_pos hfits, ends_pure]
    have hq := hmade ⟨chars, space, none⟩ ⟨rfl, rfl, fun b hb => by cases hb⟩
      (fun h => absurd h (by omega))
    simp only [Store.add, ShmString.blocks, zero_add] at hq
    exact hq
  · rw [ends_if_neg hfits, ends_bind]
    apply ends_allocate
    · intro a hans ha
      rw [ends_pure]
      refine hmade ⟨chars, space, some ⟨space, a, chars.length + 1⟩⟩ ⟨rfl, rfl, ?_⟩ ?_
      · intro b hb
        cases hb
        exact ⟨ha, rfl⟩
      · intro _
        simp [hans]
    · exact hnone (by omega)
    · exact hno

theorem ends_destroyString {k : ShmString} {Q : Unit → Store → Prop}
    (hgone : ∀ s', s = s'.add k.blocks → Q () s') (hno : E .undefined s) :
    ends (destroyString k) Q E s := by
  unfold destroyString
  unfold ShmString.blocks at hgone
  cases hm : k.mem with
  | none =>
    rw [hm] at hgone
    apply hgone
    simp only [Store.add, zero_add]
  | some b =>
    rw [hm] at hgone
    exact ends_deallocate hgone fun _ => hno

/-- A string that lives for a scope leaves no block behind. -/
theorem ends_withString {body : ShmString → NamingM α}
    (hbody : ∀ k, StringIn s chars space k → (L.internal < chars.length → answer ≠ none) →
      ends (body k)
      (fun r s₂ => ∀ s', s₂ = s'.add k.blocks → Q r s')
      (fun e s₂ => ∀ s', s₂ = s'.add k.blocks → E e s') (s.add k.blocks))
    (hnone : L.internal < chars.length → answer = none →
      E (if space = 0 then .undefined else .badAlloc) s)
    (hno : ∀ s', E .impossible s') (hun : ∀ s', E .undefined s') :
    ends (inScope (makeString L chars space answer) destroyString body) Q E s := by
  rw [ends_inScope]
  apply ends_makeString
  · intro k hk hans
    apply ends_mono (hbody k hk hans)
    · intro r s₂ hq
      exact ends_destroyString hq (hun s₂)
    · intro e s₂ he
      exact ends_destroyString he (hun s₂)
  · exact hnone
  · exact hno s

/-! Where the allocations are granted. -/

theorem ends_allocate_granted {a : Nat} {Q : Block → Store → Prop}
    (ha : s.Allows ⟨space, a, size⟩) (hq : Q ⟨space, a, size⟩ (s.add {⟨space, a, size⟩})) :
    ends (allocate space size (some a)) Q E s := by
  unfold allocate
  simp only
  rw [ends_bind, ends_get, ends_if_pos ha, ends_bind, ends_modify, ends_pure]
  simpa only [Store.add, Multiset.singleton_add] using hq

theorem ends_deallocate_added {Q : Unit → Store → Prop} (hq : Q () s) :
    ends (deallocate b) Q E (s.add {b}) := by
  have hb : b ∈ (s.add {b}).live := by simp
  unfold deallocate
  rw [ends_bind, ends_get, ends_if_pos hb, ends_modify]
  simpa only [Store.add, Multiset.singleton_add, Multiset.erase_cons_head] using hq

theorem ends_destroyString_added {k : ShmString} {Q : Unit → Store → Prop} (hq : Q () s) :
    ends (destroyString k) Q E (s.add k.blocks) := by
  unfold destroyString ShmString.blocks
  cases k.mem with
  | none =>
    rw [ends_pure]
    simpa only [Store.add, zero_add] using hq
  | some b => exact ends_deallocate_added hq

theorem ends_makeString_granted {Q : ShmString → Store → Prop}
    (hg : StringGranted L s chars space answer)
    (hmade : ∀ k, StringIn s chars space k → Q k (s.add k.blocks)) :
    ends (makeString L chars space answer) Q E s := by
  unfold makeString
  by_cases hfits : chars.length ≤ L.internal
  · rw [ends_if_pos hfits, ends_pure]
    have hq := hmade ⟨chars, space, none⟩ ⟨rfl, rfl, fun b hb => by cases hb⟩
    simpa only [Store.add, ShmString.blocks, zero_add] using hq
  · obtain ⟨a, rfl, ha⟩ := hg (by omega)
    rw [ends_if_neg hfits, ends_bind]
    apply ends_allocate_granted ha
    rw [ends_pure]
    refine hmade ⟨chars, space, some ⟨space, a, chars.length + 1⟩⟩ ⟨rfl, rfl, ?_⟩
    intro b hb
    cases hb
    exact ⟨ha, rfl⟩

/-- A string that lives for a scope, where its body gives its block back. -/
theorem ends_stringScope {body : ShmString → NamingM α}
    (hmake : ends (makeString L chars space answer)
      (fun k s₂ => s₂ = s.add k.blocks ∧ StringIn s chars space k) E s)
    (hbody : ∀ k, StringIn s chars space k → ends (body k)
      (fun r s₂ => ∃ s', s₂ = s'.add k.blocks ∧ Q r s')
      (fun e s₂ => ∃ s', s₂ = s'.add k.blocks ∧ E e s') (s.add k.blocks)) :
    ends (inScope (makeString L chars space answer) destroyString body) Q E s := by
  rw [ends_inScope]
  apply ends_mono hmake
  · rintro k _ ⟨rfl, hk⟩
    apply ends_mono (hbody k hk)
    · rintro r _ ⟨s', rfl, hq⟩
      exact ends_destroyString_added hq
    · rintro e _ ⟨s', rfl, he⟩
      exact ends_destroyString_added he
  · exact fun _ _ he => he

theorem ends_getNamingTable {Q : NamingTable → Store → Prop}
    (hsome : ∀ t, s.tables d.meta_ = some t → Q t s) (hno : E .undefined s) :
    ends (getNamingTable d) Q E s := by
  unfold getNamingTable
  rw [ends_bind, ends_get]
  cases ht : s.tables d.meta_ with
  | some t => exact hsome t ht
  | none => exact hno

theorem ends_setNamingTable {Q : Unit → Store → Prop} :
    ends (setNamingTable d t) Q E s ↔ Q () (s.setTable d.meta_ t) := Iff.rfl

theorem Store.inSpace_congr (hb : s'.buffers = s.buffers) : s'.InSpace b ↔ s.InSpace b := by
  unfold Store.InSpace
  rw [hb]

/-- A map grows; its old array of buckets has to be allocated. -/
theorem ends_rehash {r : Option (Nat × Nat)} {Q : NamingTable → Store → Prop}
    (hno : E .impossible s) (hun : ¬ t.array ≤ s.live → ∀ s', E .undefined s')
    (hq : ∀ t' s', t'.nodes = t.nodes → t'.space = t.space → SameBut s s' →
      s'.live + t.array = s.live + t'.array → Q t' s') : ends (rehash t r) Q E s := by
  unfold rehash
  cases r with
  | none => exact hq t s rfl rfl ⟨rfl, rfl, rfl⟩ rfl
  | some p =>
    obtain ⟨a, n⟩ := p
    simp only
    rw [ends_bind]
    apply ends_allocate
    · intro a' _ _
      cases hold : t.buckets with
      | none =>
        simp only
        rw [ends_pure]
        apply hq { t with buckets := some ⟨t.space, a', n⟩ } (s.add {⟨t.space, a', n⟩})
          rfl rfl ⟨rfl, rfl, rfl⟩
        simp only [NamingTable.array, hold, Store.add_live, add_zero]
        exact add_comm _ _
      | some old =>
        simp only
        rw [ends_bind]
        apply ends_deallocate
        · intro s₂ hs₂
          have hb : s₂.buffers = s.buffers := (congrArg Store.buffers hs₂).symm
          have ho : s₂.objects = s.objects := (congrArg Store.objects hs₂).symm
          have ht : s₂.tables = s.tables := (congrArg Store.tables hs₂).symm
          have hl : {(⟨t.space, a', n⟩ : Block)} + s.live = {old} + s₂.live :=
            congrArg Store.live hs₂
          apply hq { t with buckets := some ⟨t.space, a', n⟩ } s₂ rfl rfl ⟨hb, ho, ht⟩
          simp only [NamingTable.array, hold]
          rw [add_comm s₂.live, ← hl]
          exact add_comm _ _
        · intro hgone
          refine hun (fun hle => hgone ?_) _
          simp only [NamingTable.array, hold, Multiset.singleton_le] at hle
          exact Multiset.mem_add.mpr (Or.inr hle)
    · intro h
      cases h
    · exact hno

/-- An insertion finds the key, fails without a trace, or adds a node. -/
theorem ends_insert {first : ShmString} {second : Nat} {answer : Option InsertAnswer}
    {Q : Block × Bool → Store → Prop} (ht : s.tables d.meta_ = some t)
    (hno : ∀ s', s.live ≤ s'.live → E .impossible s')
    (hun : ¬ t.array ≤ s.live → ∀ s', E .undefined s')
    (hfound : ∀ e, t.find first.chars = some e → Q (e.mem, false) s)
    (hfail : t.find first.chars = none → answer = none → E .badAlloc s)
    (hdone : ∀ e t' s', t.find first.chars = none → answer ≠ none →
      Inserted L d s t first e t' s' → e.second = second → Q (e.mem, true) s') :
    ends (insert L d first second answer) Q E s := by
  unfold insert getNamingTable
  rw [ends_bind, ends_bind, ends_get, ht]
  simp only
  rw [ends_pure]
  cases hf : t.find first.chars with
  | some e => exact hfound e hf
  | none =>
    simp only
    cases answer with
    | none => exact hfail hf rfl
    | some r =>
      simp only
      rw [ends_bind]
      apply ends_allocate
      · intro a _ hallow
        rw [ends_bind]
        unfold copyString
        apply ends_makeString
        · intro key hkey _
          rw [ends_bind]
          have hmore : s.live ≤ ((s.add {⟨t.space, a, L.node⟩}).add key.blocks).live :=
            Store.le_add.trans Store.le_add
          apply ends_rehash (hno _ hmore) fun hlost => hun fun hle => hlost (hle.trans hmore)
          intro t' s₃ hnodes hspace hsame hlive
          rw [ends_bind, ends_setNamingTable, ends_pure]
          have hsome : some r ≠ none := by simp
          apply hdone ⟨⟨t.space, a, L.node⟩, key, second⟩
            { t' with nodes := ⟨⟨t.space, a, L.node⟩, key, second⟩ :: t'.nodes } _ hf hsome
          · refine ⟨?_, hspace, hkey.sameChars, ?_, hallow, rfl, rfl, hsame.buffers,
              hsame.objects, ?_, ?_⟩
            · rw [hnodes]
            · intro b hb
              obtain ⟨hb, hbs⟩ := hkey.given b hb
              exact ⟨hb.2.1, hbs⟩
            · simp only [Store.setTable, hsame.tables]
              rfl
            · have hl : s₃.live + t.array =
                  key.blocks + ({⟨t.space, a, L.node⟩} + s.live) + t'.array := hlive
              simp only [Store.setTable, Node.blocks]
              rw [hl]
              simp only [NamingTable.array]
              ac_rfl
          · rfl
        · intro _ h
          cases h
        · exact hno _ Store.le_add
      · intro h
        cases h
      · exact hno s le_rfl

theorem ends_new {Q : Nat → Store → Prop} {constructs : Bool} (hno : E .impossible s)
    (hmade : ∀ v : Block, constructs = true → v.space = d.allocator_ → v.size = T.size →
      s.Allows v → Q v.addr (s.construct v))
    (hfull : answer = none → E (if d.allocator_ = 0 then .undefined else .badAlloc) s)
    (hthrow : ∀ v : Block, constructs = false → E .constructor (s.add {v})) :
    ends (new d T answer constructs) Q E s := by
  unfold new
  rw [ends_bind]
  apply ends_allocate
  · intro a _ hallow
    cases constructs with
    | true => exact hmade ⟨d.allocator_, a, T.size⟩ rfl rfl rfl hallow
    | false => exact hthrow ⟨d.allocator_, a, T.size⟩ rfl
  · exact hfull
  · exact hno

theorem Store.Allows.of_add {m : Multiset Block} (h : (s.add m).Allows b) : s.Allows b := by
  obtain ⟨h0, hin, hapart⟩ := h
  exact ⟨h0, hin, fun c hc => hapart c (Multiset.mem_add.mpr (Or.inr hc))⟩

/-- An insertion is one without the blocks that were there all the time. -/
theorem Inserted.of_add {m : Multiset Block} {first : ShmString} {e : Node} {t' : NamingTable}
    (h : Inserted L d (s.add m) t first e t' (s'.add m)) : Inserted L d s t first e t' s' := by
  refine ⟨h.nodes, h.tableSpace, h.key, h.keyIn, h.node.of_add, h.nodeSpace, h.nodeSize,
    h.buffers, h.objects, h.tables, ?_⟩
  have hl : m + s'.live + t.array = m + s.live + e.blocks + t'.array := h.live
  have hl' : m + (s'.live + t.array) = m + (s.live + e.blocks + t'.array) := by
    rw [← add_assoc, hl]
    ac_rfl
  exact add_left_cancel hl'

/-- The allocations for the entry are all granted. -/
def EntryGranted (L : Boost) (str : List UInt8) (r : NewAnswer) : Prop :=
  (L.internal < str.length → r.key ≠ none ∧ r.pair ≠ none) ∧ r.insert ≠ none

/-- No allocation is refused, and the constructor returns. -/
def AllGranted (L : Boost) (str : List UInt8) (r : NewAnswer) : Prop :=
  EntryGranted L str r ∧ r.object ≠ none ∧ r.constructs = true

/-- The entry is in the table, and the object is not there. -/
structure HalfDone (L : Boost) (d : MMData) (s : Store) (t : NamingTable) (str : List UInt8) (s' : Store) :
    Prop where
  done : ∃ e t', t'.nodes = e :: t.nodes ∧ t'.space = t.space ∧ e.first.chars = str ∧
    e.second = 0 ∧ s.Allows e.mem ∧ e.mem.size = L.node ∧ s'.tables = (s.setTable d.meta_ t').tables ∧
    ∃ leak, s'.live + t.array = s.live + e.blocks + t'.array + leak
  buffers : s'.buffers = s.buffers
  objects : s'.objects = s.objects

/-- `it->second = v` in a list of nodes. -/
def secondSet (it : Block) (v : Nat) (e : Node) : Node :=
  if e.mem = it then { e with second := v } else e

/-- The entry is in the table, and it leads to the object in the block `v`. -/
structure Made (L : Boost) (d : MMData) (T : ObjectType) (s : Store) (t : NamingTable)
    (str : List UInt8) (e : Node) (v : Block) (t' : NamingTable) (s' : Store) : Prop where
  nodes : t'.nodes = e :: t.nodes.map (secondSet e.mem v.addr)
  tableSpace : t'.space = t.space
  key : e.first.chars = str
  keyIn : ∀ b, e.first.mem = some b → s.InSpace b ∧ b.space = d.allocator_
  node : s.Allows e.mem
  nodeSpace : e.mem.space = t.space
  nodeSize : e.mem.size = L.node
  second : e.second = v.addr
  object : v.addr ≠ 0
  objectIn : s.InSpace v
  objectSpace : v.space = d.allocator_
  objectSize : v.size = T.size
  apart : ∀ m, s'.live = {v} + m → ∀ c ∈ m, Apart v.addr v.size c.addr c.size
  buffers : s'.buffers = s.buffers
  objects : s'.objects = v ::ₘ s.objects
  tables : s'.tables = (s.setTable d.meta_ t').tables
  live : s'.live + t.array = s.live + e.blocks + t'.array + {v}

theorem ends_setSecond {it : Block} {v : Nat} {Q : Unit → Store → Prop}
    (ht : s.tables d.meta_ = some t)
    (hq : Q () (s.setTable d.meta_ { t with nodes := t.nodes.map (secondSet it v) })) :
    ends (setSecond d it v) Q E s := by
  unfold setSecond getNamingTable
  rw [ends_bind, ends_bind, ends_get, ht]
  exact hq

theorem HalfDone.of_inserted {m leak : Multiset Block} {first : ShmString} {e : Node}
    {t' : NamingTable} {s₂ : Store} (h : Inserted L d (s.add m) t first e t' s₂)
    (hchars : first.chars = str) (hzero : e.second = 0) (hs : s₂.add leak = s'.add m) :
    HalfDone L d s t str s' := by
  obtain ⟨hb, hl, ho, ht⟩ := Store.mk.inj hs
  have hlive : s₂.live + t.array = m + s.live + e.blocks + t'.array := h.live
  refine ⟨⟨e, t', h.nodes, h.tableSpace, h.key.trans hchars, hzero, h.node.of_add, h.nodeSize,
    ht.symm.trans h.tables, leak, ?_⟩, hb.symm.trans h.buffers, ho.symm.trans h.objects⟩
  have hsum : m + (s'.live + t.array) = m + (s.live + e.blocks + t'.array + leak) := by
    rw [← add_assoc, ← hl, add_assoc leak, hlive]
    ac_rfl
  exact add_left_cancel hsum

theorem Made.of_inserted {m : Multiset Block} {first : ShmString} {e : Node}
    {t' : NamingTable} {v : Block} {s₂ : Store}
    (h : Inserted L d (s.add m) t first e t' s₂) (hchars : first.chars = str)
    (hfirst : first.space = d.allocator_) (hallow : s₂.Allows v)
    (hspace : v.space = d.allocator_) (hsize : v.size = T.size)
    (hs : (s₂.construct v).setTable d.meta_
      { t' with nodes := t'.nodes.map (secondSet e.mem v.addr) } = s'.add m) :
    Made L d T s t str { e with second := v.addr } v
      { t' with nodes := t'.nodes.map (secondSet e.mem v.addr) } s' := by
  obtain ⟨hb, hl, ho, ht⟩ := Store.mk.inj hs
  have hl : {v} + s₂.live = m + s'.live := hl
  have hlive : s₂.live + t.array = m + s.live + e.blocks + t'.array := h.live
  refine ⟨?_, h.tableSpace, h.key.trans hchars, ?_, h.node.of_add, h.nodeSpace, h.nodeSize, rfl,
    hallow.1,
    ?_, hspace, hsize, ?_, hb.symm.trans h.buffers, ?_, ?_, ?_⟩
  · simp only [h.nodes, List.map_cons, secondSet, if_true]
  · intro b hb'
    obtain ⟨hin, hbs⟩ := h.keyIn b hb'
    exact ⟨hin, hbs.trans hfirst⟩
  · exact (Store.inSpace_congr h.buffers).mp hallow.2.1
  · intro rest hrest c hc
    apply hallow.2.2 c
    have hsum : {v} + s₂.live = {v} + (m + rest) := by
      rw [hl, hrest]
      ac_rfl
    rw [add_left_cancel hsum]
    exact Multiset.mem_add.mpr (Or.inr hc)
  · rw [← ho]
    exact congrArg (Multiset.cons v) h.objects
  · rw [← ht]
    funext b
    simp only [Store.setTable, Store.construct, Store.add_tables, h.tables]
    split
    · rfl
    · rfl
  · have hsum : m + (s'.live + t.array) = m + (s.live + e.blocks + t'.array + {v}) := by
      rw [← add_assoc, ← hl, add_assoc ({v} : Multiset Block), hlive]
      ac_rfl
    exact add_left_cancel hsum

/-- All that `NewNamingObject` may do on an image. -/
theorem ends_newNamingObject {r : NewAnswer} {Q : Nat → Store → Prop} (h0 : d.meta_ ≠ 0)
    (ht : s.tables d.meta_ = some t) (hno : ∀ s', E .impossible s')
    (hun : ∀ s', E .undefined s') (htaken : ∀ e, t.find str = some e → Q 0 s)
    (hmade : ∀ e v t' s', t.find str = none → Made L d T s t str e v t' s' → Q v.addr s')
    (hearly : ¬ EntryGranted L str r → E .badAlloc s)
    (hlate : ∀ x s', t.find str = none → EntryGranted L str r → HalfDone L d s t str s' → E x s') :
    ends (newNamingObject L d T str r) Q E s := by
  have hnone : ∀ c : Prop, c → (c → ¬ EntryGranted L str r) →
      E (if d.allocator_ = 0 then .undefined else .badAlloc) s := by
    intro c hc hlack
    split
    · exact hun s
    · exact hearly (hlack hc)
  unfold newNamingObject
  rw [ends_if_neg h0]
  apply ends_withString _ _ hno hun
  · intro key hkey hkeyAns
    rw [ends_bind]
    apply ends_withString _ _ (fun s' s'' _ => hno s'') (fun s' s'' _ => hun s'')
    · intro first hfirst hpairAns
      rw [hkey.sameChars] at hpairAns
      have htab : ((s.add key.blocks).add first.blocks).tables d.meta_ = some t := ht
      have hchars : first.chars = str := hfirst.sameChars.trans hkey.sameChars
      apply ends_insert htab (fun s₁ _ s₂ _ s₃ _ => hno s₃) (fun _ s₁ s₂ _ s₃ _ => hun s₃)
      · intro e he s₂ hs₂
        cases Store.eq_of_add hs₂
        rw [hchars] at he
        have hold : (!false) = true := rfl
        rw [ends_if_pos hold, ends_pure]
        intro s₃ hs₃
        cases Store.eq_of_add hs₃
        exact htaken e he
      · intro _ hans s₂ hs₂ s₃ hs₃
        cases Store.eq_of_add hs₂
        cases Store.eq_of_add hs₃
        exact hearly fun hg => hg.2 hans
      · intro e t' s₁ hfind hans hins hzero s₂ hs₂
        subst hs₂
        rw [hchars] at hfind
        have hins₂ : Inserted L d (s.add key.blocks) t first e t' s₂ := hins.of_add
        have hnew : ¬ (!true) = true := by decide
        have hgranted : EntryGranted L str r := ⟨fun h => ⟨hkeyAns h, hpairAns h⟩, hans⟩
        have hspace₁ : first.space = d.allocator_ := hfirst.sameSpace.trans hkey.sameSpace
        rw [ends_if_neg hnew, ends_bind]
        apply ends_new
        · exact fun s₄ _ => hno s₄
        · intro v _ hspace hsize hallow
          rw [ends_bind]
          have htab₂ : (s₂.construct v).tables d.meta_ = some t' := by
            show s₂.tables d.meta_ = some t'
            rw [hins₂.tables]
            exact if_pos rfl
          apply ends_setSecond htab₂
          rw [ends_pure]
          intro s₃ hs₃
          exact hmade _ v _ s₃ hfind (Made.of_inserted hins₂ hchars hspace₁ hallow hspace hsize hs₃)
        · intro hfull s₃ hs₃
          split
          · exact hun s₃
          · have hs₀ : s₂.add 0 = s₃.add key.blocks := by
              simpa only [Store.add, zero_add] using hs₃
            exact hlate _ _ hfind hgranted (HalfDone.of_inserted hins₂ hchars hzero hs₀)
        · intro v _ s₃ hs₃
          exact hlate _ _ hfind hgranted (HalfDone.of_inserted hins₂ hchars hzero hs₃)
    · intro hlong hans s₂ hs₂
      cases Store.eq_of_add hs₂
      rw [hkey.sameSpace]
      rw [hkey.sameChars] at hlong
      exact hnone (r.pair = none) hans fun h hg => (hg.1 hlong).2 h
  · intro hlong hans
    exact hnone (r.key = none) hans fun h hg => (hg.1 hlong).1 h

theorem Inserted.kept {m : Multiset Block} {first : ShmString} {e : Node} {t' : NamingTable}
    (h : Inserted L d (s.add m) t first e t' s') (hold : t.array ≤ s.live) : m ≤ s'.live := by
  obtain ⟨rest, hrest⟩ := Multiset.le_iff_exists_add.mp hold
  have hl : s'.live + t.array = m + s.live + e.blocks + t'.array := h.live
  have hsum : s'.live + t.array = m + (rest + e.blocks + t'.array) + t.array := by
    rw [hl, hrest]
    ac_rfl
  rw [add_right_cancel hsum]
  exact Multiset.le_add_right _ _

/-- With all allocations granted `NewNamingObject` makes the object of a name that is not
taken. -/
theorem ends_newNamingObject_granted {r : NewAnswer} (h0 : d.meta_ ≠ 0)
    (ht : s.tables d.meta_ = some t) (hfree : t.find str = none) (hold : t.array ≤ s.live)
    (hr : AllGranted L str r) :
    ends (newNamingObject L d T str r) (fun v _ => v ≠ 0) (fun x _ => x = .impossible) s := by
  obtain ⟨⟨hstr, hins⟩, hobj, hcons⟩ := hr
  unfold newNamingObject
  rw [ends_if_neg h0]
  apply ends_stringScope
  · apply ends_makeString
    · exact fun k hk _ => ⟨rfl, hk⟩
    · exact fun hlong hnone => absurd hnone (hstr hlong).1
    · rfl
  intro key hkey
  rw [ends_bind]
  have hpair : L.internal < key.chars.length → r.pair ≠ none := by
    rw [hkey.sameChars]
    exact fun hlong => (hstr hlong).2
  apply ends_stringScope
  · apply ends_makeString
    · exact fun k hk _ => ⟨rfl, hk⟩
    · exact fun hlong hnone => absurd hnone (hpair hlong)
    · exact ⟨s, rfl, rfl⟩
  intro first hfirst
  have htab : ((s.add key.blocks).add first.blocks).tables d.meta_ = some t := ht
  have hchars : first.chars = str := hfirst.sameChars.trans hkey.sameChars
  have hadd : (s.add key.blocks).add first.blocks = s.add (first.blocks + key.blocks) := by
    simp only [Store.add, add_assoc]
  apply ends_insert htab
  · intro s₁ hle
    obtain ⟨s₂, rfl⟩ : ∃ s₂ : Store, s₁ = (s₂.add key.blocks).add first.blocks := by
      apply Store.exists_add_two
      rw [hadd] at hle
      exact (Multiset.le_add_right _ _).trans hle
    exact ⟨_, rfl, s₂, rfl, rfl⟩
  · exact fun hlost => absurd ((hold.trans Store.le_add).trans Store.le_add) hlost
  · intro e he
    rw [hchars, hfree] at he
    contradiction
  · exact fun _ hnone => absurd hnone hins
  · intro e t' s₁ _ _ hdone _
    rw [hadd] at hdone
    obtain ⟨s₂, rfl⟩ := Store.exists_add_two (hdone.kept hold)
    refine ⟨s₂.add key.blocks, rfl, ?_⟩
    have hnew : ¬ (!true) = true := by decide
    rw [ends_if_neg hnew, ends_bind]
    apply ends_new
    · exact ⟨s₂, rfl, rfl⟩
    · intro v _ _ _ hallow
      rw [ends_bind]
      have htab₂ : ((s₂.add key.blocks).construct v).tables d.meta_ = some t' := by
        have htables : s₂.tables = _ := hdone.tables
        show s₂.tables d.meta_ = some t'
        rw [htables]
        exact if_pos rfl
      apply ends_setSecond htab₂
      rw [ends_pure]
      have hkept : key.blocks ≤ ((s₂.add key.blocks).construct v).live :=
        (Multiset.le_add_right _ _).trans Store.le_add
      obtain ⟨s₃, hs₃⟩ := Store.exists_add
        (s := ((s₂.add key.blocks).construct v).setTable d.meta_ _) hkept
      exact ⟨s₃, hs₃, hallow.1⟩
    · exact fun hnone => absurd hnone hobj
    · intro v hthrows
      rw [hcons] at hthrows
      contradiction

end

end Mmdata.Naming
