import Mathlib.Algebra.Order.Group.Multiset
import Mathlib.Data.Multiset.Filter
import Mmdata.Image.Meta
import Mmdata.Lib.Throwing

namespace Mmdata.Naming
open Lib Image

/-- A block and the space that it was taken from: an image, by its address, or 0 for the
heap of the process. -/
structure Block where
  space : Nat
  addr : Nat
  size : Nat
deriving DecidableEq

/-- `SHMString`. The characters are in a block unless they fit into the object. -/
structure ShmString where
  chars : List UInt8
  space : Nat
  mem : Option Block

/-- A node of the table, with its pair. -/
structure Node where
  mem : Block
  first : ShmString
  second : Nat

structure NamingTable where
  space : Nat
  buckets : Option Block
  nodes : List Node

/-- What the containers of boost take: the characters that a string keeps in itself, and
the size of a node. -/
structure Boost where
  internal : Nat
  node : Nat
  pos : 0 < node

/-- The type of a named object. -/
structure ObjectType where
  size : Nat
  pos : 0 < size

/-- The memory buffers with their sizes, the blocks that are allocated, the objects that
are constructed, by their blocks, and the naming tables by the addresses of their images. -/
structure Store where
  buffers : List (Nat × Nat)
  live : Multiset Block
  objects : Multiset Block
  tables : Nat → Option NamingTable

/-- Exceptions, and two ends that are none: a run that C++ leaves undefined, and an
answer that no allocator gives. -/
inductive Thrown
  | badAlloc
  | constructor
  | undefined
  | impossible
deriving DecidableEq

abbrev NamingM := EStateM Thrown Store

def Apart (a n b m : Nat) : Prop := a + n ≤ b ∨ b + m ≤ a

instance (a n b m : Nat) : Decidable (Apart a n b m) := inferInstanceAs (Decidable (_ ∨ _))

/-- A block of an image lies in its buffer, and one of the heap in none. -/
def Store.InSpace (s : Store) (b : Block) : Prop :=
  if b.space = 0 then ∀ r ∈ s.buffers, Apart r.1 r.2 b.addr b.size
  else ∃ r ∈ s.buffers, r.1 = b.space ∧ r.1 ≤ b.addr ∧ b.addr + b.size ≤ r.1 + r.2

instance (s : Store) (b : Block) : Decidable (s.InSpace b) := by
  unfold Store.InSpace
  infer_instance

/-- What an allocator may give. -/
def Store.Allows (s : Store) (b : Block) : Prop :=
  b.addr ≠ 0 ∧ s.InSpace b ∧ ∀ c ∈ s.live, Apart b.addr b.size c.addr c.size

instance (s : Store) (b : Block) : Decidable (s.Allows b) :=
  inferInstanceAs (Decidable (_ ∧ _ ∧ _))

/-- `allocate`. A null block of the heap of the process is not noticed, and is written to. -/
def allocate (space size : Nat) (answer : Option Nat) : NamingM Block := do
  match answer with
  | none => throw (if space = 0 then .undefined else .badAlloc)
  | some a =>
    if (← get).Allows ⟨space, a, size⟩ then
      modify fun s => { s with live := ⟨space, a, size⟩ ::ₘ s.live }
      return ⟨space, a, size⟩
    else throw .impossible

def deallocate (b : Block) : NamingM Unit := do
  if b ∈ (← get).live then modify fun s => { s with live := s.live.erase b }
  else throw .undefined

/-! Strings. A copy has the allocator of the original. -/

def makeString (L : Boost) (chars : List UInt8) (space : Nat) (answer : Option Nat) :
    NamingM ShmString := do
  if chars.length ≤ L.internal then return ⟨chars, space, none⟩
  let b ← allocate space (chars.length + 1) answer
  return ⟨chars, space, some b⟩

def copyString (L : Boost) (str : ShmString) (answer : Option Nat) : NamingM ShmString :=
  makeString L str.chars str.space answer

def destroyString (str : ShmString) : NamingM Unit := do
  match str.mem with
  | none => return
  | some b => deallocate b

/-! The hash map. -/

def NamingTable.find (t : NamingTable) (chars : List UInt8) : Option Node :=
  t.nodes.find? (fun e => decide (e.first.chars = chars))

def getNamingTable (d : MMData) : NamingM NamingTable := do
  match (← get).tables d.meta_ with
  | some t => return t
  | none => throw .undefined

def setNamingTable (d : MMData) (t : NamingTable) : NamingM Unit :=
  modify fun s => { s with tables := fun b => if b = d.meta_ then some t else s.tables b }

/-- The blocks that an insertion is given: a node, the characters of the key and, when the
map grows, an array of buckets. -/
structure InsertAnswer where
  node : Nat
  key : Nat
  buckets : Option (Nat × Nat)

/-- The map grows into a new array. -/
def rehash (t : NamingTable) : Option (Nat × Nat) → NamingM NamingTable
  | none => return t
  | some (a, n) => do
    let b ← allocate t.space n (some a)
    match t.buckets with
    | none => return { t with buckets := some b }
    | some old => do
      deallocate old
      return { t with buckets := some b }

/-- `insert`, with the node and whether it is new. No answer is an exception; the strong
guarantee is that nothing has happened then. -/
def insert (L : Boost) (d : MMData) (first : ShmString) (second : Nat)
    (answer : Option InsertAnswer) : NamingM (Block × Bool) := do
  let t ← getNamingTable d
  match t.find first.chars with
  | some e => return (e.mem, false)
  | none => do
    match answer with
    | none => throw .badAlloc
    | some r => do
      let node ← allocate t.space L.node (some r.node)
      let key ← copyString L first (some r.key)
      let t ← rehash t r.buckets
      setNamingTable d { t with nodes := ⟨node, key, second⟩ :: t.nodes }
      return (node, true)

/-- `it->second = v`. -/
def setSecond (d : MMData) (it : Block) (v : Nat) : NamingM Unit := do
  let t ← getNamingTable d
  setNamingTable d
    { t with nodes := t.nodes.map fun e => if e.mem = it then { e with second := v } else e }

def erase (d : MMData) (found : Node) : NamingM Unit := do
  let t ← getNamingTable d
  setNamingTable d { t with nodes := t.nodes.filter fun e => decide (e.mem ≠ found.mem) }
  destroyString found.first
  deallocate found.mem

/-! `MMData`. -/

/-- `New`. Whether the constructor throws is given. -/
def new (d : MMData) (T : ObjectType) (answer : Option Nat) (constructs : Bool) :
    NamingM Nat := do
  let v ← allocate d.allocator_ T.size answer
  if constructs then
    modify fun s => { s with objects := v ::ₘ s.objects }
    return v.addr
  else throw .constructor

/-- `Delete` of an object. -/
def delete (d : MMData) (T : ObjectType) (p : Nat) : NamingM Unit := do
  if ⟨d.allocator_, p, T.size⟩ ∈ (← get).objects then
    modify fun s => { s with objects := s.objects.erase ⟨d.allocator_, p, T.size⟩ }
    deallocate ⟨d.allocator_, p, T.size⟩
  else throw .undefined

/-- What the allocations of one `NewNamingObject` answer: those of the key, of the key of
the pair, of the insertion and of the object. And whether its constructor returns. -/
structure NewAnswer where
  key : Option Nat
  pair : Option Nat
  insert : Option InsertAnswer
  object : Option Nat
  constructs : Bool

def newNamingObject (L : Boost) (d : MMData) (T : ObjectType) (str : List UInt8)
    (r : NewAnswer) : NamingM Nat := do
  if d.meta_ = 0 then return 0
  inScope (makeString L str d.allocator_ r.key) destroyString fun key => do
    let (it, inserted) ← inScope (copyString L key r.pair) destroyString fun first =>
      insert L d first 0 r.insert
    if !inserted then return 0
    let v ← new d T r.object r.constructs
    setSecond d it v
    return v

def getNamingObject (L : Boost) (d : MMData) (str : List UInt8) (answer : Option Nat) :
    NamingM Nat := do
  if d.meta_ = 0 then return 0
  inScope (makeString L str d.allocator_ answer) destroyString fun key => do
    match (← getNamingTable d).find key.chars with
    | none => return 0
    | some found => return found.second

def deleteNamingObject (L : Boost) (d : MMData) (T : ObjectType) (str : List UInt8) (p : Nat)
    (answer : Option Nat) : NamingM Bool :=
  inScope (makeString L str d.allocator_ answer) destroyString fun key => do
    match (← getNamingTable d).find key.chars with
    | none => return false
    | some found => do
      erase d found
      delete d T p
      return true

/-- `CreateAllocator`: the heap and the table of the buffer start anew. -/
def createAllocator (d : MMData) (buf : Nat) (memsize : Int) : NamingM (Int × MMData) := do
  if memsize < allocatorMetaSize * 2 then
    return (-1, { d with err := "Too small mem size to create allocator." })
  let d := if buf ≠ 0 then { d with allocator_ := buf } else d
  modify fun s => { s with
    live := s.live.filter fun b => b.space ≠ buf
    objects := s.objects.filter fun b => b.space ≠ buf
    tables := fun b => if b = buf then some ⟨d.allocator_, none, []⟩ else s.tables b }
  return (0, d)

def loadRootWriteObject (d : MMData) (buf : Nat) (size : Int) : NamingM (Nat × MMData) := do
  let (rc, d) ← createAllocator d buf size
  if rc ≠ 0 then return (0, d)
  return loadRootObject d buf

end Mmdata.Naming
