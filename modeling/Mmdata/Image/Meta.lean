import Mmdata.Malloc.Client

namespace Mmdata.Image
open Lib Malloc

def allocatorMetaSize : Nat := 4096

def maxRootStructSize : Nat := 1024

def maxNamingTableSize : Nat := 256

/-! `Meta`, at the start of an image. -/

def metaSize (b : Nat) : Nat := b

def mspaceOffset (b : Nat) : Nat := b + 8

def rootObject (b : Nat) : Nat := b + 16

def namingTable (b : Nat) : Nat := b + 16 + maxRootStructSize

def sizeofMeta : Nat := 16 + maxRootStructSize + maxNamingTableSize

/-! Allocators. One without a space, of address 0, uses the heap of the process. -/

/-- `sizeof` and `alignof` of a type. -/
structure TypeLayout where
  size : Nat
  align : Nat
  pos : 0 < size
  power : ∃ j, align = 2 ^ j
  whole : align ∣ size

/-- `malloc` and `free` of the C library. -/
structure Libc where
  malloc : Nat → Code Nat
  free : Nat → Code Unit

def mulSize (a b : Nat) : Nat := a * b % 2 ^ 64

def getMspace (space : Nat) : Code Nat := do
  return addSize space (← load 8 (mspaceOffset space))

/-- `Allocator<T>::allocate`, for elements of `size` bytes. No result is `std::bad_alloc`. -/
def allocate (libc : Libc) (space size count : Nat) : Code (Option Nat) := do
  if space = 0 then return some (← libc.malloc (mulSize count size))
  let p ← mspaceMalloc (← getMspace space) (mulSize count size)
  return if p = 0 then none else some p

/-- `Allocator<T>::realloc`. Without a space it calls itself with the same arguments. -/
def realloc (space oldmem bytes : Nat) : Code (Option Nat) := do
  if space = 0 then trap .fuel
  let p ← mspaceRealloc (← getMspace space) oldmem bytes
  return if p = 0 then none else some p

def deallocatePtr (libc : Libc) (space ptr : Nat) : Code Unit := do
  if ptr = 0 then return
  if space = 0 then libc.free ptr
  else mspaceFree (← getMspace space) ptr

def usedSpace (space : Nat) : Code Nat := do
  return subSize (← mspaceTopAddress (← getMspace space)) space

/-! `MMData`. -/

/-- `meta_`, the space of `allocator_`, and `err`. -/
structure MMData where
  meta_ : Nat
  allocator_ : Nat
  err : String

/-- The default constructor. -/
def MMData.new : MMData := ⟨0, 0, ""⟩

/-- A `long` as an `int`. -/
def toInt (n : Nat) : Int := if n % 2 ^ 32 < 2 ^ 31 then n % 2 ^ 32 else n % 2 ^ 32 - 2 ^ 32

/-- A `size_t` as an `int64_t`. -/
def toInt64 (n : Nat) : Int := if n % 2 ^ 64 < 2 ^ 63 then n % 2 ^ 64 else n % 2 ^ 64 - 2 ^ 64

/-- An `int64_t` as a `size_t`. -/
def toSizeT (n : Int) : Nat := (n % 2 ^ 64).toNat

def allignPage (size : Int) : Code Int := do
  let page := toInt (← globals).pageSize
  if page = 0 then trap .divZero
  let left := size.tmod page % 2 ^ 32
  return if left > 0 then size - left else size

/-- What is constructed in an image, by the addresses of the object and of the space
of its allocator: the naming table, and the root object. -/
structure Objects where
  table : Nat → Nat → Code Unit
  root : Nat → Nat → Code Unit

def createAllocator (K : Objects) (d : MMData) (buf : Nat) (memsize : Int) : Code (Int × MMData) := do
  if memsize < allocatorMetaSize * 2 then
    return (-1, { d with err := "Too small mem size to create allocator." })
  memset buf sizeofMeta 0
  store 8 (metaSize buf) (toSizeT (memsize - allocatorMetaSize))
  let size ← allignPage (toInt64 (← load 8 (metaSize buf)))
  store 8 (metaSize buf) (toSizeT size)
  let mspace ← createMspaceWithBase (buf + allocatorMetaSize) (← load 8 (metaSize buf)) 0 1
  store 8 (mspaceOffset buf) (subSize mspace buf)
  let d := if buf ≠ 0 then { d with allocator_ := buf } else d
  K.table (namingTable buf) d.allocator_
  return (0, d)

def loadRootObject (d : MMData) (buf : Nat) : Nat × MMData :=
  (rootObject buf, { d with meta_ := buf })

def loadRootWriteObject (K : Objects) (d : MMData) (buf : Nat) (size : Int) :
    Code (Nat × MMData) := do
  let (rc, d) ← createAllocator K d buf size
  if rc ≠ 0 then return (0, d)
  let (root, d) := loadRootObject d buf
  K.root root d.allocator_
  return (root, d)

def loadRootReadObject (d : MMData) (mem : Nat) : Nat × MMData := loadRootObject d mem

end Mmdata.Image
