import Mmdata.Malloc.Mspace

namespace Mmdata.Malloc
open Lib

/-! The rest of the mspace interface, in a build without footers and locks: `ok_magic`
holds, and `PREACTION` is 0. -/

def timesSize (a b : Nat) : Nat := a * b % 2 ^ 64

def mallocAlignment : Nat := 8

/-! Zeroed memory. -/

/-- The bytes `calloc` asks for: more than there are where the product overflows. -/
def callocRequest (n e : Nat) : Nat :=
  if n ≠ 0 then
    if clearBits (n ||| e) 0xFFFF ≠ 0 ∧ timesSize n e / n ≠ e then maxSizeT else timesSize n e
  else 0

/-- Mapped memory is clear when it is handed out. -/
def callocMustClear (p : Nat) : Code Bool := do return !(← isMmapped p)

def mspaceCalloc (msp n e : Nat) : Code Nat := do
  let req := callocRequest n e
  let mem ← mspaceMalloc msp req
  if mem ≠ 0 then do
    if ← callocMustClear (mem2chunk mem) then memset mem req 0
  return mem

/-! Aligned memory. -/

/-- `while (a < alignment) a <<= 1;`, in 64 bits. -/
def doubleUpTo (alignment : Nat) : Nat → Nat → Code Nat
  | 0, _ => trap .fuel
  | fuel + 1, a => if a < alignment then doubleUpTo alignment fuel (shlSize a 1) else pure a

/-- The alignment that is used for the one asked for: a power of two. -/
def effectiveAlignment (alignment : Nat) : Code Nat := do
  let alignment := if alignment < minChunkSize then minChunkSize else alignment
  if alignment &&& subSize alignment 1 ≠ 0 then
    doubleUpTo alignment loopFuel (shlSize mallocAlignment 1)
  else return alignment

/-- An aligned spot in chunk `p`, far enough in to give back what lies before it. -/
def alignedSpot (p mem alignment : Nat) : Nat :=
  let br := mem2chunk ((mem + alignment - 1) &&& subSize 0 alignment)
  if subSize br p ≥ minChunkSize then br else br + alignment

/-- Cut chunk `p` at `newp`: the memory before it is to be freed. -/
def cutLeader (p newp : Nat) : Code Nat := do
  let leadsize := subSize newp p
  let newsize := subSize (← chunksize p) leadsize
  if ← isMmapped p then do
    let foot ← load 8 (prevFoot p)
    store 8 (prevFoot newp) (addSize foot leadsize)
    store 8 (head newp) (newsize ||| cinuseBit)
    return 0
  else do
    setInuse newp newsize
    setInuse p leadsize
    return chunk2mem p

/-- Cut spare room from the end of chunk `p`: the memory behind it is to be freed. -/
def cutTrailer (p nb : Nat) : Code Nat := do
  if ← isMmapped p then return 0
  let size ← chunksize p
  if size > addSize nb minChunkSize then do
    let remainder := p + nb
    setInuse p nb
    setInuse remainder (subSize size nb)
    return chunk2mem remainder
  else return 0

def internalMemalign (m alignment bytes : Nat) : Code Nat := do
  if alignment ≤ mallocAlignment then return ← mspaceMalloc m bytes
  let alignment ← effectiveAlignment alignment
  if bytes ≥ subSize maxRequest alignment then return 0
  let nb := request2size bytes
  let mem ← mspaceMalloc m (subSize (addSize (addSize nb alignment) minChunkSize) chunkOverhead)
  if mem = 0 then return 0
  let (p, leader) ←
    if mem % alignment ≠ 0 then do
      let newp := alignedSpot (mem2chunk mem) mem alignment
      let leader ← cutLeader (mem2chunk mem) newp
      pure (newp, leader)
    else pure (mem2chunk mem, 0)
  let trailer ← cutTrailer p nb
  if leader ≠ 0 then mspaceFree m leader
  if trailer ≠ 0 then mspaceFree m trailer
  return chunk2mem p

def mspaceMemalign (msp alignment bytes : Nat) : Code Nat := internalMemalign msp alignment bytes

/-! Many blocks at once. -/

def useMmapBit : Nat := 1

def useMmap (m : Nat) : Code Bool := do return (← load 4 (mflags m)) &&& useMmapBit != 0

def enableMmap (m : Nat) : Code Unit := update 4 (mflags m) fun w => w ||| useMmapBit

def disableMmap (m : Nat) : Code Unit := update 4 (mflags m) fun w => clearBits w useMmapBit

/-- The padded size of element `i`: `element_size` where the elements are of one size. -/
def elementSizeAt (elementSize : Nat) (sizes : List Nat) (i : Nat) : Nat :=
  if elementSize ≠ 0 then elementSize else request2size (sizes.getD i 0)

/-- The total of the padded sizes from element `i` on, added to `total`. -/
def addSizes (sizes : List Nat) : Nat → Nat → Nat → Nat
  | 0, _, total => total
  | n + 1, i, total => addSizes sizes n (i + 1) (addSize total (request2size (sizes.getD i 0)))

/-- The loop that splits out the elements, at element `i` with `k` more to follow. The
array holds plain pointers. The last element takes what is left. -/
def splitElements (marray elementSize : Nat) (sizes : List Nat) : Nat → Nat → Nat → Nat → Code Unit
  | 0, i, p, remainder => do
    store 8 (marray + 8 * i) (chunk2mem p)
    setSizeAndPinuseOfInuseChunk p remainder
  | k + 1, i, p, remainder => do
    store 8 (marray + 8 * i) (chunk2mem p)
    let size := elementSizeAt elementSize sizes i
    setSizeAndPinuseOfInuseChunk p size
    splitElements marray elementSize sizes k (i + 1) (p + size) (subSize remainder size)

/-- The aggregate chunk, asked for with direct mapping disabled. -/
def iallocAggregate (m size : Nat) : Code Nat := do
  let wasEnabled ← useMmap m
  disableMmap m
  let mem ← mspaceMalloc m (subSize size chunkOverhead)
  if wasEnabled then enableMmap m
  return mem

/-- The pointer array is the caller's, or the last part of chunk `p`: the array, and what
is left for the elements. -/
def iallocArray (p contents remainder chunks : Nat) : Code (Nat × Nat) := do
  if chunks = 0 then do
    let arrayChunk := p + contents
    setSizeAndPinuseOfInuseChunk arrayChunk (subSize remainder contents)
    return (chunk2mem arrayChunk, contents)
  else return (chunks, remainder)

/-- `n` elements of the given sizes: of the first one's size where bit 0 of `opts` is set,
and zeroed where bit 1 is. -/
def ialloc (m n : Nat) (sizes : List Nat) (opts chunks : Nat) : Code Nat := do
  if n = 0 then
    if chunks ≠ 0 then return chunks else return ← mspaceMalloc m 0
  let arraySize := if chunks ≠ 0 then 0 else request2size (timesSize n 8)
  let elementSize := if opts &&& 1 ≠ 0 then request2size (sizes.getD 0 0) else 0
  let contents := if opts &&& 1 ≠ 0 then timesSize n elementSize else addSizes sizes n 0 0
  let mem ← iallocAggregate m (addSize contents arraySize)
  if mem = 0 then return 0
  let p := mem2chunk mem
  let remainder ← chunksize p
  if opts &&& 2 ≠ 0 then memset mem (subSize (subSize remainder 8) arraySize) 0
  let (marray, remainder) ← iallocArray p contents remainder chunks
  splitElements marray elementSize sizes (n - 1) 0 p remainder
  return marray

def mspaceIndependentCalloc (msp n e chunks : Nat) : Code Nat := ialloc msp n [e] 3 chunks

def mspaceIndependentComalloc (msp n : Nat) (sizes : List Nat) (chunks : Nat) : Code Nat :=
  ialloc msp n sizes 0 chunks

/-! Statistics. -/

/-- `INUSE_BITS | SIZE_T_SIZE`. -/
def fencepostHead : Nat := 11

def segmentHolds (s a : Nat) : Code Bool := do
  let base ← loadPtr (segBase s)
  return decide (base ≤ a) && decide (a < base + (← load 8 (segSize s)))

/-- Whether the walk over the chunks of segment `s` goes on at `q`. -/
def walkGoesOn (m s q : Nat) : Code Bool := do
  if !(← segmentHolds s q) then return false
  if q = (← loadPtr (top m)) then return false
  return (← load 8 (head q)) != fencepostHead

/-- The inner loop of the statistics: `f` takes in the size of each chunk and whether it
is in use. -/
def walkChunks {α : Type} (m s : Nat) (f : α → Nat → Bool → α) : Nat → Nat → α → Code α
  | 0, _, _ => trap .fuel
  | fuel + 1, q, a => do
    if ← walkGoesOn m s q then do
      let size ← chunksize q
      let used ← cinuse q
      walkChunks m s f fuel (q + size) (f a size used)
    else return a

/-- The outer loop, over the segments. -/
def walkSegments {α : Type} (m : Nat) (f : α → Nat → Bool → α) : Nat → Nat → α → Code α
  | 0, _, _ => trap .fuel
  | fuel + 1, s, a => do
    if s = 0 then return a
    let a ← walkChunks m s f loopFuel (alignAsChunk (← loadPtr (segBase s))) a
    walkSegments m f fuel (← loadPtr (segNext s)) a

/-- `struct mallinfo`. The other fields are always 0. -/
structure Mallinfo where
  arena : Nat
  ordblks : Nat
  hblkhd : Nat
  usmblks : Nat
  uordblks : Nat
  fordblks : Nat
  keepcost : Nat
deriving DecidableEq, Repr

/-- What `internal_mallinfo` counts: all bytes, the free ones, the free chunks. -/
structure Tally where
  sum : Nat
  mfree : Nat
  nfree : Nat
deriving DecidableEq, Repr

def Tally.add (t : Tally) (size : Nat) (used : Bool) : Tally :=
  { sum := addSize t.sum size
    mfree := if used then t.mfree else addSize t.mfree size
    nfree := if used then t.nfree else addSize t.nfree 1 }

def internalMallinfo (m : Nat) : Code Mallinfo := do
  if (← loadPtr (top m)) = 0 then return ⟨0, 0, 0, 0, 0, 0, 0⟩
  let mfree := addSize (← load 8 (topsize m)) topFootSize
  let t ← walkSegments m Tally.add loopFuel (seg m) ⟨mfree, mfree, 1⟩
  return { arena := t.sum
           ordblks := t.nfree
           hblkhd := subSize (← load 8 (footprint m)) t.sum
           usmblks := ← load 8 (maxFootprint m)
           uordblks := subSize (← load 8 (footprint m)) t.mfree
           fordblks := t.mfree
           keepcost := ← load 8 (topsize m) }

def mspaceMallinfo (msp : Nat) : Code Mallinfo := internalMallinfo msp

/-- The three numbers that `internal_malloc_stats` prints. -/
def internalMallocStats (m : Nat) : Code (Nat × Nat × Nat) := do
  if (← loadPtr (top m)) = 0 then return (0, 0, 0)
  let maxfp ← load 8 (maxFootprint m)
  let fp ← load 8 (footprint m)
  let used := subSize fp (addSize (← load 8 (topsize m)) topFootSize)
  let used ← walkSegments m (fun used size inuse => if inuse then used else subSize used size)
    loopFuel (seg m) used
  return (maxfp, fp, used)

def mspaceMallocStats (msp : Nat) : Code (Nat × Nat × Nat) := internalMallocStats msp

def mspaceFootprint (msp : Nat) : Code Nat := load 8 (footprint msp)

def mspaceMaxFootprint (msp : Nat) : Code Nat := load 8 (maxFootprint msp)

def mspaceTopSize (msp : Nat) : Code Nat := load 8 (topsize msp)

/-! Destruction and tuning. -/

/-- The loop of `destroy_mspace`: the bytes unmapped. The `munmap` of a segment is a
system call, where the model stops. -/
def destroyLoop : Nat → Nat → Nat → Code Nat
  | 0, _, _ => trap .fuel
  | fuel + 1, sp, freed => do
    if sp = 0 then return freed
    let _ ← loadPtr (segBase sp)
    let _ ← load 8 (segSize sp)
    let flag ← load 4 (segFlags sp)
    let next ← loadPtr (segNext sp)
    if flag &&& isMmappedBit ≠ 0 ∧ flag &&& externBit = 0 then trap .syscall
    destroyLoop fuel next freed

def destroyMspace (msp : Nat) : Code Nat := destroyLoop loopFuel (seg msp) 0

/-- `mallopt`'s parameter numbers. -/
def mTrimThreshold : Int := -1

def mGranularity : Int := -2

def mMmapThreshold : Int := -3

/-- `(size_t) value`. -/
def sizeOfInt (value : Int) : Nat := (value % 2 ^ 64).toNat

def changeMparam (paramNumber value : Int) : Code Nat := do
  let val := sizeOfInt value
  initMparams
  let pm := (← globals).pmparams
  if paramNumber = mTrimThreshold then do
    store 8 (paramTrimThreshold pm) val
    return 1
  else if paramNumber = mGranularity then do
    if val ≥ (← load 8 (paramPageSize pm)) ∧ val &&& subSize val 1 = 0 then do
      store 8 (paramGranularity pm) val
      return 1
    else return 0
  else if paramNumber = mMmapThreshold then do
    store 8 (paramMmapThreshold pm) val
    return 1
  else return 0

def mspaceMallopt (paramNumber value : Int) : Code Nat := changeMparam paramNumber value

end Mmdata.Malloc
