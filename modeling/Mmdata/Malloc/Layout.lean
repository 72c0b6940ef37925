import Mmdata.Lib.Machine

namespace Mmdata.Malloc
open Lib

/-- The process-wide variables of the allocator: where `pmparams` points, and
the system page size. -/
structure Globals where
  pmparams : Nat
  pageSize : Nat

abbrev State := Machine Globals

abbrev Code := Prog Globals

/-! `size_t` arithmetic of the LP64 build. -/

def addSize (a b : Nat) : Nat := (a + b) % 2 ^ 64

def subSize (a b : Nat) : Nat := (a + 2 ^ 64 - b) % 2 ^ 64

def shlSize (a k : Nat) : Nat := (a <<< k) % 2 ^ 64

/-- `x & ~mask`. -/
def clearBits (x mask : Nat) : Nat := x - (x &&& mask)

def maxSizeT : Nat := 2 ^ 64 - 1

def chunkAlignMask : Nat := 7

def chunkOverhead : Nat := 8

def mmapChunkOverhead : Nat := 16

def minChunkSize : Nat := 32

/-- `(-MIN_CHUNK_SIZE) << 2`. -/
def maxRequest : Nat := 2 ^ 64 - 128

def minRequest : Nat := 23

def padRequest (req : Nat) : Nat :=
  clearBits (addSize (addSize req chunkOverhead) chunkAlignMask) chunkAlignMask

def request2size (req : Nat) : Nat :=
  if req < minRequest then minChunkSize else padRequest req

def pinuseBit : Nat := 1

def cinuseBit : Nat := 2

def inuseBits : Nat := 3

def flagBits : Nat := 7

def isMmappedBit : Nat := 1

def externBit : Nat := 8

/-- Padding at the end of a segment: a segment record and a minimal chunk. -/
def topFootSize : Nat := 72

/-- `pad_request(sizeof(struct malloc_state))`. -/
def mstateSize : Nat := 936

def mallocParamsSize : Nat := 48

/-! `malloc_chunk` and `malloc_tree_chunk`. -/

def prevFoot (p : Nat) : Nat := p

def head (p : Nat) : Nat := p + 8

def fd (p : Nat) : Nat := p + 16

def bk (p : Nat) : Nat := p + 24

def child (p i : Nat) : Nat := p + 32 + 8 * i

def parent (p : Nat) : Nat := p + 48

def index (p : Nat) : Nat := p + 56

def chunk2mem (p : Nat) : Nat := p + 16

def mem2chunk (mem : Nat) : Nat := mem - 16

def alignOffset (a : Nat) : Nat :=
  if a &&& chunkAlignMask = 0 then 0 else (8 - (a &&& chunkAlignMask)) &&& chunkAlignMask

def alignAsChunk (a : Nat) : Nat := a + alignOffset (chunk2mem a)

/-! `malloc_state`, with the segment record it embeds. -/

def smallmap (m : Nat) : Nat := m

def treemap (m : Nat) : Nat := m + 4

def dvsize (m : Nat) : Nat := m + 8

def topsize (m : Nat) : Nat := m + 16

def leastAddr (m : Nat) : Nat := m + 24

def dv (m : Nat) : Nat := m + 32

def top (m : Nat) : Nat := m + 40

def trimCheck (m : Nat) : Nat := m + 48

def releaseChecks (m : Nat) : Nat := m + 56

def magic (m : Nat) : Nat := m + 64

/-- A small bin header doubles as a chunk whose links are slots of `smallbins`. -/
def smallbinAt (m i : Nat) : Nat := m + 72 + 16 * i

def treebinAt (m i : Nat) : Nat := m + 600 + 8 * i

def footprint (m : Nat) : Nat := m + 856

def maxFootprint (m : Nat) : Nat := m + 864

def mflags (m : Nat) : Nat := m + 872

def seg (m : Nat) : Nat := m + 880

def extp (m : Nat) : Nat := m + 912

def exts (m : Nat) : Nat := m + 920

def segBase (s : Nat) : Nat := s

def segSize (s : Nat) : Nat := s + 8

def segNext (s : Nat) : Nat := s + 16

def segFlags (s : Nat) : Nat := s + 24

/-! `malloc_params`. -/

def paramMagic (p : Nat) : Nat := p

def paramPageSize (p : Nat) : Nat := p + 8

def paramGranularity (p : Nat) : Nat := p + 16

def paramMmapThreshold (p : Nat) : Nat := p + 24

def paramTrimThreshold (p : Nat) : Nat := p + 32

def paramDefaultMflags (p : Nat) : Nat := p + 40

/-! Head words. -/

def chunksize (p : Nat) : Code Nat := do return clearBits (← load 8 (head p)) flagBits

def cinuse (p : Nat) : Code Bool := do return (← load 8 (head p)) &&& cinuseBit != 0

def pinuse (p : Nat) : Code Bool := do return (← load 8 (head p)) &&& pinuseBit != 0

def clearPinuse (p : Nat) : Code Unit := update 8 (head p) fun h => clearBits h pinuseBit

def setFoot (p s : Nat) : Code Unit := store 8 (prevFoot (p + s)) s

def setSizeAndPinuseOfFreeChunk (p s : Nat) : Code Unit := do
  store 8 (head p) (s ||| pinuseBit)
  setFoot p s

def setFreeWithPinuse (p s n : Nat) : Code Unit := do
  clearPinuse n
  setSizeAndPinuseOfFreeChunk p s

/-- Only the lowest bit of the old head counts, and `PINUSE_BIT` is or-ed
into the next head, whatever the rest of these words is. -/
def setInuse (p s : Nat) : Code Unit := do
  let b ← loadLow (head p)
  store 8 (head p) (b ||| s ||| cinuseBit)
  setLowBit (head (p + s))

def setInuseAndPinuse (p s : Nat) : Code Unit := do
  store 8 (head p) (s ||| pinuseBit ||| cinuseBit)
  setLowBit (head (p + s))

def setSizeAndPinuseOfInuseChunk (p s : Nat) : Code Unit :=
  store 8 (head p) (s ||| pinuseBit ||| cinuseBit)

/-- `prev_foot` is read only when the predecessor is marked free. -/
def isMmapped (p : Nat) : Code Bool := do
  if ← pinuse p then return false
  return (← load 8 (prevFoot p)) &&& isMmappedBit != 0

def overheadFor (p : Nat) : Code Nat := do
  return if ← isMmapped p then mmapChunkOverhead else chunkOverhead

/-! Run-time checks. -/

def okAddress (m a : Nat) : Code Bool := do return decide ((← loadPtr (leastAddr m)) ≤ a)

def okNext (p n : Nat) : Bool := decide (p < n)

/-- `CORRUPTION_ERROR_ACTION` and `USAGE_ERROR_ACTION` are `abort()`. -/
def check (ok : Bool) : Code Unit := if ok then pure () else trap .abort

/-! Indexing bins. -/

def isSmall (s : Nat) : Bool := decide (s >>> 3 < 32)

def smallIndex (s : Nat) : Nat := s >>> 3

def smallIndex2size (i : Nat) : Nat := i <<< 3

/-- The gcc x86-64 branch: `X` is a 32-bit variable, and `bsrl` finds its
highest set bit. -/
def computeTreeIndex (s : Nat) : Nat :=
  let x := (s >>> 8) % 2 ^ 32
  if x = 0 then 0
  else if x > 0xFFFF then 31
  else
    let k := Nat.log2 x
    (k <<< 1) + ((s >>> (k + 7)) &&& 1)

def leftshiftForTreeIndex (i : Nat) : Nat := if i = 31 then 0 else 63 - ((i >>> 1) + 6)

/-- The size of the smallest chunk held in the tree. -/
def minsizeForTreeIndex (i : Nat) : Nat :=
  (1 <<< ((i >>> 1) + 8)) ||| ((i &&& 1) <<< ((i >>> 1) + 8 - 1))

/-! Bin maps. -/

def idx2bit (i : Nat) : Nat := (1 <<< i) % 2 ^ 32

def markSmallmap (m i : Nat) : Code Unit := update 4 (smallmap m) fun w => w ||| idx2bit i

def clearSmallmap (m i : Nat) : Code Unit := update 4 (smallmap m) fun w => clearBits w (idx2bit i)

def smallmapIsMarked (m i : Nat) : Code Bool := do
  return (← load 4 (smallmap m)) &&& idx2bit i != 0

def markTreemap (m i : Nat) : Code Unit := update 4 (treemap m) fun w => w ||| idx2bit i

def clearTreemap (m i : Nat) : Code Unit := update 4 (treemap m) fun w => clearBits w (idx2bit i)

def treemapIsMarked (m i : Nat) : Code Bool := do
  return (← load 4 (treemap m)) &&& idx2bit i != 0

/-- `bsfl`: the lowest set bit. -/
def computeBit2idx (x : Nat) : Nat := ((List.range 32).find? fun i => x.testBit i).getD 0

def leastBit (x : Nat) : Nat := x &&& ((2 ^ 32 - x) % 2 ^ 32)

def leftBits (x : Nat) : Nat :=
  ((x <<< 1) % 2 ^ 32) ||| ((2 ^ 32 - (x <<< 1) % 2 ^ 32) % 2 ^ 32)

/-- Loops over links run with this much fuel; no list or tree in a 64-bit
address space is longer. -/
def loopFuel : Nat := 2 ^ 64

end Mmdata.Malloc
