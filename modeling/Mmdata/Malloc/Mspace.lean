import Mmdata.Malloc.Bins

namespace Mmdata.Malloc
open Lib

/-! Segments and trimming. -/

/-- The segment record holding `addr`, or null. -/
def segmentHolding (addr : Nat) : Nat → Nat → Code Nat
  | 0, _ => trap .fuel
  | fuel + 1, sp => do
    let base ← checkPtr (← loadPtr (segBase sp))
    let size ← load 8 (segSize sp)
    if base ≤ addr ∧ addr < base + size then return sp
    let next ← loadPtr (segNext sp)
    if next = 0 then return 0
    segmentHolding addr fuel next

/-- The loop of `release_unused_segments`: the number of segments visited.
Unmapping a segment is a system call, where the model stops. -/
def releaseLoop (m : Nat) : Nat → Nat → Nat → Code Nat
  | 0, _, _ => trap .fuel
  | fuel + 1, sp, nsegs => do
    if sp = 0 then return nsegs
    let base ← loadPtr (segBase sp)
    let size ← load 8 (segSize sp)
    let next ← loadPtr (segNext sp)
    let flags ← load 4 (segFlags sp)
    if flags &&& isMmappedBit ≠ 0 ∧ flags &&& externBit = 0 then do
      let p := alignAsChunk base
      let psize ← chunksize p
      if !(← cinuse p) && decide (p + psize ≥ base + size - topFootSize) then trap .syscall
    releaseLoop m fuel next (nsegs + 1)

def maxReleaseCheckRate : Nat := 255

def releaseUnusedSegments (m : Nat) : Code Nat := do
  let sp ← loadPtr (segNext (seg m))
  let nsegs ← releaseLoop m loopFuel sp 0
  store 8 (releaseChecks m) (if nsegs > maxReleaseCheckRate then nsegs else maxReleaseCheckRate)
  return 0

/-- `sys_trim`. Nothing is ever released from an extern segment; shrinking any
other one is a system call, where the model stops. -/
def sysTrim (m pad : Nat) : Code Nat := do
  let t ← loadPtr (top m)
  if pad < maxRequest ∧ t ≠ 0 then do
    let pad := addSize pad topFootSize
    let ts ← load 8 (topsize m)
    if ts > pad then do
      let unit ← load 8 (paramGranularity (← globals).pmparams)
      if unit = 0 then trap .divZero
      let _extra := subSize ((addSize (subSize ts pad) (subSize unit 1)) / unit) 1 * unit % 2 ^ 64
      let sp ← segmentHolding t loopFuel (seg m)
      let flags ← load 4 (segFlags sp)
      if flags &&& externBit = 0 then trap .syscall
    let released ← releaseUnusedSegments m
    let ts ← load 8 (topsize m)
    if released = 0 ∧ ts > (← load 8 (trimCheck m)) then store 8 (trimCheck m) maxSizeT
    return if released ≠ 0 then 1 else 0
  else return 0

/-! Allocation from trees. -/

/-- `leftmost_child`. -/
def leftmostChild (t : Nat) : Code Nat := do
  let c ← loadPtr (child t 0)
  if c ≠ 0 then return c
  loadPtr (child t 1)

/-- The first loop of `tmalloc_large`: where it stops, the best chunk so far
and its remainder. `rst` is the deepest right subtree not taken. -/
def tmallocDescend (nb : Nat) : Nat → Nat → Nat → Nat → Nat → Nat → Code (Nat × Nat × Nat)
  | 0, _, _, _, _, _ => trap .fuel
  | fuel + 1, t, v, rsize, sizebits, rst => do
    let trem := subSize (← chunksize t) nb
    if trem < rsize ∧ trem = 0 then return (t, t, 0)
    let v' := if trem < rsize then t else v
    let rsize' := if trem < rsize then trem else rsize
    let rt ← loadPtr (child t 1)
    let u ← loadPtr (child t ((sizebits >>> 63) &&& 1))
    let rst' := if rt ≠ 0 ∧ rt ≠ u then rt else rst
    if u = 0 then return (rst', v', rsize')
    tmallocDescend nb fuel u v' rsize' (shlSize sizebits 1) rst'

/-- `while (t != 0)`: the smallest chunk on the leftmost path from `t`, if it
beats `v` with remainder `rsize`. -/
def leftmostWalk (nb : Nat) : Nat → Nat → Nat → Nat → Code (Nat × Nat)
  | 0, _, _, _ => trap .fuel
  | fuel + 1, t, v, rsize => do
    if t = 0 then return (v, rsize)
    let trem := subSize (← chunksize t) nb
    let u ← leftmostChild t
    if trem < rsize then leftmostWalk nb fuel u t trem
    else leftmostWalk nb fuel u v rsize

/-- The search of `tmalloc_large`: the chosen chunk, or null, and its remainder. -/
def tmallocLargeSearch (m nb : Nat) : Code (Nat × Nat) := do
  let idx := computeTreeIndex nb
  let root ← loadPtr (treebinAt m idx)
  let (t, v, rsize) ←
    if root ≠ 0 then
      tmallocDescend nb loopFuel root 0 (subSize 0 nb) (shlSize nb (leftshiftForTreeIndex idx)) 0
    else pure (0, 0, subSize 0 nb)
  let t ←
    if t = 0 ∧ v = 0 then do
      let leftbits := leftBits (idx2bit idx) &&& (← load 4 (treemap m))
      if leftbits ≠ 0 then loadPtr (treebinAt m (computeBit2idx (leastBit leftbits)))
      else pure 0
    else pure t
  leftmostWalk nb loopFuel t v rsize

/-- Allocate a large request from the best fitting chunk in a treebin. -/
def tmallocLarge (m nb : Nat) : Code Nat := do
  let (v, rsize) ← tmallocLargeSearch m nb
  if v ≠ 0 ∧ rsize < subSize (← load 8 (dvsize m)) nb then do
    check (← okAddress m v)
    let r := v + nb
    check (okNext v r)
    unlinkLargeChunk m v
    if rsize < minChunkSize then setInuseAndPinuse v (addSize rsize nb)
    else do
      setSizeAndPinuseOfInuseChunk v nb
      setSizeAndPinuseOfFreeChunk r rsize
      insertChunk m r rsize
    return chunk2mem v
  else return 0

/-- Allocate a small request from the best fitting chunk in a treebin. -/
def tmallocSmall (m nb : Nat) : Code Nat := do
  let root ← loadPtr (treebinAt m (computeBit2idx (leastBit (← load 4 (treemap m)))))
  let rem := subSize (← chunksize root) nb
  let t ← leftmostChild root
  let (v, rsize) ← leftmostWalk nb loopFuel t root rem
  check (← okAddress m v)
  let r := v + nb
  check (okNext v r)
  unlinkLargeChunk m v
  if rsize < minChunkSize then setInuseAndPinuse v (addSize rsize nb)
  else do
    setSizeAndPinuseOfInuseChunk v nb
    setSizeAndPinuseOfFreeChunk r rsize
    replaceDv m r rsize
  return chunk2mem v

/-! The public operations. -/

/-- Split or exhaust `dv`, else split `top`, else fail: the memory and the
size of its chunk. -/
def mallocFromDvOrTop (ms nb : Nat) : Code (Option (Nat × Nat)) := do
  let dvs ← load 8 (dvsize ms)
  if nb ≤ dvs then do
    let rsize := subSize dvs nb
    let p ← loadPtr (dv ms)
    if rsize ≥ minChunkSize then do
      let r := p + nb
      storePtr (dv ms) r
      store 8 (dvsize ms) rsize
      setSizeAndPinuseOfFreeChunk r rsize
      setSizeAndPinuseOfInuseChunk p nb
      return some (chunk2mem p, nb)
    else do
      store 8 (dvsize ms) 0
      storePtr (dv ms) 0
      setInuseAndPinuse p dvs
      return some (chunk2mem p, dvs)
  else do
    let ts ← load 8 (topsize ms)
    if nb < ts then do
      let rsize := subSize ts nb
      store 8 (topsize ms) rsize
      let p ← loadPtr (top ms)
      let r := p + nb
      storePtr (top ms) r
      store 8 (head r) (rsize ||| pinuseBit)
      setSizeAndPinuseOfInuseChunk p nb
      return some (chunk2mem p, nb)
    else return none

/-- A remainderless fit: the first chunk of bin `idx`. -/
def mallocExactSmall (ms idx : Nat) : Code (Option (Nat × Nat)) := do
  let b := smallbinAt ms idx
  let p ← loadPtr (fd b)
  let size ← chunksize p
  unlinkFirstSmallChunk ms b p idx
  setInuseAndPinuse p (smallIndex2size idx)
  return some (chunk2mem p, size)

/-- The first chunk of the next nonempty smallbin, split. -/
def mallocNextSmall (ms nb i : Nat) : Code (Option (Nat × Nat)) := do
  let b := smallbinAt ms i
  let p ← loadPtr (fd b)
  unlinkFirstSmallChunk ms b p i
  let rsize := subSize (smallIndex2size i) nb
  if rsize < minChunkSize then setInuseAndPinuse p (smallIndex2size i)
  else do
    setSizeAndPinuseOfInuseChunk p nb
    let r := p + nb
    setSizeAndPinuseOfFreeChunk r rsize
    replaceDv ms r rsize
  return some (chunk2mem p, ← chunksize p)

def mallocSmall (ms nb : Nat) : Code (Option (Nat × Nat)) := do
  let idx := smallIndex nb
  let smallbits := (← load 4 (smallmap ms)) >>> idx
  if smallbits &&& 3 ≠ 0 then
    mallocExactSmall ms (idx + ((2 ^ 32 - 1 - smallbits) &&& 1))
  else if nb > (← load 8 (dvsize ms)) then
    if smallbits ≠ 0 then
      let leftbits := ((smallbits <<< idx) % 2 ^ 32) &&& leftBits (idx2bit idx)
      mallocNextSmall ms nb (computeBit2idx (leastBit leftbits))
    else if (← load 4 (treemap ms)) ≠ 0 then do
      let mem ← tmallocSmall ms nb
      if mem ≠ 0 then return some (mem, ← chunksize (mem2chunk mem))
      mallocFromDvOrTop ms nb
    else mallocFromDvOrTop ms nb
  else mallocFromDvOrTop ms nb

def mallocLarge (ms nb : Nat) : Code (Option (Nat × Nat)) := do
  if (← load 4 (treemap ms)) ≠ 0 then do
    let mem ← tmallocLarge ms nb
    if mem ≠ 0 then return some (mem, ← chunksize (mem2chunk mem))
    mallocFromDvOrTop ms nb
  else mallocFromDvOrTop ms nb

/-- `MAX_SMALL_REQUEST`. -/
def maxSmallRequest : Nat := 240

/-- `mspace_malloc`. The null result skips the accounting in `exts`. -/
def mspaceMalloc (ms bytes : Nat) : Code Nat := do
  let found ←
    if bytes ≤ maxSmallRequest then
      mallocSmall ms (if bytes < minRequest then minChunkSize else padRequest bytes)
    else if bytes ≥ maxRequest then mallocFromDvOrTop ms maxSizeT
    else mallocLarge ms (padRequest bytes)
  match found with
  | none => return 0
  | some (mem, size) => do
    update 8 (exts ms) fun e => addSize e size
    return mem

/-- Backward consolidation in `mspace_free`: the start and size of the free
region so far, or `none` when the chunk went into `dv`. -/
def freeBackward (fm p psize next : Nat) : Code (Option (Nat × Nat)) := do
  if ← pinuse p then return some (p, psize)
  let prevsize ← load 8 (prevFoot p)
  if prevsize &&& isMmappedBit ≠ 0 then trap .syscall
  let prev ← checkPtr (p - prevsize)
  let psize := addSize psize prevsize
  check (← okAddress fm prev)
  if prev ≠ (← loadPtr (dv fm)) then do
    unlinkChunk fm prev prevsize
    return some (prev, psize)
  else if (← load 8 (head next)) &&& inuseBits = inuseBits then do
    store 8 (dvsize fm) psize
    setFreeWithPinuse prev psize next
    return none
  else return some (prev, psize)

/-- Bin the free chunk `p`. Every so many large chunks, look for segments to release. -/
def freeBinned (fm p psize : Nat) : Code Unit := do
  if isSmall psize then insertSmallChunk fm p psize
  else do
    insertLargeChunk fm p psize
    update 8 (releaseChecks fm) fun c => subSize c 1
    if (← load 8 (releaseChecks fm)) = 0 then do
      let _ ← releaseUnusedSegments fm

/-- Forward consolidation into `top`. -/
def freeIntoTop (fm p psize : Nat) : Code Unit := do
  update 8 (topsize fm) fun t => addSize t psize
  let tsize ← load 8 (topsize fm)
  storePtr (top fm) p
  store 8 (head p) (tsize ||| pinuseBit)
  if p = (← loadPtr (dv fm)) then do
    storePtr (dv fm) 0
    store 8 (dvsize fm) 0
  if tsize > (← load 8 (trimCheck fm)) then do
    let _ ← sysTrim fm 0

/-- Forward consolidation in `mspace_free`. -/
def freeForward (fm p psize next : Nat) : Code Unit := do
  check (okNext p next)
  check (← pinuse next)
  if ← cinuse next then do
    setFreeWithPinuse p psize next
    freeBinned fm p psize
  else if next = (← loadPtr (top fm)) then freeIntoTop fm p psize
  else if next = (← loadPtr (dv fm)) then do
    update 8 (dvsize fm) fun d => addSize d psize
    let dsize ← load 8 (dvsize fm)
    storePtr (dv fm) p
    setSizeAndPinuseOfFreeChunk p dsize
  else do
    let nsize ← chunksize next
    let psize := addSize psize nsize
    unlinkChunk fm next nsize
    setSizeAndPinuseOfFreeChunk p psize
    if p = (← loadPtr (dv fm)) then store 8 (dvsize fm) psize
    else freeBinned fm p psize

def mspaceFree (msp mem : Nat) : Code Unit := do
  if mem ≠ 0 then do
    let p := mem2chunk mem
    let size ← chunksize p
    check (← okAddress msp p)
    check (← cinuse p)
    let next := p + size
    match ← freeBackward msp p size next with
    | none => pure ()
    | some (p, psize) => freeForward msp p psize next
    update 8 (exts msp) fun e => subSize e size

/-- `mmap_resize`, up to the call of `mremap`. -/
def mmapResize (oldp nb : Nat) : Code Nat := do
  let oldsize ← chunksize oldp
  if isSmall nb then return 0
  let granularity ← load 8 (paramGranularity (← globals).pmparams)
  if oldsize ≥ addSize nb 8 ∧ subSize oldsize nb ≤ shlSize granularity 1 then return oldp
  trap .syscall

/-- The attempt of `internal_realloc` to stay in place: the chunk, or null,
and the memory of a remainder to free, or null. -/
def reallocInPlace (m oldp oldsize next nb : Nat) : Code (Nat × Nat) := do
  if ← isMmapped oldp then return (← mmapResize oldp nb, 0)
  if oldsize ≥ nb then do
    let rsize := subSize oldsize nb
    if rsize ≥ minChunkSize then do
      let remainder := oldp + nb
      setInuse oldp nb
      setInuse remainder rsize
      return (oldp, chunk2mem remainder)
    else return (oldp, 0)
  else do
    let t ← loadPtr (top m)
    let ts ← load 8 (topsize m)
    if next = t ∧ addSize oldsize ts > nb then do
      let newtopsize := subSize (addSize oldsize ts) nb
      let newtop := oldp + nb
      setInuse oldp nb
      store 8 (head newtop) (newtopsize ||| pinuseBit)
      storePtr (top m) newtop
      store 8 (topsize m) newtopsize
      return (oldp, 0)
    else return (0, 0)

def internalRealloc (m oldmem bytes : Nat) : Code Nat := do
  if bytes ≥ maxRequest then return 0
  let oldp := mem2chunk oldmem
  let oldsize ← chunksize oldp
  let next := oldp + oldsize
  check (← okAddress m oldp)
  check (← cinuse oldp)
  check (okNext oldp next)
  check (← pinuse next)
  let (newp, extra) ← reallocInPlace m oldp oldsize next (request2size bytes)
  if newp ≠ 0 then do
    if extra ≠ 0 then mspaceFree m extra
    return chunk2mem newp
  else do
    let newmem ← mspaceMalloc m bytes
    if newmem ≠ 0 then do
      let oc := subSize oldsize (← overheadFor oldp)
      memcpy newmem oldmem (if oc < bytes then oc else bytes)
      mspaceFree m oldmem
    return newmem

def mspaceRealloc (msp oldmem bytes : Nat) : Code Nat :=
  if oldmem = 0 then mspaceMalloc msp bytes else internalRealloc msp oldmem bytes

def mspaceUsed (msp : Nat) : Code Nat := load 8 (exts msp)

def mspaceTopAddress (msp : Nat) : Code Nat := do return chunk2mem (← loadPtr (top msp))

def mspaceTrim (msp pad : Nat) : Code Nat := sysTrim msp pad

/-- Grow the segment by `inc` bytes that now follow it. -/
def mspaceIncSize (msp inc : Nat) : Code Unit := do
  update 8 (topsize msp) fun t => addSize t inc
  update 8 (segSize (seg msp)) fun s => addSize s inc
  update 8 (footprint msp) fun f => addSize f inc
  update 8 (maxFootprint msp) fun f => addSize f inc
  let t ← loadPtr (top msp)
  let newSize := addSize (← chunksize t) inc
  store 8 (head t) (newSize ||| ((← load 8 (head t)) &&& pinuseBit))
  store 8 (head (t + newSize)) topFootSize

def mspaceUsableSize (mem : Nat) : Code Nat := do
  if mem = 0 then return 0
  let p := mem2chunk mem
  if ← cinuse p then return subSize (← chunksize p) (← overheadFor p)
  return 0

/-! Creation. -/

def defaultMmapThreshold : Nat := 256 * 1024

def defaultTrimThreshold : Nat := 2 * 1024 * 1024

def defaultGranularity : Nat := 64 * 1024

/-- `USE_MMAP_BIT | USE_NONCONTIGUOUS_BIT`; the lock bit is 0. -/
def defaultFlags : Nat := 5

/-- Initialise the parameters `pmparams` points to, unless they hold a page size. -/
def initMparams : Code Unit := do
  let g ← globals
  let pm := g.pmparams
  if (← load 8 (paramPageSize pm)) = 0 then do
    store 8 (paramMmapThreshold pm) defaultMmapThreshold
    store 8 (paramTrimThreshold pm) defaultTrimThreshold
    store 4 (paramDefaultMflags pm) defaultFlags
    if (← load 8 (paramMagic pm)) = 0 then store 8 (paramMagic pm) 0x58585858
    store 8 (paramPageSize pm) g.pageSize
    store 8 (paramGranularity pm) defaultGranularity
    check (defaultGranularity &&& (defaultGranularity - 1) = 0)
    check (g.pageSize &&& subSize g.pageSize 1 = 0)

def initTop (m p psize : Nat) : Code Unit := do
  let offset := alignOffset (chunk2mem p)
  let p := p + offset
  let psize := subSize psize offset
  storePtr (top m) p
  store 8 (topsize m) psize
  store 8 (head p) (psize ||| pinuseBit)
  store 8 (head (p + psize)) topFootSize
  store 8 (trimCheck m) (← load 8 (paramTrimThreshold (← globals).pmparams))

/-- `for (i = k; i < k + n; ++i)`. -/
def forLoop (body : Nat → Code Unit) : Nat → Nat → Code Unit
  | 0, _ => pure ()
  | n + 1, k => do
    body k
    forLoop body n (k + 1)

def initBins (m : Nat) : Code Unit :=
  forLoop (fun i => do
    let bin := smallbinAt m i
    storePtr (bk bin) bin
    storePtr (fd bin) bin) 32 0

def initUserMstate (tbase tsize firstInit : Nat) : Code Nat := do
  let msp := alignAsChunk tbase
  let m := chunk2mem msp
  if firstInit = 0 then return m
  memset m mstateSize 0
  store 8 (head msp) (mstateSize ||| pinuseBit ||| cinuseBit)
  storePtr (leastAddr m) tbase
  storePtr (segBase (seg m)) tbase
  storePtr (segNext (seg m)) 0
  store 8 (maxFootprint m) tsize
  store 8 (footprint m) tsize
  store 8 (segSize (seg m)) tsize
  store 8 (magic m) (← load 8 (paramMagic (← globals).pmparams))
  store 8 (releaseChecks m) maxReleaseCheckRate
  store 4 (mflags m) (← load 4 (paramDefaultMflags (← globals).pmparams))
  storePtr (extp m) 0
  store 8 (exts m) 0
  storePtr (dv m) 0
  forLoop (fun i => storePtr (treebinAt m i) 0) 32 0
  update 4 (mflags m) fun w => w ||| 4
  initBins m
  let mn := msp + (← chunksize msp)
  initTop m mn (subSize (subSize (tbase + tsize) mn) topFootSize)
  return m

/-- The result is null when the capacity is refused. -/
def createMspaceWithBase (base capacity locked recreate : Nat) : Code Nat := do
  setGlobals { (← globals) with pmparams := base }
  let firstInit := if (← load 8 (paramMagic base)) ≠ 0 ∧ recreate = 0 then 0 else 1
  if firstInit ≠ 0 then initMparams
  let tbase := base + mallocParamsSize
  if capacity > mstateSize + topFootSize then do
    let pageSize ← load 8 (paramPageSize (← globals).pmparams)
    if capacity < subSize 0 (addSize (mstateSize + topFootSize) pageSize) then do
      let m ← initUserMstate tbase capacity firstInit
      if firstInit = 0 then return m
      store 4 (segFlags (seg m)) externBit
      update 4 (mflags m) fun w => if locked ≠ 0 then w ||| 0 else clearBits w 0
      return m
    else return 0
  else return 0

end Mmdata.Malloc
