import Mmdata.Malloc.Layout

namespace Mmdata.Malloc
open Lib

/-! Operations on smallbins. -/

/-- Link a free chunk into a smallbin. -/
def insertSmallChunk (m p s : Nat) : Code Unit := do
  let i := smallIndex s
  let b := smallbinAt m i
  let f ←
    if ← smallmapIsMarked m i then do
      let f ← loadPtr (fd b)
      check (← okAddress m f)
      pure f
    else do
      markSmallmap m i
      pure b
  storePtr (fd b) p
  storePtr (bk f) p
  storePtr (fd p) f
  storePtr (bk p) b

/-- `F == smallbin_at(M,I) || ok_address(M, F)`. -/
def okLink (m i f : Nat) : Code Bool := do
  if f = smallbinAt m i then return true
  okAddress m f

/-- Unlink a chunk from a smallbin. -/
def unlinkSmallChunk (m p s : Nat) : Code Unit := do
  let f ← loadPtr (fd p)
  let b ← loadPtr (bk p)
  let i := smallIndex s
  if f = b then clearSmallmap m i
  else do
    check (← okLink m i f)
    check (← okLink m i b)
    storePtr (bk f) b
    storePtr (fd b) f

/-- Unlink the first chunk from a smallbin. -/
def unlinkFirstSmallChunk (m b p i : Nat) : Code Unit := do
  let f ← loadPtr (fd p)
  if b = f then clearSmallmap m i
  else do
    check (← okAddress m f)
    storePtr (fd b) f
    storePtr (bk f) b

/-- Replace the designated victim, binning the old one. -/
def replaceDv (m p s : Nat) : Code Unit := do
  let dvs ← load 8 (dvsize m)
  if dvs ≠ 0 then do
    let d ← loadPtr (dv m)
    insertSmallChunk m d dvs
  store 8 (dvsize m) s
  storePtr (dv m) p

/-! Operations on trees. -/

/-- The loop of `insert_large_chunk`: `t` is the node reached, `k` holds the
bits of `s` that are still to be used, highest first. -/
def insertLargeLoop (m x s : Nat) : Nat → Nat → Nat → Code Unit
  | 0, _, _ => trap .fuel
  | fuel + 1, t, k => do
    if (← chunksize t) ≠ s then do
      let c := child t ((k >>> 63) &&& 1)
      let u ← loadPtr c
      if u ≠ 0 then insertLargeLoop m x s fuel u (shlSize k 1)
      else do
        check (← okAddress m c)
        storePtr c x
        storePtr (parent x) t
        storePtr (bk x) x
        storePtr (fd x) x
    else do
      let f ← loadPtr (fd t)
      check (← okAddress m t)
      check (← okAddress m f)
      storePtr (bk f) x
      storePtr (fd t) x
      storePtr (fd x) f
      storePtr (bk x) t
      storePtr (parent x) 0

/-- Insert a chunk into its tree. A root gets itself as parent. -/
def insertLargeChunk (m x s : Nat) : Code Unit := do
  let i := computeTreeIndex s
  let h := treebinAt m i
  store 4 (index x) i
  storePtr (child x 1) 0
  storePtr (child x 0) 0
  if ← treemapIsMarked m i then do
    let t ← loadPtr h
    insertLargeLoop m x s loopFuel t (shlSize s (leftshiftForTreeIndex i))
  else do
    markTreemap m i
    storePtr h x
    let r ← loadPtr h
    storePtr (parent x) r
    storePtr (bk x) x
    storePtr (fd x) x

/-- From the node `r` held by the slot `rp` down to a leaf, right children
first: the leaf and the slot that holds it. -/
def findLeaf : Nat → Nat → Nat → Code (Nat × Nat)
  | 0, _, _ => trap .fuel
  | fuel + 1, r, rp => do
    let c1 ← loadPtr (child r 1)
    if c1 ≠ 0 then findLeaf fuel c1 (child r 1)
    else do
      let c0 ← loadPtr (child r 0)
      if c0 ≠ 0 then findLeaf fuel c0 (child r 0)
      else return (r, rp)

/-- Steps 1 and 2 of `unlink_large_chunk`: the chunk that takes the place of
`x`, already detached from where it was; null if `x` had no other. -/
def detachReplacement (m x : Nat) : Code Nat := do
  let b ← loadPtr (bk x)
  if b ≠ x then do
    let f ← loadPtr (fd x)
    check (← okAddress m f)
    storePtr (bk f) b
    storePtr (fd b) f
    return b
  else do
    let r1 ← loadPtr (child x 1)
    let r0 ← if r1 ≠ 0 then pure r1 else loadPtr (child x 0)
    if r0 ≠ 0 then do
      let (r, rp) ← findLeaf loopFuel r0 (if r1 ≠ 0 then child x 1 else child x 0)
      check (← okAddress m rp)
      storePtr rp 0
      return r
    else return 0

/-- Step 3, upwards: the bin or the parent that held `x` gets `r`. -/
def relinkParent (m x xp r : Nat) : Code Unit := do
  let i ← load 4 (index x)
  let h := treebinAt m i
  if x = (← loadPtr h) then do
    storePtr h r
    if r = 0 then clearTreemap m i
  else do
    check (← okAddress m xp)
    if (← loadPtr (child xp 0)) = x then storePtr (child xp 0) r
    else storePtr (child xp 1) r

/-- Hand the child `i` of `x`, if there is one, to `r`. -/
def relinkChild (m x r i : Nat) : Code Unit := do
  let c ← loadPtr (child x i)
  if c ≠ 0 then do
    check (← okAddress m c)
    storePtr (child r i) c
    storePtr (parent c) r

/-- Step 3, downwards. -/
def relinkChildren (m x xp r : Nat) : Code Unit := do
  if r ≠ 0 then do
    check (← okAddress m r)
    storePtr (parent r) xp
    relinkChild m x r 0
    relinkChild m x r 1

def unlinkLargeChunk (m x : Nat) : Code Unit := do
  let xp ← loadPtr (parent x)
  let r ← detachReplacement m x
  if xp ≠ 0 then do
    relinkParent m x xp r
    relinkChildren m x xp r

def insertChunk (m p s : Nat) : Code Unit :=
  if isSmall s then insertSmallChunk m p s else insertLargeChunk m p s

def unlinkChunk (m p s : Nat) : Code Unit :=
  if isSmall s then unlinkSmallChunk m p s else unlinkLargeChunk m p

end Mmdata.Malloc
