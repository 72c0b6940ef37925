import Mmdata.Malloc.Client
import Mmdata.Malloc.Interface

namespace Mmdata.Malloc
open Lib

/-- What a client asks of the whole interface. Where `into` names a live block, that block
takes the array of pointers. -/
inductive Request
  | call (c : Call)
  | calloc (n e : Nat)
  | memalign (alignment bytes : Nat)
  | independentCalloc (n e : Nat) (into : Option Nat)
  | independentComalloc (sizes : List Nat) (into : Option Nat)
  | trim (pad : Nat)
  | mallopt (paramNumber value : Int)
deriving DecidableEq, Repr

/-- The block that a request is about. -/
def Request.target : Request → Option Nat
  | .call c => c.target
  | .independentCalloc _ _ into => into
  | .independentComalloc _ into => into
  | _ => none

/-- The total that `ialloc` asks for. -/
def iallocTotal (zs : List Nat) (chunks : Nat) : Nat :=
  zs.sum + if chunks ≠ 0 then 0 else request2size (8 * zs.length)

/-- Requests that no `size_t` is too small for. The code checks none of this. -/
def Request.Fair : Request → Prop
  | .memalign alignment _ => alignment ≤ 2 ^ 63
  | .independentCalloc n e _ =>
    e < maxRequest ∧ iallocTotal (List.replicate n (request2size e)) 0 < 2 ^ 64
  | .independentComalloc sizes _ =>
    (∀ y ∈ sizes, y < maxRequest) ∧ iallocTotal (sizes.map request2size) 0 < 2 ^ 64
  | _ => True

/-- The pointers in the array at `a`. -/
def readArray (a : Nat) : Nat → Code (List Nat)
  | 0 => return []
  | n + 1 => do
    let p ← load 8 a
    let ps ← readArray (a + 8) n
    return p :: ps

/-- The array for `n` pointers that a client passes: null, or a live block large enough. -/
def arrayFor (live : List Nat) (n : Nat) : Option Nat → Code (Option Nat)
  | none => return some 0
  | some k =>
    match live[k]? with
    | none => return none
    | some p => do
      let u ← mspaceUsableSize p
      return if 8 * n ≤ u then some p else none

/-- The blocks that the array at `v` lists are live from now on, and so is the array unless
it was passed. -/
def collect (live : List Nat) (chunks n v : Nat) : Code (Nat × List Nat) := do
  if v = 0 then return (0, live)
  let ps ← readArray v n
  return (v, ps ++ if chunks = 0 then v :: live else live)

/-- The result of a request, and the live blocks after it. -/
def serve (ms : Nat) (live : List Nat) : Request → Code (Nat × List Nat)
  | .call c => perform ms live c
  | .calloc n e => do
    let v ← mspaceCalloc ms n e
    return (v, if v = 0 then live else v :: live)
  | .memalign alignment bytes => do
    let v ← mspaceMemalign ms alignment bytes
    return (v, if v = 0 then live else v :: live)
  | .independentCalloc n e into => do
    match ← arrayFor live n into with
    | none => return (0, live)
    | some chunks => do
      let v ← mspaceIndependentCalloc ms n e chunks
      collect live chunks n v
  | .independentComalloc sizes into => do
    match ← arrayFor live sizes.length into with
    | none => return (0, live)
    | some chunks => do
      let v ← mspaceIndependentComalloc ms sizes.length sizes chunks
      collect live chunks sizes.length v
  | .trim pad => do
    let r ← mspaceTrim ms pad
    return (r, live)
  | .mallopt paramNumber value => do
    let r ← mspaceMallopt paramNumber value
    return (r, live)

end Mmdata.Malloc
