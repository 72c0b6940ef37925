import Mmdata.Malloc.Mspace

namespace Mmdata.Malloc
open Lib

/-- What a client asks for. It names a live block by its position among the
live blocks; a call about any other block does nothing. -/
inductive Call
  | malloc (bytes : Nat)
  | free (k : Nat)
  | realloc (k bytes : Nat)
  | write (k i : Nat) (b : UInt8)
deriving DecidableEq, Repr

/-- The block that a call is about. -/
def Call.target : Call → Option Nat
  | .malloc _ => none
  | .free k => some k
  | .realloc k _ => some k
  | .write k _ _ => some k

/-- The size that a call asks for. -/
def Call.wanted : Call → Option Nat
  | .malloc n => some n
  | .realloc _ n => some n
  | _ => none

/-- The result of a call, and the live blocks after it. Clients write to the
usable bytes of their blocks only. -/
def perform (ms : Nat) (live : List Nat) : Call → Code (Nat × List Nat)
  | .malloc bytes => do
    let v ← mspaceMalloc ms bytes
    return (v, if v = 0 then live else v :: live)
  | .free k =>
    match live[k]? with
    | none => return (0, live)
    | some p => do
      mspaceFree ms p
      return (0, live.eraseIdx k)
  | .realloc k bytes =>
    match live[k]? with
    | none => return (0, live)
    | some p => do
      let v ← mspaceRealloc ms p bytes
      return (v, if v = 0 then live else live.set k v)
  | .write k i b =>
    match live[k]? with
    | none => return (0, live)
    | some p => do
      let u ← mspaceUsableSize p
      if i < u then store 1 (p + i) b.toNat
      return (0, live)

/-- The results of the calls, and the live blocks at the end. -/
def performAll (ms : Nat) : List Call → List Nat → Code (List Nat × List Nat)
  | [], live => return ([], live)
  | c :: cs, live => do
    let (v, live) ← perform ms live c
    let (vs, live) ← performAll ms cs live
    return (v :: vs, live)

/-- An mspace is recreated and used: its address, the results, and the live
blocks at the end. -/
def session (base cap locked : Nat) (cs : List Call) : Code (Nat × List Nat × List Nat) := do
  let ms ← createMspaceWithBase base cap locked 1
  if ms = 0 then return (0, [], [])
  let (vs, live) ← performAll ms cs []
  return (ms, vs, live)

/-- A buffer for an mspace: aligned to 8 bytes, of whole pages, mapped, and with
known contents where the parameters are to be. -/
structure Ready (σ : State) (base cap : Nat) : Prop where
  align : base % 8 = 0
  page : ∃ k, 3 ≤ k ∧ k < 64 ∧ σ.glob.pageSize = 2 ^ k
  pages : σ.glob.pageSize ∣ cap
  word : base + cap ≤ 2 ^ 64
  mapped : ∃ r ∈ σ.maps, r.1 ≤ base ∧ base + cap ≤ r.2
  known : ∀ b, base ≤ b → b < base + mallocParamsSize → ∃ v, σ.byte b = .known v

/-- The states of an mspace recreated in a buffer, with the live blocks. -/
inductive Reach (base cap ms : Nat) : State → List Nat → Prop
  | created {σ τ : State} {locked recreate : Nat} : Ready σ base cap → recreate ≠ 0 →
      createMspaceWithBase base cap locked recreate σ = .ok (ms, τ) → ms ≠ 0 →
      Reach base cap ms τ []
  | step {σ τ : State} {live live' : List Nat} {c : Call} {v : Nat} : Reach base cap ms σ live →
      perform ms live c σ = .ok ((v, live'), τ) → Reach base cap ms τ live'

end Mmdata.Malloc
