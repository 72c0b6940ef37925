import Mmdata.Image.Meta

namespace Mmdata.Image
open Lib Malloc

/-- What a program asks of an image that it has open. -/
inductive ImageOp
  | call (c : Call)
  | root (i : Nat) (b : UInt8)
  | used
deriving DecidableEq

/-- The result of an operation, and the live blocks after it. Programs write to the root object
inside the space that `Meta` has for it. -/
def operate (buf ms : Nat) (live : List Nat) : ImageOp → Code (Nat × List Nat)
  | .call c => perform ms live c
  | .root i b =>
    if i < maxRootStructSize then do
      store 1 (rootObject buf + i) b.toNat
      return (0, live)
    else return (0, live)
  | .used => do
    let n ← usedSpace buf
    return (n, live)

/-- An open image, its mspace and the live blocks. `alone` is the process as it is if there
never was another image. -/
structure Opened where
  buf : Nat
  size : Nat
  ms : Nat
  live : List Nat
  alone : State

/-- The images that are open, by their names. -/
abbrev Images := Nat → Option Opened

/-- The byte is not in a buffer. -/
def OutOf (buf size a : Nat) : Prop := a < buf ∨ buf + size ≤ a

/-- Two stretches of memory share no byte. -/
def Separate (a n b m : Nat) : Prop := a + n ≤ b ∨ b + m ≤ a

instance (a n b m : Nat) : Decidable (Separate a n b m) := inferInstanceAs (Decidable (_ ∨ _))

/-- Memory is mapped with the contents `f`. -/
def mapAt (a n : Nat) (f : Nat → Cell) (σ : State) : State :=
  ⟨fun b => if a ≤ b ∧ b < a + n then f b else σ.byte b, (a, a + n) :: σ.maps, σ.glob⟩

/-- Memory is given back. -/
def unmapAt (a n : Nat) (σ : State) : State := { σ with maps := σ.maps.filter (· ≠ (a, a + n)) }

/-- The images that are still open once the memory is given back. -/
def Images.without (is : Images) (a n : Nat) : Images := fun name =>
  (is name).filter fun i => decide (Separate i.buf i.size a n)

/-- The process in which nothing is mapped but a buffer with what it holds now. -/
def aloneWith (σ : State) (buf size : Nat) : State :=
  ⟨σ.byte, [(buf, buf + size)], ⟨0, σ.glob.pageSize⟩⟩

/-- Where an image can be made: aligned to 8 bytes, mapped, and apart from the open images. -/
structure Site (σ : State) (is : Images) (buf size : Nat) : Prop where
  nonnull : buf ≠ 0
  align : buf % 8 = 0
  small : size < 2 ^ 63
  word : buf + size ≤ 2 ^ 64
  mapped : ∃ r ∈ σ.maps, r.1 ≤ buf ∧ buf + size ≤ r.2
  apart : ∀ name i, is name = some i → Separate i.buf i.size buf size

/-- Each byte from `a` on becomes what `f` makes of it. -/
def remade (f : Nat → Cell → Cell) (a n : Nat) (σ : State) : State where
  byte b := if a ≤ b ∧ b < a + n then f b (σ.byte b) else σ.byte b
  maps := σ.maps
  glob := σ.glob

/-- The constructor of the naming table makes each of its bytes what depends on its own address,
the space and the byte only. -/
def TableFixed (K : Objects) (buf : Nat) : Prop :=
  ∀ space, ∃ f : Nat → Cell → Cell, ∀ σ : State,
    σ.mapped (namingTable buf) maxNamingTableSize = true →
    K.table (namingTable buf) space σ =
      .ok ((), remade f (namingTable buf) maxNamingTableSize σ)

end Mmdata.Image
