import Mmdata.Image.FileData

namespace Mmdata.Image
open Lib Malloc

/-- A buffer for an image: aligned to 8 bytes, mapped, in a process with pages of 4096 bytes. -/
structure Buf (σ : State) (buf size : Nat) : Prop where
  align : buf % 8 = 0
  page : σ.glob.pageSize = 4096
  word : buf + size ≤ 2 ^ 64
  mapped : ∃ r ∈ σ.maps, r.1 ≤ buf ∧ buf + size ≤ r.2

/-- The bytes of an image that are not for the program to write: the first two members
of `Meta`, and the mspace. -/
def Reserved (buf size a : Nat) : Prop :=
  (buf ≤ a ∧ a < rootObject buf) ∨ (buf + allocatorMetaSize ≤ a ∧ a < buf + size)

/-- What a program does that holds the blocks `live` of an image: it calls the allocator,
writes to its blocks, and changes other memory, the objects in `Meta` among it. -/
inductive Use (libc : Libc) (buf size : Nat) : State × List Nat → State × List Nat → Prop
  | allocate {σ τ : State} {live : List Nat} {n count : Nat} {v : Option Nat} :
      allocate libc buf n count σ = .ok (v, τ) → Use libc buf size (σ, live) (τ, v.toList ++ live)
  | realloc {σ τ : State} {live : List Nat} {k p bytes : Nat} {v : Option Nat} :
      live[k]? = some p → realloc buf p bytes σ = .ok (v, τ) →
      Use libc buf size (σ, live) (τ, v.elim live (live.set k ·))
  | deallocate {σ τ : State} {live : List Nat} {k p : Nat} : live[k]? = some p →
      deallocatePtr libc buf p σ = .ok ((), τ) → Use libc buf size (σ, live) (τ, live.eraseIdx k)
  | write {σ : State} {live : List Nat} {p i u : Nat} {b : UInt8} : p ∈ live →
      result (mspaceUsableSize p) σ = some u → i < u →
      Use libc buf size (σ, live) (σ.put 1 (p + i) b.toNat, live)
  | elsewhere {σ τ : State} {live : List Nat} : Frame (fun a => ¬ Reserved buf size a) σ τ →
      Use libc buf size (σ, live) (τ, live)

/-- A run of uses. -/
def Uses (libc : Libc) (buf size : Nat) : State × List Nat → State × List Nat → Prop :=
  Relation.ReflTransGen (Use libc buf size)

/-- The constructors of the objects of an image use the image, and hold the blocks
`held` in the end. -/
def Constructs (libc : Libc) (K : Objects) (held : State → List Nat) (buf size : Nat) : Prop :=
  ∀ σ υ τ, K.table (namingTable buf) buf σ = .ok ((), υ) →
    K.root (rootObject buf) buf υ = .ok ((), τ) → Uses libc buf size (σ, []) (τ, held τ)

/-- The constructor of the naming table uses the image, and holds the blocks `held` in the
end. -/
def TableConstructs (libc : Libc) (K : Objects) (held : State → List Nat) (buf size : Nat) : Prop :=
  ∀ σ τ, K.table (namingTable buf) buf σ = .ok ((), τ) → Uses libc buf size (σ, []) (τ, held τ)

/-- The states of an image that an allocator is attached to, with the blocks obtained: what
`CreateAllocator` leaves, if there is an mspace, and what the uses of the image lead to. The
process has pages of any size, and nothing mapped on the first 4096 bytes. -/
inductive Attached (libc : Libc) (K : Objects) (held : State → List Nat) (buf : Nat)
    (memsize : Int) : State → List Nat → Prop
  | created {σ τ : State} {d d' : MMData} {k ms : Nat} : buf ≠ 0 → memsize < 2 ^ 63 →
      buf % 8 = 0 → (buf : Int) + memsize ≤ 2 ^ 64 → 12 ≤ k → σ.glob.pageSize = 2 ^ k →
      (∃ r ∈ σ.maps, r.1 ≤ buf ∧ (buf : Int) + memsize ≤ r.2) → (∀ m ∈ σ.maps, 4096 ≤ m.1) →
      createAllocator K d buf memsize σ = .ok ((0, d'), τ) →
      result (getMspace buf) τ = some ms → ms ≠ 0 → Attached libc K held buf memsize τ (held τ)
  | use {σ τ : State} {live live' : List Nat} : Attached libc K held buf memsize σ live →
      Use libc buf memsize.toNat (σ, live) (τ, live') → Attached libc K held buf memsize τ live'

/-- The states of an image in a buffer, with its mspace and the live blocks, while
clients call the allocator. -/
inductive InUse (K : Objects) (buf : Nat) (memsize : Int) : Nat → State → List Nat → Prop
  | created {σ τ : State} {d d' : MMData} {ms : Nat} : memsize < 2 ^ 63 →
      Buf σ buf memsize.toNat → createAllocator K d buf memsize σ = .ok ((0, d'), τ) →
      result (getMspace buf) τ = some ms → ms ≠ 0 → InUse K buf memsize ms τ []
  | step {σ τ : State} {live live' : List Nat} {ms v : Nat} {c : Call} :
      InUse K buf memsize ms σ live → perform ms live c σ = .ok ((v, live'), τ) →
      InUse K buf memsize ms τ live'

/-- The states of an image as `InUse` has them, in a process with pages of any size. -/
inductive Serving (K : Objects) (buf : Nat) (memsize : Int) (ms : Nat) : State → List Nat → Prop
  | created {σ τ : State} {d d' : MMData} {k : Nat} : memsize < 2 ^ 63 → buf % 8 = 0 →
      (buf : Int) + memsize ≤ 2 ^ 64 → 12 ≤ k → σ.glob.pageSize = 2 ^ k →
      (∃ r ∈ σ.maps, r.1 ≤ buf ∧ (buf : Int) + memsize ≤ r.2) →
      createAllocator K d buf memsize σ = .ok ((0, d'), τ) →
      result (getMspace buf) τ = some ms → ms ≠ 0 → Serving K buf memsize ms τ []
  | step {σ τ : State} {live live' : List Nat} {v : Nat} {c : Call} :
      Serving K buf memsize ms σ live → perform ms live c σ = .ok ((v, live'), τ) →
      Serving K buf memsize ms τ live'

/-- The bytes of a root object. -/
def InRoot (buf sizeT a : Nat) : Prop := rootObject buf ≤ a ∧ a < rootObject buf + sizeT

/-- A run of calls with their results, while the program writes to the root object. -/
inductive Writing (buf sizeT ms : Nat) :
    State → List Nat → List (Call × Nat) → State → List Nat → Prop
  | done {σ : State} {live : List Nat} : Writing buf sizeT ms σ live [] σ live
  | write {σ υ τ : State} {live live' : List Nat} {cs : List (Call × Nat)} :
      Frame (InRoot buf sizeT) σ υ → Writing buf sizeT ms υ live cs τ live' →
      Writing buf sizeT ms σ live cs τ live'
  | call {σ υ τ : State} {live live₁ live' : List Nat} {c : Call} {v : Nat}
      {cs : List (Call × Nat)} : perform ms live c σ = .ok ((v, live₁), υ) →
      Writing buf sizeT ms υ live₁ cs τ live' → Writing buf sizeT ms σ live ((c, v) :: cs) τ live'

/-- The result depends on the bytes in `S` only. -/
def LooksAt {α : Type} (S : Nat → Prop) (x : Code α) : Prop :=
  ∀ σ τ, Frame (fun a => ¬ S a) σ τ → result x τ = result x σ

/-- The bytes of the naming table, and those that the allocator keeps its records in. -/
def Bookkeeping (buf memsize n a : Nat) : Prop :=
  Reserved buf memsize a ∨ namingTable buf ≤ a ∧ a < namingTable buf + n

/-- A root object of `sizeT` bytes shares none with the naming table of `n` bytes or with what
starts behind `Meta`, is in the buffer, and can be written to without a call or a lookup of a
name noticing. -/
structure RootApart (K : Objects) (buf : Nat) (memsize : Int) (sizeT n : Nat) : Prop where
  table : ∀ a, InRoot buf sizeT a → ¬ (namingTable buf ≤ a ∧ a < namingTable buf + n)
  mspace : ∀ a, InRoot buf sizeT a → a < buf + allocatorMetaSize
  inside : ∀ a, InRoot buf sizeT a → buf ≤ a ∧ (a : Int) < buf + memsize
  unnoticed : ∀ ms σ live cs τ' live', Serving K buf memsize ms σ live →
    Writing buf sizeT ms σ live cs τ' live' →
    ∃ τ, performAll ms (cs.map Prod.fst) live σ = .ok ((cs.map Prod.snd, live'), τ) ∧
      ∀ find : Code Nat, LooksAt (Bookkeeping buf memsize.toNat n) find →
        result find τ' = result find τ

/-- A file that has just been made. -/
def newFile : File := ⟨0, fun _ => .known 0⟩

/-- The size of a page that `create_mspace_with_base` goes by in a file made `n` bytes long, in
a process with pages of 4096 bytes: the one that the file holds where the parameters of an
image are, unless that is 0. -/
def pageIn (f : Option File) (n : Nat) : Option Nat :=
  (loadLE ((f.getD newFile).resize n).byte (paramPageSize allocatorMetaSize) 8).map
    fun v => if v = 0 then 4096 else v

/-- The states of an `MMFileData` whose file is a new image, with the live blocks: what
`LoadRootWriteObject` leaves in a file with the size `page` of a page, and what the uses of the
image lead to. The file is mapped inside the address space, and nothing is mapped on the first
page. -/
inductive Written (libc : Libc) (K : Objects) (held : State → List Nat) :
    Option Nat → MMFileData → World → List Nat → Prop
  | created {d d' : MMFileData} {w w' : World} {r : Reply} {p : Nat} : d.file_size_ < 2 ^ 63 →
      d.databuf_.buf = 0 → w.glob.pageSize = 4096 → (∀ m ∈ w.maps, 4096 ≤ m.1) →
      d.loadRootWriteObject K r w = .ok ((p, d'), w') → p ≠ 0 →
      d'.databuf_.buf + d'.databuf_.size ≤ 2 ^ 64 →
      Written libc K held (pageIn w.glob.file (toSizeT d.file_size_)) d' w'
        (held ⟨w'.byte, w'.maps, w'.glob.toGlobals⟩)
  | use {page : Option Nat} {d : MMFileData} {w : World} {τ : State} {live live' : List Nat} :
      Written libc K held page d w live →
      Use libc d.databuf_.buf d.databuf_.size (⟨w.byte, w.maps, w.glob.toGlobals⟩, live)
        (τ, live') →
      Written libc K held page d ⟨τ.byte, τ.maps, { w.glob with toGlobals := τ.glob }⟩ live'

end Mmdata.Image
