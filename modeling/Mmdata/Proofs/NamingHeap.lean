import Mmdata.Proofs.Allocating
import Mmdata.Proofs.NamingRegistry

namespace Mmdata.Naming
open Lib Malloc Image Proofs

/-- The addresses of the blocks in the image at `buf`. -/
def addrsIn (buf : Nat) (blocks : Multiset Block) : Multiset Nat :=
  (blocks.filter fun b => b.space = buf).map Block.addr

/-- The blocks that the store has in the image at `buf` are live blocks of its mspace, and
large enough. The blocks elsewhere are clear of the buffer. -/
structure Backed (buf size : Nat) (σ : State) (live : List Nat) (s : Store) : Prop where
  buffer : (buf, size) ∈ s.buffers
  blocks : addrsIn buf s.live ≤ live
  sizes : ∀ b ∈ s.live, b.space = buf → b.size ≤ usableSize σ b.addr
  others : ∀ b ∈ s.live, b.space ≠ buf → Apart buf size b.addr b.size

/-- What a call leaves. -/
def left {α : Type} (x : NamingM α) (s : Store) : Store :=
  match x s with
  | .ok _ s' => s'
  | .error _ s' => s'

/-- What an answer that an allocator may give comes to: a new block, or `bad_alloc`. -/
def taken (buf n : Nat) (s : Store) : Option Nat → EStateM.Result Thrown Store Block
  | none => .error .badAlloc s
  | some p => .ok ⟨buf, p, n⟩ (s.add {⟨buf, p, n⟩})

section

variable {libc : Libc} {σ τ : State} {buf cap size m lo hi n count p q j k v : Nat} {h h' : Heap}
  {live live' : List Nat} {c : Call} {s s' : Store} {b : Block}

theorem mem_addrsIn {m : Multiset Block} (hb : b ∈ m) (hspace : b.space = buf) :
    b.addr ∈ addrsIn buf m :=
  Multiset.mem_map_of_mem _ (Multiset.mem_filter.mpr ⟨hb, hspace⟩)

theorem Backed.mem (B : Backed buf size σ live s) (hb : b ∈ s.live) (hspace : b.space = buf) :
    b.addr ∈ live :=
  Multiset.mem_coe.mp (Multiset.mem_of_le B.blocks (mem_addrsIn hb hspace))

theorem Backed.keep (B : Backed buf size σ live s)
    (hs : ∀ p ∈ live, usableSize τ p = usableSize σ p) : Backed buf size τ live s := by
  refine ⟨B.buffer, B.blocks, fun b hb hspace => ?_, B.others⟩
  rw [hs _ (B.mem hb hspace)]
  exact B.sizes b hb hspace

end

end Mmdata.Naming
