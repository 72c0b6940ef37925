import Mathlib.Logic.Function.Basic
import Mmdata.Image.Meta

namespace Mmdata.Image

/-! Objects of `Allocator<T>`. All that is in one is its space: the address of an image, or 0. -/

/-- `Allocator(const Allocator&)`: `m_space` starts out null. -/
def copyConstruct (other : Nat) : Nat := if other ≠ 0 then other else 0

/-- `Allocator(const Allocator<T2>&)`. -/
def convertConstruct (other : Nat) : Nat := if other ≠ 0 then other else 0

/-- `operator=`. -/
def assign (self other : Nat) : Nat := if other ≠ 0 then other else self

/-- `swap`, the body of which is commented out. -/
def swap (alloc1 alloc2 : Nat) : Nat × Nat := (alloc1, alloc2)

/-- A handle: its space, and the construction that its value is meant to go back to. -/
structure Handle where
  space : Nat
  line : Nat

/-- A block, the space that `allocate` took it from, and whose value the handle had. -/
structure Lent where
  addr : Nat
  space : Nat
  line : Nat

/-- The handles by their names, the blocks that are allocated, and the next construction. -/
structure Handles where
  handle : Nat → Option Handle
  lent : List Lent
  next : Nat

def Handles.start : Handles := ⟨fun _ => none, [], 0⟩

inductive HandleOp
  | construct (b : Nat)
  | fromInfo (b space : Nat)
  | copy (b a : Nat)
  | convert (b a : Nat)
  | assign (b a : Nat)
  | swap (a b : Nat)
  | allocate (a addr : Nat)
  | deallocate (b addr : Nat)

def Handles.set (s : Handles) (b : Nat) (h : Handle) : Handles :=
  { s with handle := Function.update s.handle b (some h) }

/-- What the code does. A copied or assigned value is meant to be that of the source, and
swapped ones to change places. -/
def Handles.apply (s : Handles) : HandleOp → Handles
  | .construct b => { s.set b ⟨0, s.next⟩ with next := s.next + 1 }
  | .fromInfo b space => { s.set b ⟨space, s.next⟩ with next := s.next + 1 }
  | .copy b a =>
    match s.handle a with
    | none => s
    | some x => s.set b ⟨copyConstruct x.space, x.line⟩
  | .convert b a =>
    match s.handle a with
    | none => s
    | some x => s.set b ⟨convertConstruct x.space, x.line⟩
  | .assign b a =>
    match s.handle b, s.handle a with
    | some y, some x => s.set b ⟨Image.assign y.space x.space, x.line⟩
    | _, _ => s
  | .swap a b =>
    match s.handle a, s.handle b with
    | some x, some y =>
      (s.set a ⟨(Image.swap x.space y.space).1, y.line⟩).set b
        ⟨(Image.swap x.space y.space).2, x.line⟩
    | _, _ => s
  | .allocate a addr =>
    match s.handle a with
    | none => s
    | some x => { s with lent := ⟨addr, x.space, x.line⟩ :: s.lent }
  | .deallocate _ addr => { s with lent := s.lent.filter fun l => l.addr ≠ addr }

/-- `P` holds before each operation. -/
def Along (P : Handles → HandleOp → Prop) : List HandleOp → Handles → Prop
  | [], _ => True
  | op :: ops, s => P s op ∧ Along P ops (s.apply op)

/-- `alloc1 == alloc2`. -/
def Handles.Equal (s : Handles) (a b : Nat) : Prop :=
  ∀ x ∈ s.handle a, ∀ y ∈ s.handle b, x.space = y.space

/-- What an operation is for. A handle whose value a block was allocated with releases it to
the space it came from. -/
def Faithful (s : Handles) : HandleOp → Prop
  | .construct b => ∀ y ∈ ((s.apply (.construct b)).handle b), y.space = 0
  | .fromInfo b space => ∀ y ∈ ((s.apply (.fromInfo b space)).handle b), y.space = space
  | .copy b a => (s.apply (.copy b a)).Equal a b
  | .convert b a => (s.apply (.convert b a)).Equal a b
  | .assign b a => (s.apply (.assign b a)).Equal a b
  | .swap a b => ∀ x ∈ s.handle a, ∀ y ∈ s.handle b,
    (∀ x' ∈ (s.apply (.swap a b)).handle a, x'.space = y.space) ∧
      ∀ y' ∈ (s.apply (.swap a b)).handle b, y'.space = x.space
  | .allocate _ _ => True
  | .deallocate b addr => ∀ y ∈ s.handle b, ∀ l ∈ s.lent, l.addr = addr → l.line = y.line →
    y.space = l.space

/-- The null space is assigned only to handles that have it, and only handles of one space
are swapped. -/
def KeepsSpaces (s : Handles) : HandleOp → Prop
  | .assign b a => ∀ x ∈ s.handle a, ∀ y ∈ s.handle b, x.space = 0 → y.space = 0
  | .swap a b => ∀ x ∈ s.handle a, ∀ y ∈ s.handle b, x.space = y.space
  | _ => True

end Mmdata.Image
