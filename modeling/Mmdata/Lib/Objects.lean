import Mathlib.Data.List.Forall2

namespace Mmdata.Lib

/-! What an allocator is for: its client has objects, byte strings that change only as it asks. -/

/-- What a client asks of its objects, which it knows by their position. -/
inductive Demand (β : Type)
  | keep
  | allocate (n : Nat) (clear : Bool)
  | allocateEach (ns : List Nat) (clear : Bool) (into : Option Nat)
  | release (k : Nat)
  | resize (k n : Nat)
  | write (k i : Nat) (b : β)

/-- The object that a demand is about. -/
def Demand.target {β : Type} : Demand β → Option Nat
  | .keep => none
  | .allocate _ _ => none
  | .allocateEach _ _ into => into
  | .release k => some k
  | .resize k _ => some k
  | .write k _ _ => some k

/-- Demands that a store may refuse. -/
def Demand.Refusable {β : Type} : Demand β → Prop
  | .allocate _ _ => True
  | .allocateEach _ _ _ => True
  | .resize _ _ => True
  | _ => False

/-- What may become of the objects. New ones come first, and an object for the addresses of
others is either one of the client's or new. -/
inductive Becomes {β : Type} (zero : β) : Demand β → List (List β) → List (List β) → Prop
  | kept {os : List (List β)} : Becomes zero .keep os os
  | refused {d : Demand β} {os : List (List β)} : d.Refusable → Becomes zero d os os
  | allocated {n : Nat} {clear : Bool} {x : List β} {os : List (List β)} : n ≤ x.length →
      (clear = true → ∀ y ∈ x.take n, y = zero) → Becomes zero (.allocate n clear) os (x :: os)
  | allocatedEach {ns : List Nat} {clear : Bool} {xs os : List (List β)} {x : List β} :
      List.Forall₂ (fun n x => n ≤ x.length) ns xs →
      (clear = true → ∀ x ∈ xs, ∀ y ∈ x, y = zero) → 8 * ns.length ≤ x.length →
      Becomes zero (.allocateEach ns clear none) os (xs ++ x :: os)
  | allocatedInto {ns : List Nat} {clear : Bool} {k : Nat} {xs os : List (List β)} {x x' : List β} :
      List.Forall₂ (fun n x => n ≤ x.length) ns xs →
      (clear = true → ∀ x ∈ xs, ∀ y ∈ x, y = zero) → os[k]? = some x → 8 * ns.length ≤ x.length →
      x'.length = x.length → Becomes zero (.allocateEach ns clear (some k)) os (xs ++ os.set k x')
  | released {k : Nat} {os : List (List β)} : Becomes zero (.release k) os (os.eraseIdx k)
  | resized {k n : Nat} {x x' : List β} {os : List (List β)} : os[k]? = some x → n ≤ x'.length →
      x'.take (min x.length n) = x.take (min x.length n) →
      Becomes zero (.resize k n) os (os.set k x')
  | written {k i : Nat} {b : β} {os : List (List β)} :
      Becomes zero (.write k i b) os (os.modify k fun x => x.set i b)

/-- What may become of the objects in a row of demands. -/
inductive BecomesAll {β : Type} (zero : β) :
    List (Demand β) → List (List β) → List (List β) → Prop
  | nil {os : List (List β)} : BecomesAll zero [] os os
  | cons {d : Demand β} {ds : List (Demand β)} {os os' os'' : List (List β)} :
      Becomes zero d os os' → BecomesAll zero ds os' os'' → BecomesAll zero (d :: ds) os os''

section

variable {β : Type} {zero : β} {d : Demand β} {ds : List (Demand β)} {os os' : List (List β)}

/-- While nothing is asked about the objects there are, they all stay, the oldest last. -/
theorem BecomesAll.suffix (B : BecomesAll zero ds os os') (ht : ∀ d ∈ ds, d.target = none) :
    os <:+ os' := by
  induction B with
  | nil => exact List.suffix_rfl
  | @cons d ds os os' os'' h _ ih =>
    refine List.IsSuffix.trans ?_ (ih fun e he => ht e (List.mem_cons_of_mem _ he))
    have hd := ht d List.mem_cons_self
    cases h with
    | kept => exact List.suffix_rfl
    | refused _ => exact List.suffix_rfl
    | allocated _ _ => exact List.suffix_cons _ _
    | allocatedEach _ _ _ => exact List.IsSuffix.trans (List.suffix_cons _ _) (List.suffix_append _ _)
    | allocatedInto => contradiction
    | released => contradiction
    | resized => contradiction
    | written => contradiction

end

end Mmdata.Lib
