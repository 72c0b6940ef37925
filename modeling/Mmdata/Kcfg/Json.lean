import Mathlib.Data.List.TakeWhile

namespace Mmdata.Kcfg

/-- Characters, NUL among them. -/
abbrev Chars := List UInt8

inductive Json
  | null
  | bool (b : Bool)
  | number (n : Int)
  | string (s : Chars)
  | array (values : List Json)
  | object (members : List (Chars × Json))

/-- A string that ends at its first NUL. -/
structure CString where
  chars : Chars
  noNul : 0 ∉ chars

/-- The C string at the start of the characters. -/
def cStr (s : Chars) : CString where
  chars := s.takeWhile (· ≠ 0)
  noNul := by
    intro h
    have hp := List.mem_takeWhile_imp h
    simp at hp

def emptyName : CString := cStr []

/-- `getJsonFiledValue` and `addJsonMember`, which are declared here and defined elsewhere. -/
structure Accessors where
  getJsonFiledValue : Json → CString → Option Json
  addJsonMember : Json → CString → Json → Json
  get_self : ∀ json, getJsonFiledValue json emptyName = some json
  get_member : ∀ members name value, name.chars ≠ [] → (name.chars, value) ∈ members →
    (∀ value', (name.chars, value') ∈ members → value' = value) →
    getJsonFiledValue (.object members) name = some value
  add_array : ∀ values name value,
    addJsonMember (.array values) name value = .array (values ++ [value])
  add_object : ∀ members name value,
    addJsonMember (.object members) name value = .object (members ++ [(name.chars, value)])

end Mmdata.Kcfg
