import Mmdata.Kcfg.LexicalCast
import Mmdata.Lib.Associative

namespace Mmdata.Kcfg
open Lib

/-- How values of a type are read and written: the value that `SHMConstructor` makes,
`Parse` into a value that is there, and `Serialize`. And when two values are equal. -/
structure Codec (V : Type) where
  construct : V
  parse : Json → CString → V → Bool × V
  serialize : Json → CString → V → Json
  same : V → V → Prop

section

variable {K V M : Type}

/-! `SHMString`. -/

def parseString (A : Accessors) (json : Json) (name : CString) (v : Chars) : Bool × Chars :=
  match A.getJsonFiledValue json name with
  | some (.string s) => (true, s)
  | _ => (false, v)

def serializeString (A : Accessors) (json : Json) (name : CString) (v : Chars) : Json :=
  A.addJsonMember json name (.string v)

/-! The maps. -/

/-- The loop of `Parse` over the members of an object. A key that cannot be cast leaves
the pairs before it. -/
def parseMembers (B : Associative M K V) (ofText : Chars → Option K) (C : Codec V) :
    List (Chars × Json) → M → Bool × M
  | [], v => (true, v)
  | (name, value) :: members, v =>
    match ofText name with
    | none => (false, v)
    | some k =>
      match C.parse value emptyName C.construct with
      | (true, x) => parseMembers B ofText C members (B.insert v k x)
      | (false, _) => (false, B.empty)

def parseObject (A : Accessors) (B : Associative M K V) (ofText : Chars → Option K) (C : Codec V)
    (json : Json) (name : CString) (v : M) : Bool × M :=
  match A.getJsonFiledValue json name with
  | some (.object members) => parseMembers B ofText C members v
  | _ => (false, v)

/-- The loop of `Serialize` over the pairs. No result is a key without a text. -/
def serializeEntries (toText : K → Option Chars) (C : Codec V) :
    List (K × V) → Json → Option Json
  | [], json => some json
  | (k, x) :: entries, json =>
    match toText k with
    | none => none
    | some t => serializeEntries toText C entries (C.serialize json (cStr t) x)

def serializeObject (A : Accessors) (toText : K → Option Chars) (C : Codec V)
    (entries : List (K × V)) (json : Json) (name : CString) : Json :=
  match serializeEntries toText C entries (.object []) with
  | none => json
  | some value => A.addJsonMember json name value

/-- `Parse` of an `unordered_map`. -/
def parseHashMap [DecidableEq K] (A : Accessors) (X : LexicalCast K) (C : Codec V) :
    Json → CString → HashMap K V → Bool × HashMap K V :=
  parseObject A (HashMap.associative K V) X.ofText C

def serializeHashMap (A : Accessors) (X : LexicalCast K) (C : Codec V) (json : Json)
    (name : CString) (v : HashMap K V) : Json :=
  serializeObject A X.toText C v.entries json name

/-- `Parse` of an `unordered_map` with keys that are strings, which are taken as they are. -/
def parseStringHashMap (A : Accessors) (C : Codec V) :
    Json → CString → HashMap Chars V → Bool × HashMap Chars V :=
  parseObject A (HashMap.associative Chars V) some C

/-- The keys go out as C strings. -/
def serializeStringHashMap (A : Accessors) (C : Codec V) (json : Json) (name : CString)
    (v : HashMap Chars V) : Json :=
  serializeObject A some C v.entries json name

/-- `Parse` of a `map`. -/
def parseMap [LinearOrder K] (A : Accessors) (X : LexicalCast K) (C : Codec V) :
    Json → CString → Map K V → Bool × Map K V :=
  parseObject A (Map.associative K V) X.ofText C

def serializeMap [LinearOrder K] (A : Accessors) (X : LexicalCast K) (C : Codec V) (json : Json)
    (name : CString) (v : Map K V) : Json :=
  serializeObject A X.toText C v.entries json name

/-! The vector. -/

def parseValues (C : Codec V) : List Json → List V → Bool × List V
  | [], v => (true, v)
  | value :: values, v =>
    match C.parse value emptyName C.construct with
    | (true, x) => parseValues C values (v ++ [x])
    | (false, _) => (false, [])

def parseVector (A : Accessors) (C : Codec V) (json : Json) (name : CString) (v : List V) :
    Bool × List V :=
  match A.getJsonFiledValue json name with
  | some (.array values) => parseValues C values v
  | _ => (false, v)

def serializeVector (A : Accessors) (C : Codec V) (json : Json) (name : CString) (v : List V) :
    Json :=
  A.addJsonMember json name (v.foldl (fun value x => C.serialize value emptyName x) (.array []))

/-! Containers are elements of containers. -/

/-- The same keys, bound to equal values. -/
def SameEntries (same : V → V → Prop) (l l' : List (K × V)) : Prop :=
  (∀ e ∈ l, ∃ e' ∈ l', e'.1 = e.1 ∧ same e.2 e'.2) ∧
  ∀ e' ∈ l', ∃ e ∈ l, e'.1 = e.1 ∧ same e.2 e'.2

def stringCodec (A : Accessors) : Codec Chars where
  construct := []
  parse := parseString A
  serialize := serializeString A
  same := Eq

def hashMapCodec [DecidableEq K] (A : Accessors) (X : LexicalCast K) (C : Codec V) :
    Codec (HashMap K V) where
  construct := ⟨[], HashMap.unique_nil⟩
  parse := parseHashMap A X C
  serialize := serializeHashMap A X C
  same := fun v w => SameEntries C.same v.entries w.entries

def stringHashMapCodec (A : Accessors) (C : Codec V) : Codec (HashMap Chars V) where
  construct := ⟨[], HashMap.unique_nil⟩
  parse := parseStringHashMap A C
  serialize := serializeStringHashMap A C
  same := fun v w => SameEntries C.same v.entries w.entries

def mapCodec [LinearOrder K] (A : Accessors) (X : LexicalCast K) (C : Codec V) :
    Codec (Map K V) where
  construct := ⟨[], Map.sorted_nil⟩
  parse := parseMap A X C
  serialize := serializeMap A X C
  same := fun v w => SameEntries C.same v.entries w.entries

def vectorCodec (A : Accessors) (C : Codec V) : Codec (List V) where
  construct := []
  parse := parseVector A C
  serialize := serializeVector A C
  same := List.Forall₂ C.same

end

end Mmdata.Kcfg
