import Mmdata.Kcfg.Codec

namespace Mmdata.Kcfg
open Lib

/-- The value goes out as one JSON value, which the type's own `Parse` reads back. -/
def Inverts {V : Type} (A : Accessors) (C : Codec V) (v : V) : Prop :=
  ∃ value, (∀ json name, C.serialize json name v = A.addJsonMember json name value) ∧
    ∃ w, C.parse value emptyName C.construct = (true, w) ∧ C.same v w

/-- `Serialize` into an empty object and `Parse` of the field into a new value. -/
def RoundTrips {V : Type} (C : Codec V) (name : CString) (v : V) : Prop :=
  ∃ w, C.parse (C.serialize (.object []) name v) name C.construct = (true, w) ∧ C.same v w

/-- No text of a key has a NUL. -/
def NulFree {K V : Type} (toText : K → Option Chars) (entries : List (K × V)) : Prop :=
  ∀ e ∈ entries, ∀ t, toText e.1 = some t → 0 ∉ t

/-- A member of an object that a pair was written as. -/
def Encodes {K V : Type} (toText : K → Option Chars) (C : Codec V) (e : K × V)
    (m : Chars × Json) : Prop :=
  (∃ t, toText e.1 = some t ∧ m.1 = (cStr t).chars) ∧
    ∃ w, C.parse m.2 emptyName C.construct = (true, w) ∧ C.same e.2 w

section

variable {K V M : Type} {A : Accessors} {X : LexicalCast K} {C : Codec V} {name : CString}
  {value : Json} {B : Associative M K V}

theorem cStr_chars {t : Chars} (h : 0 ∉ t) : (cStr t).chars = t := by
  apply List.takeWhile_eq_self_iff.mpr
  intro c hc
  have hne : c ≠ 0 := by
    intro h0
    exact h (h0 ▸ hc)
  simpa using hne

/-- The only field of an object. -/
theorem get_added (hn : name.chars ≠ []) :
    A.getJsonFiledValue (A.addJsonMember (.object []) name value) name = some value := by
  rw [A.add_object, List.nil_append]
  apply A.get_member _ _ _ hn (List.mem_singleton.mpr rfl)
  intro value' h
  exact (Prod.mk.inj (List.mem_singleton.mp h)).2

/-- `Serialize` of pairs writes a member for each. -/
theorem serializeEntries_encodes {entries : List (K × V)}
    (hv : ∀ e ∈ entries, Inverts A C e.2) (members : List (Chars × Json)) :
    ∃ added, serializeEntries X.toText C entries (.object members) =
      some (.object (members ++ added)) ∧ List.Forall₂ (Encodes X.toText C) entries added := by
  induction entries generalizing members with
  | nil => exact ⟨[], by rw [List.append_nil]; rfl, .nil⟩
  | cons e entries ih =>
    obtain ⟨k, x⟩ := e
    obtain ⟨value, hser, hparse⟩ := hv (k, x) List.mem_cons_self
    obtain ⟨t, ht, _⟩ := X.back k
    obtain ⟨added, hadded, hall⟩ := ih (fun e he => hv e (List.mem_cons_of_mem _ he))
      (members ++ [((cStr t).chars, value)])
    refine ⟨((cStr t).chars, value) :: added, ?_, .cons ⟨⟨t, ht, rfl⟩, hparse⟩ hall⟩
    simp only [serializeEntries, ht]
    rw [hser, A.add_object, hadded, List.append_assoc]
    rfl

/-- `Parse` of the members that pairs were written as, when their keys come back. -/
theorem parseMembers_encoded {entries : List (K × V)} {members : List (Chars × Json)} {m : M}
    (hall : List.Forall₂ (Encodes X.toText C) entries members) (hnul : NulFree X.toText entries)
    (hunique : entries.Pairwise fun e f => e.1 ≠ f.1)
    (hnew : ∀ e ∈ entries, ∀ f ∈ B.entries m, f.1 ≠ e.1) :
    ∃ m' read, parseMembers B X.ofText C members m = (true, m') ∧
      List.Forall₂ (fun e e' => e'.1 = e.1 ∧ C.same e.2 e'.2) entries read ∧
      ∀ e, e ∈ B.entries m' ↔ e ∈ B.entries m ∨ e ∈ read := by
  induction hall generalizing m with
  | nil => exact ⟨m, [], rfl, .nil, by simp⟩
  | @cons e mem entries members henc _ ih =>
    obtain ⟨⟨t, ht, hname⟩, w, hparse, hsame⟩ := henc
    obtain ⟨hdiff, hunique'⟩ := List.pairwise_cons.mp hunique
    obtain ⟨t', ht', hback⟩ := X.back e.1
    cases ht.symm.trans ht'
    have h0 : 0 ∉ t := hnul e List.mem_cons_self t ht
    have hcast : X.ofText mem.1 = some e.1 := by
      rw [hname, cStr_chars h0]
      exact hback
    have hfree : ∀ f ∈ B.entries m, f.1 ≠ e.1 := hnew e List.mem_cons_self
    have hnew' : ∀ f ∈ entries, ∀ g ∈ B.entries (B.insert m e.1 w), g.1 ≠ f.1 := by
      intro f hf g hg
      cases (B.mem_insert m e.1 w g).mp hg with
      | inl hg => exact hnew f (List.mem_cons_of_mem _ hf) g hg
      | inr hg =>
        rw [hg.1]
        exact hdiff f hf
    have hnul' : NulFree X.toText entries := fun f hf => hnul f (List.mem_cons_of_mem _ hf)
    obtain ⟨m', read, hrun, hread, hmem⟩ := ih hnul' hunique' hnew'
    refine ⟨m', (e.1, w) :: read, ?_, .cons ⟨rfl, hsame⟩ hread, ?_⟩
    · obtain ⟨n, value⟩ := mem
      simp only at hcast hparse
      simp only [parseMembers, hcast, hparse]
      exact hrun
    · intro f
      rw [hmem, B.mem_insert, List.mem_cons]
      constructor
      · rintro ((hf | hf) | hf)
        · exact Or.inl hf
        · exact Or.inr (Or.inl hf.1)
        · exact Or.inr (Or.inr hf)
      · rintro (hf | hf | hf)
        · exact Or.inl (Or.inl hf)
        · exact Or.inl (Or.inr ⟨hf, hfree⟩)
        · exact Or.inr hf

/-- Every pair that `Parse` takes in has a key cast from a name. -/
theorem key_of_parseMembers {ofText : Chars → Option K} {members : List (Chars × Json)} {m m' : M}
    (h : parseMembers B ofText C members m = (true, m')) {e : K × V} (he : e ∈ B.entries m') :
    e ∈ B.entries m ∨ ∃ mem ∈ members, ofText mem.1 = some e.1 := by
  induction members generalizing m with
  | nil =>
    cases h
    exact Or.inl he
  | cons mem members ih =>
    obtain ⟨n, value⟩ := mem
    simp only [parseMembers] at h
    cases hn : ofText n with
    | none =>
      rw [hn] at h
      cases h
    | some k =>
      rw [hn] at h
      simp only at h
      cases hp : C.parse value emptyName C.construct with
      | mk done x =>
        rw [hp] at h
        cases done with
        | false => cases h
        | true =>
          simp only at h
          cases ih h with
          | inl hin =>
            cases (B.mem_insert m k x e).mp hin with
            | inl hin => exact Or.inl hin
            | inr hin =>
              refine Or.inr ⟨(n, value), List.mem_cons_self, ?_⟩
              rw [hin.1]
              exact hn
          | inr hin =>
            obtain ⟨mem, hmem, hcast⟩ := hin
            exact Or.inr ⟨mem, List.mem_cons_of_mem _ hmem, hcast⟩

theorem sameEntries_of_read {same : V → V → Prop} {l read l' : List (K × V)}
    (h : List.Forall₂ (fun e e' => e'.1 = e.1 ∧ same e.2 e'.2) l read)
    (hmem : ∀ e, e ∈ l' ↔ e ∈ read) : SameEntries same l l' := by
  constructor
  · intro e he
    obtain ⟨e', he', hee⟩ := opposite_right h he
    exact ⟨e', (hmem e').mpr he', hee⟩
  · intro e' he'
    exact opposite_left h ((hmem e').mp he')

/-- An object with pairs that go out and come back: the whole comes back exactly if no key
has a NUL in its text. -/
theorem object_inverts {v : M} (hv : ∀ e ∈ B.entries v, Inverts A C e.2) :
    ∃ value, (∀ json name, serializeObject A X.toText C (B.entries v) json name =
        A.addJsonMember json name value) ∧
      ((∃ w, parseObject A B X.ofText C value emptyName B.empty = (true, w) ∧
        SameEntries C.same (B.entries v) (B.entries w)) ↔ NulFree X.toText (B.entries v)) := by
  obtain ⟨members, hser, hall⟩ := serializeEntries_encodes (X := X) hv []
  refine ⟨.object members, ?_, ?_⟩
  · intro json name
    simp only [serializeObject, hser, List.nil_append]
  · have hself : ∀ w, parseObject A B X.ofText C (.object members) emptyName w =
        parseMembers B X.ofText C members w := by
      intro w
      simp only [parseObject, A.get_self]
    rw [hself]
    constructor
    · rintro ⟨w, hrun, hsame⟩ e he t ht h0
      obtain ⟨e', he', hkey, _⟩ := hsame.1 e he
      cases key_of_parseMembers hrun he' with
      | inl hin =>
        rw [B.entries_empty] at hin
        cases hin
      | inr hin =>
        obtain ⟨mem, hmem, hcast⟩ := hin
        obtain ⟨f, _, ⟨t', _, hname⟩, _⟩ := opposite_left hall hmem
        rw [hkey] at hcast
        have hbad : 0 ∈ mem.1 := X.nul e.1 t mem.1 ht h0 hcast
        rw [hname] at hbad
        exact (cStr t').noNul hbad
    · intro hnul
      have hnew : ∀ e ∈ B.entries v, ∀ f ∈ B.entries B.empty, f.1 ≠ e.1 := by
        intro e _ f hf
        rw [B.entries_empty] at hf
        cases hf
      obtain ⟨w, read, hrun, hread, hmem⟩ := parseMembers_encoded hall hnul (B.unique v) hnew
      refine ⟨w, hrun, sameEntries_of_read hread ?_⟩
      intro e
      rw [hmem, B.entries_empty]
      simp

/-- An array with elements that go out and come back comes back. -/
theorem serializeValues_encodes {v : List V} (hv : ∀ x ∈ v, Inverts A C x) (values : List Json) :
    ∃ added, v.foldl (fun value x => C.serialize value emptyName x) (.array values) =
        .array (values ++ added) ∧
      List.Forall₂ (fun x value => ∃ w, C.parse value emptyName C.construct = (true, w) ∧
        C.same x w) v added := by
  induction v generalizing values with
  | nil => exact ⟨[], by rw [List.append_nil]; rfl, .nil⟩
  | cons x v ih =>
    obtain ⟨value, hser, hparse⟩ := hv x List.mem_cons_self
    obtain ⟨added, hadded, hall⟩ :=
      ih (fun y hy => hv y (List.mem_cons_of_mem _ hy)) (values ++ [value])
    refine ⟨value :: added, ?_, .cons hparse hall⟩
    rw [List.foldl_cons, hser, A.add_array, hadded, List.append_assoc]
    rfl

theorem parseValues_encoded {v : List V} {values : List Json} (read : List V)
    (hall : List.Forall₂ (fun x value => ∃ w, C.parse value emptyName C.construct = (true, w) ∧
      C.same x w) v values) :
    ∃ w, parseValues C values read = (true, read ++ w) ∧ List.Forall₂ C.same v w := by
  induction hall generalizing read with
  | nil => exact ⟨[], by rw [List.append_nil]; rfl, .nil⟩
  | @cons x value v values hx _ ih =>
    obtain ⟨w, hparse, hsame⟩ := hx
    obtain ⟨ws, hrun, hall⟩ := ih (read ++ [w])
    refine ⟨w :: ws, ?_, .cons hsame hall⟩
    simp only [parseValues, hparse]
    rw [hrun, List.append_assoc]
    rfl

/-- A field is read like the value in it. -/
def ReadsField (A : Accessors) (C : Codec V) : Prop :=
  ∀ value name v, name.chars ≠ [] →
    C.parse (A.addJsonMember (.object []) name value) name v = C.parse value emptyName v

theorem roundTrips_iff {v : V} (hread : ReadsField A C) (hn : name.chars ≠ [])
    (hser : ∀ json name, C.serialize json name v = A.addJsonMember json name value) :
    RoundTrips C name v ↔
      ∃ w, C.parse value emptyName C.construct = (true, w) ∧ C.same v w := by
  unfold RoundTrips
  rw [hser, hread value name C.construct hn]

theorem readsField_object {ofText : Chars → Option K} (value : Json) (v : M)
    (hn : name.chars ≠ []) :
    parseObject A B ofText C (A.addJsonMember (.object []) name value) name v =
      parseObject A B ofText C value emptyName v := by
  simp only [parseObject, get_added hn, A.get_self]

theorem string_inverts (v : Chars) : Inverts A (stringCodec A) v := by
  refine ⟨.string v, fun _ _ => rfl, v, ?_, rfl⟩
  simp only [stringCodec, parseString, A.get_self]

theorem vector_inverts {v : List V} (hv : ∀ x ∈ v, Inverts A C x) :
    Inverts A (vectorCodec A C) v := by
  obtain ⟨values, hser, hall⟩ := serializeValues_encodes hv []
  obtain ⟨w, hrun, hsame⟩ := parseValues_encoded [] hall
  refine ⟨.array values, ?_, w, ?_, hsame⟩
  · intro json name
    simp only [vectorCodec, serializeVector, hser, List.nil_append]
  · simp only [vectorCodec, parseVector, A.get_self, hrun, List.nil_append]

/-- A value goes out as one JSON value only. -/
theorem inverts_iff {v : V}
    (hser : ∀ json name, C.serialize json name v = A.addJsonMember json name value) :
    Inverts A C v ↔ ∃ w, C.parse value emptyName C.construct = (true, w) ∧ C.same v w := by
  constructor
  · rintro ⟨value', hser', hparse⟩
    have heq := (hser' (.array []) emptyName).symm.trans (hser (.array []) emptyName)
    rw [A.add_array, A.add_array] at heq
    cases heq
    exact hparse
  · exact fun hparse => ⟨value, hser, hparse⟩

theorem hashMap_inverts_iff [DecidableEq K] {v : HashMap K V}
    (hv : ∀ e ∈ v.entries, Inverts A C e.2) :
    Inverts A (hashMapCodec A X C) v ↔ NulFree X.toText v.entries := by
  obtain ⟨value, hser, hiff⟩ := object_inverts (B := HashMap.associative K V) (X := X) hv
  exact (inverts_iff (C := hashMapCodec A X C) hser).trans hiff

theorem map_inverts_iff [LinearOrder K] {v : Map K V} (hv : ∀ e ∈ v.entries, Inverts A C e.2) :
    Inverts A (mapCodec A X C) v ↔ NulFree X.toText v.entries := by
  obtain ⟨value, hser, hiff⟩ := object_inverts (B := Map.associative K V) (X := X) hv
  exact (inverts_iff (C := mapCodec A X C) hser).trans hiff

theorem stringHashMap_inverts_iff {v : HashMap Chars V} (hv : ∀ e ∈ v.entries, Inverts A C e.2) :
    Inverts A (stringHashMapCodec A C) v ↔ NulFree some v.entries := by
  obtain ⟨value, hser, hiff⟩ :=
    object_inverts (B := HashMap.associative Chars V) (X := LexicalCast.string) hv
  exact (inverts_iff (C := stringHashMapCodec A C) hser).trans hiff

/-- What comes back from an element comes back from a field. -/
theorem roundTrips_iff_inverts {v : V} (hread : ReadsField A C) (hn : name.chars ≠ [])
    (hser : ∃ value, ∀ json name, C.serialize json name v = A.addJsonMember json name value) :
    RoundTrips C name v ↔ Inverts A C v := by
  obtain ⟨value, hser⟩ := hser
  exact (roundTrips_iff hread hn hser).trans (inverts_iff hser).symm

/-- Strings and vectors come back from a field, and maps exactly if no key has a NUL in the
text that it goes out as, whatever the elements are that go out and come back. -/
theorem serialize_parse_iff (A : Accessors) (name : CString) (hn : name.chars ≠ []) :
    (∀ v, RoundTrips (stringCodec A) name v) ∧
    (∀ {V : Type} (C : Codec V) (v : List V), (∀ x ∈ v, Inverts A C x) →
      RoundTrips (vectorCodec A C) name v) ∧
    (∀ {V : Type} (C : Codec V) (v : HashMap Chars V), (∀ e ∈ v.entries, Inverts A C e.2) →
      (RoundTrips (stringHashMapCodec A C) name v ↔ NulFree some v.entries)) ∧
    (∀ {K V : Type} [DecidableEq K] (X : LexicalCast K) (C : Codec V) (v : HashMap K V),
      (∀ e ∈ v.entries, Inverts A C e.2) →
      (RoundTrips (hashMapCodec A X C) name v ↔ NulFree X.toText v.entries)) ∧
    (∀ {K V : Type} [LinearOrder K] (X : LexicalCast K) (C : Codec V) (v : Map K V),
      (∀ e ∈ v.entries, Inverts A C e.2) →
      (RoundTrips (mapCodec A X C) name v ↔ NulFree X.toText v.entries)) := by
  refine ⟨?_, ?_, ?_, ?_, ?_⟩
  · intro v
    have hread : ReadsField A (stringCodec A) := by
      intro value name v hn
      simp only [stringCodec, parseString, get_added hn, A.get_self]
    exact (roundTrips_iff_inverts hread hn ⟨.string v, fun _ _ => rfl⟩).mpr (string_inverts v)
  · intro V C v hv
    have hread : ReadsField A (vectorCodec A C) := by
      intro value name v hn
      simp only [vectorCodec, parseVector, get_added hn, A.get_self]
    have hinv := vector_inverts hv
    obtain ⟨value, hser, _⟩ := id hinv
    exact (roundTrips_iff_inverts hread hn ⟨value, hser⟩).mpr hinv
  · intro V C v hv
    have hread : ReadsField A (stringHashMapCodec A C) := fun _ _ _ hn => readsField_object _ _ hn
    obtain ⟨value, hser, _⟩ :=
      object_inverts (B := HashMap.associative Chars V) (X := LexicalCast.string) hv
    exact (roundTrips_iff_inverts hread hn ⟨value, hser⟩).trans (stringHashMap_inverts_iff hv)
  · intro K V _ X C v hv
    have hread : ReadsField A (hashMapCodec A X C) := fun _ _ _ hn => readsField_object _ _ hn
    obtain ⟨value, hser, _⟩ := object_inverts (B := HashMap.associative K V) (X := X) hv
    exact (roundTrips_iff_inverts hread hn ⟨value, hser⟩).trans (hashMap_inverts_iff hv)
  · intro K V _ X C v hv
    have hread : ReadsField A (mapCodec A X C) := fun _ _ _ hn => readsField_object _ _ hn
    obtain ⟨value, hser, _⟩ := object_inverts (B := Map.associative K V) (X := X) hv
    exact (roundTrips_iff_inverts hread hn ⟨value, hser⟩).trans (map_inverts_iff hv)

/-- Fields are looked up from the front and added at the end. -/
def plainAccessors : Accessors where
  getJsonFiledValue := fun json name =>
    if name.chars = [] then some json
    else match json with
      | .object members => (members.find? fun m => decide (m.1 = name.chars)).map Prod.snd
      | _ => none
  addJsonMember := fun json name value =>
    match json with
    | .array values => .array (values ++ [value])
    | .object members => .object (members ++ [(name.chars, value)])
    | json => json
  get_self := fun json => rfl
  get_member := by
    intro members name value hn hmem hall
    simp only [if_neg hn]
    cases hf : members.find? (fun m => decide (m.1 = name.chars)) with
    | none =>
      have hno := List.find?_eq_none.mp hf _ hmem
      simp at hno
    | some m =>
      obtain ⟨n, value'⟩ := m
      have hname : n = name.chars := by simpa using List.find?_some hf
      rw [hname] at hf
      exact congrArg some (hall value' (List.mem_of_find?_eq_some hf))
  add_array := fun _ _ _ => rfl
  add_object := fun _ _ _ => rfl

def fieldName : CString := ⟨[110], by decide⟩

def oneEntry (k v : Chars) : HashMap Chars Chars := ⟨[(k, v)], List.pairwise_singleton _ _⟩

/-- A map with two short keys, and an empty value. -/
theorem serialize_parse_two : RoundTrips
    (stringHashMapCodec plainAccessors (stringCodec plainAccessors)) fieldName
    ⟨[([97], [98]), ([99, 100], [])], by decide⟩ := by
  obtain ⟨_, _, hmap, _⟩ := serialize_parse_iff plainAccessors fieldName (by decide)
  refine (hmap (stringCodec plainAccessors) _ ?_).mpr ?_
  · exact fun e _ => string_inverts e.2
  · intro e he t ht
    cases ht
    simp only [List.mem_cons, List.not_mem_nil, or_false] at he
    obtain rfl | rfl := he
    · decide
    · decide

/-- A key goes out up to its NUL and comes back as another. -/
theorem key_cut_at_nul : ¬ RoundTrips
    (stringHashMapCodec plainAccessors (stringCodec plainAccessors)) fieldName
    (oneEntry [97, 0, 98] [120]) := by
  rintro ⟨w, hrun, hsame⟩
  have hcut : (stringHashMapCodec plainAccessors (stringCodec plainAccessors)).parse
      ((stringHashMapCodec plainAccessors (stringCodec plainAccessors)).serialize (.object [])
        fieldName (oneEntry [97, 0, 98] [120])) fieldName ⟨[], .nil⟩ =
      (true, oneEntry [97] [120]) := rfl
  cases hrun.symm.trans hcut
  obtain ⟨e, he, hkey, _⟩ := hsame.1 ([97, 0, 98], [120]) List.mem_cons_self
  cases List.mem_singleton.mp he
  exact absurd hkey (by decide)

end

end Mmdata.Kcfg
