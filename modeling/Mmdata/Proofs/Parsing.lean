import Mmdata.Proofs.RoundTrip

namespace Mmdata.Kcfg
open Lib

/-- The name is cast to a key and the value is parsed. -/
def Parses {K V : Type} (ofText : Chars → Option K) (C : Codec V) (m : Chars × Json) : Prop :=
  (ofText m.1).isSome = true ∧ (C.parse m.2 emptyName C.construct).1 = true

/-- The first member that cannot be read has a name that is not cast, and it is not the first
of all. -/
def FailsAtLaterKey {K V : Type} (ofText : Chars → Option K) (C : Codec V)
    (members : List (Chars × Json)) : Prop :=
  ∃ before m after, members = before ++ m :: after ∧ before ≠ [] ∧
    (∀ p ∈ before, Parses ofText C p) ∧ ofText m.1 = none

/-- What a key is bound to: the value of the first member whose name casts to it. -/
def binding {K V : Type} [DecidableEq K] (ofText : Chars → Option K) (C : Codec V)
    (members : List (Chars × Json)) (k : K) : Option V :=
  (members.find? fun m => ofText m.1 = some k).map fun m => (C.parse m.2 emptyName C.construct).2

/-- The flag and the container are those of the specification: the selected value is an object
all of whose members can be read, and then the keys are bound as the members say. -/
def Reads {K V M : Type} [DecidableEq K] (A : Accessors) (B : Associative M K V)
    (ofText : Chars → Option K) (C : Codec V) (json : Json) (name : CString) (r : Bool × M) :
    Prop :=
  (r.1 = true ↔ ∃ members, A.getJsonFiledValue json name = some (.object members) ∧
    ∀ m ∈ members, Parses ofText C m) ∧
  ∀ members, r.1 = true → A.getJsonFiledValue json name = some (.object members) →
    ∀ k x, (k, x) ∈ B.entries r.2 ↔ binding ofText C members k = some x

section

variable {K V M : Type} {A : Accessors} {C : Codec V} {name : CString} {json : Json}
  {B : Associative M K V} {ofText : Chars → Option K} {v : M} {m : Chars × Json}
  {before after members : List (Chars × Json)}

/-- Members that can be read, up to the first that cannot. -/
theorem parses_or_stops (ofText : Chars → Option K) (C : Codec V) (members : List (Chars × Json)) :
    (∀ p ∈ members, Parses ofText C p) ∨ ∃ before m after, members = before ++ m :: after ∧
      (∀ p ∈ before, Parses ofText C p) ∧ ¬ Parses ofText C m := by
  induction members with
  | nil => exact Or.inl fun p hp => absurd hp List.not_mem_nil
  | cons m members ih =>
    by_cases hm : Parses ofText C m
    · cases ih with
      | inl hall =>
        apply Or.inl
        intro p hp
        cases List.mem_cons.mp hp with
        | inl he => exact he ▸ hm
        | inr hp => exact hall p hp
      | inr hstop =>
        obtain ⟨before, n, after, rfl, hbefore, hn⟩ := hstop
        apply Or.inr
        refine ⟨m :: before, n, after, rfl, ?_, hn⟩
        intro p hp
        cases List.mem_cons.mp hp with
        | inl he => exact he ▸ hm
        | inr hp => exact hbefore p hp
    · exact Or.inr ⟨[], m, members, rfl, fun p hp => absurd hp List.not_mem_nil, hm⟩

theorem parseMembers_parsed {k : K} (hk : ofText m.1 = some k)
    (hv : (C.parse m.2 emptyName C.construct).1 = true) :
    parseMembers B ofText C (m :: members) v = parseMembers B ofText C members
      (B.insert v k (C.parse m.2 emptyName C.construct).2) := by
  obtain ⟨n, value⟩ := m
  simp only at hk hv ⊢
  simp only [parseMembers, hk]
  cases hp : C.parse value emptyName C.construct with
  | mk flag x =>
    rw [hp] at hv
    cases hv
    rfl

/-- What `Parse` leaves where it stops. -/
theorem parseMembers_stopped (hm : ¬ Parses ofText C m) :
    parseMembers B ofText C (m :: after) v =
      (false, if ofText m.1 = none then v else B.empty) := by
  obtain ⟨n, value⟩ := m
  simp only [Parses, not_and] at hm
  cases hk : ofText n with
  | none => simp [parseMembers, hk]
  | some k =>
    simp only [parseMembers, hk]
    cases hp : C.parse value emptyName C.construct with
    | mk flag x =>
      rw [hp, hk] at hm
      cases flag with
      | true => exact absurd rfl (hm rfl)
      | false => simp

/-- Members that can be read are bound in turn, each key once. -/
theorem parseMembers_append [DecidableEq K] (hall : ∀ p ∈ before, Parses ofText C p) (v : M) :
    ∃ v', (∀ rest, parseMembers B ofText C (before ++ rest) v = parseMembers B ofText C rest v') ∧
      ∀ k x, (k, x) ∈ B.entries v' ↔ (k, x) ∈ B.entries v ∨
        (∀ f ∈ B.entries v, f.1 ≠ k) ∧ binding ofText C before k = some x := by
  induction before generalizing v with
  | nil => exact ⟨v, fun _ => rfl, fun k x => by simp [binding]⟩
  | cons m before ih =>
    obtain ⟨hkey, hval⟩ := hall m List.mem_cons_self
    obtain ⟨k₀, hk₀⟩ := Option.isSome_iff_exists.mp hkey
    have hall' : ∀ p ∈ before, Parses ofText C p := fun p hp => hall p (List.mem_cons_of_mem _ hp)
    generalize hx₀ : (C.parse m.2 emptyName C.construct).2 = x₀
    obtain ⟨v', hrun, hmem⟩ := ih hall' (B.insert v k₀ x₀)
    refine ⟨v', fun rest => ?_, fun k x => ?_⟩
    · rw [List.cons_append, parseMembers_parsed hk₀ hval, hx₀, hrun]
    · rw [hmem]
      by_cases hk : k₀ = k
      · subst hk
        have hfirst : binding ofText C (m :: before) k₀ = some x₀ := by
          simp only [binding, List.find?_cons, hk₀, decide_true, Option.map_some, hx₀]
        rw [hfirst]
        constructor
        · intro h
          cases h with
          | inl h =>
            cases (B.mem_insert v k₀ x₀ (k₀, x)).mp h with
            | inl h => exact Or.inl h
            | inr h =>
              obtain ⟨he, hnew⟩ := h
              cases he
              exact Or.inr ⟨hnew, rfl⟩
          | inr h =>
            obtain ⟨hnew, _⟩ := h
            have hold : ∀ f ∈ B.entries v, f.1 ≠ k₀ := fun f hf =>
              hnew f ((B.mem_insert v k₀ x₀ f).mpr (Or.inl hf))
            exact absurd rfl (hnew (k₀, x₀) ((B.mem_insert v k₀ x₀ _).mpr (Or.inr ⟨rfl, hold⟩)))
        · intro h
          cases h with
          | inl h => exact Or.inl ((B.mem_insert v k₀ x₀ _).mpr (Or.inl h))
          | inr h =>
            obtain ⟨hnew, he⟩ := h
            cases he
            exact Or.inl ((B.mem_insert v k₀ x₀ _).mpr (Or.inr ⟨rfl, hnew⟩))
      · have hlater : binding ofText C (m :: before) k = binding ofText C before k := by
          simp [binding, hk₀, hk]
        have hin : (k, x) ∈ B.entries (B.insert v k₀ x₀) ↔ (k, x) ∈ B.entries v := by
          rw [B.mem_insert]
          constructor
          · intro h
            cases h with
            | inl h => exact h
            | inr h => exact absurd (Prod.mk.inj h.1).1.symm hk
          · exact Or.inl
        have hfree : (∀ f ∈ B.entries (B.insert v k₀ x₀), f.1 ≠ k) ↔ ∀ f ∈ B.entries v, f.1 ≠ k := by
          constructor
          · intro h f hf
            exact h f ((B.mem_insert v k₀ x₀ f).mpr (Or.inl hf))
          · intro h f hf
            cases (B.mem_insert v k₀ x₀ f).mp hf with
            | inl hf => exact h f hf
            | inr hf =>
              rw [hf.1]
              exact hk
        rw [hlater, hin, hfree]

/-- A container with pairs of members that could be read. -/
theorem bound_ne_nil [DecidableEq K] {v' : M} (hne : before ≠ [])
    (hall : ∀ p ∈ before, Parses ofText C p)
    (hmem : ∀ k x, (k, x) ∈ B.entries v' ↔ (k, x) ∈ B.entries v ∨
      (∀ f ∈ B.entries v, f.1 ≠ k) ∧ binding ofText C before k = some x) :
    B.entries v' ≠ [] := by
  obtain ⟨m, rest, rfl⟩ := List.exists_cons_of_ne_nil hne
  obtain ⟨k, hk⟩ := Option.isSome_iff_exists.mp (hall m List.mem_cons_self).1
  by_cases hnew : ∀ f ∈ B.entries v, f.1 ≠ k
  · apply List.ne_nil_of_mem
    apply (hmem k (C.parse m.2 emptyName C.construct).2).mpr
    refine Or.inr ⟨hnew, ?_⟩
    simp only [binding, List.find?_cons, hk, decide_true, Option.map_some]
  · simp only [not_forall] at hnew
    obtain ⟨f, hf, _⟩ := hnew
    exact List.ne_nil_of_mem ((hmem f.1 f.2).mpr (Or.inl hf))

theorem parseMembers_flag [DecidableEq K] (v : M) :
    (parseMembers B ofText C members v).1 = true ↔ ∀ m ∈ members, Parses ofText C m := by
  cases parses_or_stops ofText C members with
  | inl hall =>
    obtain ⟨v', hrun, _⟩ := parseMembers_append (B := B) hall v
    have hend := hrun []
    rw [List.append_nil] at hend
    rw [hend]
    exact iff_of_true rfl hall
  | inr hstop =>
    obtain ⟨before, m, after, rfl, hbefore, hm⟩ := hstop
    obtain ⟨v', hrun, _⟩ := parseMembers_append (B := B) hbefore v
    rw [hrun, parseMembers_stopped hm]
    apply iff_of_false (by simp)
    exact fun hall => hm (hall m (by simp))

/-- An object is read as the specification says. -/
theorem parseObject_reads [DecidableEq K] :
    Reads A B ofText C json name (parseObject A B ofText C json name B.empty) := by
  unfold parseObject
  split
  · rename_i members hget
    constructor
    · rw [parseMembers_flag]
      constructor
      · exact fun hall => ⟨members, hget, hall⟩
      · rintro ⟨members', hget', hall⟩
        cases hget.symm.trans hget'
        exact hall
    · intro members' hflag hget' k x
      cases hget.symm.trans hget'
      have hall := (parseMembers_flag B.empty).mp hflag
      obtain ⟨v', hrun, hmem⟩ := parseMembers_append (B := B) hall B.empty
      have hend := hrun []
      rw [List.append_nil] at hend
      rw [hend]
      simp only [parseMembers]
      rw [hmem, B.entries_empty]
      simp
  · rename_i hno
    constructor
    · apply iff_of_false (by simp)
      rintro ⟨members, hget, _⟩
      exact hno members hget
    · intro members hflag
      cases hflag

/-- A failed `Parse` of an object leaves pairs exactly if it gives up over a later key. -/
theorem parseObject_failed_iff [DecidableEq K] :
    ((parseObject A B ofText C json name B.empty).1 = false →
      B.entries (parseObject A B ofText C json name B.empty).2 = []) ↔
    ¬ ∃ members, A.getJsonFiledValue json name = some (.object members) ∧
      FailsAtLaterKey ofText C members := by
  unfold parseObject
  split
  · rename_i members hget
    have hlater : (∃ members', A.getJsonFiledValue json name = some (.object members') ∧
        FailsAtLaterKey ofText C members') ↔ FailsAtLaterKey ofText C members := by
      constructor
      · rintro ⟨members', hget', hfail⟩
        cases hget.symm.trans hget'
        exact hfail
      · exact fun hfail => ⟨members, hget, hfail⟩
    rw [hlater]
    constructor
    · rintro hempty ⟨before, m, after, rfl, hne, hall, hkey⟩
      have hm : ¬ Parses ofText C m := by
        intro hp
        rw [Parses, hkey] at hp
        cases hp.1
      obtain ⟨v', hrun, hmem⟩ := parseMembers_append (B := B) hall B.empty
      rw [hrun, parseMembers_stopped hm, if_pos hkey] at hempty
      exact bound_ne_nil hne hall hmem (hempty rfl)
    · intro hnot hflag
      cases parses_or_stops ofText C members with
      | inl hall =>
        rw [(parseMembers_flag B.empty).mpr hall] at hflag
        cases hflag
      | inr hstop =>
        obtain ⟨before, m, after, rfl, hall, hm⟩ := hstop
        obtain ⟨v', hrun, hmem⟩ := parseMembers_append (B := B) hall B.empty
        rw [hrun, parseMembers_stopped hm]
        by_cases hkey : ofText m.1 = none
        · rw [if_pos hkey]
          have hnil : before = [] := by
            by_contra hne
            exact hnot ⟨before, m, after, rfl, hne, hall, hkey⟩
          subst hnil
          apply List.eq_nil_iff_forall_not_mem.mpr
          rintro ⟨k, x⟩ hin
          rw [hmem, B.entries_empty] at hin
          simp [binding] at hin
        · rw [if_neg hkey]
          exact B.entries_empty
  · rename_i hno
    apply iff_of_true
    · exact fun _ => B.entries_empty
    · rintro ⟨members, hget, _⟩
      exact hno members hget

theorem not_later_key {members : List (Chars × Json)} (hall : ∀ t, ofText t ≠ none) :
    ¬ FailsAtLaterKey ofText C members := by
  rintro ⟨_, m, _, _, _, _, hkey⟩
  exact hall m.1 hkey

theorem parseValues_failed {values : List Json} {v : List V}
    (h : (parseValues C values v).1 = false) : (parseValues C values v).2 = [] := by
  induction values generalizing v with
  | nil => cases h
  | cons value values ih =>
    unfold parseValues at h ⊢
    split
    · rename_i x hp
      rw [hp] at h
      exact ih h
    · rfl

end

/-- A failed `Parse` into an empty container leaves it empty; a map, with any cast of keys,
exactly if the first member that cannot be read does not stop it over its key with members
before it. -/
theorem failed_parse_empty_iff (A : Accessors) (json : Json) (name : CString) :
    (∀ {K V : Type} [DecidableEq K] (ofText : Chars → Option K) (C : Codec V),
      let r := parseObject A (HashMap.associative K V) ofText C json name ⟨[], .nil⟩
      (r.1 = false → r.2.entries = []) ↔ ¬ ∃ members,
        A.getJsonFiledValue json name = some (.object members) ∧
          FailsAtLaterKey ofText C members) ∧
    (∀ {K V : Type} [LinearOrder K] (ofText : Chars → Option K) (C : Codec V),
      let r := parseObject A (Map.associative K V) ofText C json name ⟨[], .nil⟩
      (r.1 = false → r.2.entries = []) ↔ ¬ ∃ members,
        A.getJsonFiledValue json name = some (.object members) ∧
          FailsAtLaterKey ofText C members) ∧
    (∀ {V : Type} (C : Codec V), (parseStringHashMap A C json name ⟨[], .nil⟩).1 = false →
      (parseStringHashMap A C json name ⟨[], .nil⟩).2.entries = []) ∧
    ∀ {V : Type} (C : Codec V), (parseVector A C json name []).1 = false →
      (parseVector A C json name []).2 = [] := by
  refine ⟨?_, ?_, ?_, ?_⟩
  · intro K V _ ofText C
    exact parseObject_failed_iff (B := HashMap.associative K V)
  · intro K V _ ofText C
    exact parseObject_failed_iff (B := Map.associative K V)
  · intro V C
    have hno : ¬ ∃ members, A.getJsonFiledValue json name = some (.object members) ∧
        FailsAtLaterKey some C members := by
      rintro ⟨members, _, hfail⟩
      exact not_later_key (by simp) hfail
    exact (parseObject_failed_iff (B := HashMap.associative Chars V)).mpr hno
  · intro V C h
    unfold parseVector at h ⊢
    split
    · rename_i values hget
      rw [hget] at h
      exact parseValues_failed h
    · rfl

/-- An object with two names, of which the second is no 8-bit key. -/
def twoNames : Json := .object [([97], .string [120]), ([98, 99], .string [121])]

/-- The pair of the first name is still there when the second has failed. -/
theorem pair_left_behind : ¬ ((parseHashMap plainAccessors (LexicalCast.character (Equiv.refl UInt8))
      (stringCodec plainAccessors) twoNames emptyName ⟨[], .nil⟩).1 = false →
    (parseHashMap plainAccessors (LexicalCast.character (Equiv.refl UInt8))
      (stringCodec plainAccessors) twoNames emptyName ⟨[], .nil⟩).2.entries = []) := by
  intro h
  have hrun : (parseHashMap plainAccessors (LexicalCast.character (Equiv.refl UInt8))
      (stringCodec plainAccessors) twoNames emptyName ⟨[], .nil⟩).1 = false := rfl
  cases h hrun

/-- The two maps read an object alike, and as the specification says. -/
theorem maps_read_alike (A : Accessors) (json : Json) (name : CString) :
    (∀ {K V : Type} [LinearOrder K] (X : LexicalCast K) (C : Codec V),
      Reads A (HashMap.associative K V) X.ofText C json name
        (parseHashMap A X C json name ⟨[], .nil⟩) ∧
      Reads A (Map.associative K V) X.ofText C json name (parseMap A X C json name ⟨[], .nil⟩)) ∧
    ∀ {V : Type} [LinearOrder Chars] (C : Codec V),
      Reads A (HashMap.associative Chars V) some C json name
        (parseStringHashMap A C json name ⟨[], .nil⟩) ∧
      Reads A (Map.associative Chars V) some C json name
        (parseMap A LexicalCast.string C json name ⟨[], .nil⟩) := by
  constructor
  · intro K V _ X C
    exact ⟨parseObject_reads, parseObject_reads⟩
  · intro V _ C
    exact ⟨parseObject_reads, parseObject_reads⟩

end Mmdata.Kcfg
