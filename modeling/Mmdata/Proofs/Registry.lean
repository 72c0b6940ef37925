import Mmdata.Image.Registry

namespace Mmdata.Proofs
open Image

section

variable {β τ : Type}

/-- What was registered last under the name. -/
def lastOf (name : String) (rs : List (String × HelperFuncs β τ)) : Option (HelperFuncs β τ) :=
  rs.reverse.lookup name

variable {g g' : HelperFuncTable β τ} {name n : String} {helper : HelperFuncs β τ}
  {rs : List (String × HelperFuncs β τ)}

theorem findHelper_getD : findHelper (some (g.getD [])) n = findHelper g n := by
  cases g with
  | none => rfl
  | some table => rfl

theorem findHelper_cons {table : List (String × HelperFuncs β τ)} :
    findHelper (some ((name, helper) :: table)) n =
      if n = name then some helper else findHelper (some table) n := by
  simp only [findHelper, Option.bind_some, List.lookup_cons]
  by_cases h : n = name
  · rw [if_pos h, beq_iff_eq.mpr h]
  · rw [if_neg h, beq_eq_false_iff_ne.mpr h]

/-- A registration aborts exactly if the name has a build function. Otherwise the name stands
for the new helper, and every other name for what it stood for. -/
theorem register_cases (name : String) (helper : HelperFuncs β τ) (g : HelperFuncTable β τ) :
    getBuildFuncByName g name ≠ none ∧ helperFuncRegister name helper g = none ∨
    getBuildFuncByName g name = none ∧ ∃ g', helperFuncRegister name helper g = some g' ∧
      ∀ n, findHelper g' n = if n = name then some helper else findHelper g n := by
  have hsame : getBuildFuncByName (some (g.getD [])) name = getBuildFuncByName g name := by
    rw [getBuildFuncByName, findHelper_getD]
    rfl
  simp only [helperFuncRegister, hsame]
  cases hb : getBuildFuncByName g name with
  | some f => exact Or.inl ⟨Option.some_ne_none f, rfl⟩
  | none =>
    refine Or.inr ⟨rfl, _, rfl, fun n => ?_⟩
    rw [findHelper_cons, findHelper_getD]

theorem registerAll_isSome : (registerAll rs g).isSome ↔
    (∀ r ∈ rs, getBuildFuncByName g r.1 = none) ∧
      rs.Pairwise fun r r' => r.1 = r'.1 → r.2.build = none := by
  induction rs generalizing g with
  | nil => exact iff_of_true rfl ⟨fun _ h => absurd h List.not_mem_nil, .nil⟩
  | cons r rs ih =>
    obtain ⟨name, helper⟩ := r
    rw [registerAll, List.pairwise_cons, List.forall_mem_cons]
    obtain ⟨hb, hr⟩ | ⟨hb, g', hr, hfind⟩ := register_cases name helper g
    · rw [hr]
      exact iff_of_false Bool.false_ne_true fun h => hb h.1.1
    · rw [hr, Option.bind_some, ih]
      have hbuild : ∀ n, getBuildFuncByName g' n =
          if n = name then helper.build else getBuildFuncByName g n := by
        intro n
        rw [getBuildFuncByName, hfind, getBuildFuncByName]
        split <;> rfl
      simp only [hbuild]
      constructor
      · intro h
        obtain ⟨hall, hpair⟩ := h
        refine ⟨⟨hb, fun r hr => ?_⟩, fun r hr he => ?_, hpair⟩
        · have hn := hall r hr
          by_cases he : r.1 = name
          · rw [he]
            exact hb
          · rwa [if_neg he] at hn
        · have hn := hall r hr
          rwa [if_pos he.symm] at hn
      · intro h
        obtain ⟨⟨_, hall⟩, hlate, hpair⟩ := h
        refine ⟨fun r hr => ?_, hpair⟩
        by_cases he : r.1 = name
        · rw [if_pos he]
          exact hlate r hr he.symm
        · rw [if_neg he]
          exact hall r hr

theorem registerAll_finds (h : registerAll rs g = some g') :
    findHelper g' n = (lastOf n rs).or (findHelper g n) := by
  induction rs generalizing g with
  | nil =>
    cases h
    rfl
  | cons r rs ih =>
    obtain ⟨name, helper⟩ := r
    rw [registerAll] at h
    obtain ⟨_, hr⟩ | ⟨_, g₁, hr, hfind⟩ := register_cases name helper g
    · rw [hr] at h
      contradiction
    · rw [hr, Option.bind_some] at h
      rw [ih h, hfind, lastOf, lastOf, List.reverse_cons, List.lookup_append, List.lookup_cons]
      by_cases he : n = name
      · rw [if_pos he, beq_iff_eq.mpr he, Option.or_assoc]
        rfl
      · rw [if_neg he, beq_eq_false_iff_ne.mpr he, List.lookup_nil, Option.or_none]

/-- A row of registrations aborts exactly if a name that has a build function is registered
again, and otherwise each name stands for what was registered last under it. -/
theorem registry_exact (rs : List (String × HelperFuncs β τ)) :
    ((registerAll rs none).isSome ↔ rs.Pairwise fun r r' => r.1 = r'.1 → r.2.build = none) ∧
    ∀ g, registerAll rs none = some g → ∀ name,
      getBuildFuncByName g name = (lastOf name rs).bind HelperFuncs.build ∧
      getTestFuncByName g name = (lastOf name rs).bind HelperFuncs.test ∧
      getRootStructHash g name = ((lastOf name rs).map HelperFuncs.struct_hash).getD 0 := by
  constructor
  · rw [registerAll_isSome]
    exact and_iff_right fun _ _ => rfl
  · intro g h name
    have hfind : findHelper g name = lastOf name rs := by
      rw [registerAll_finds h]
      exact Option.or_none
    refine ⟨?_, ?_, ?_⟩
    · rw [getBuildFuncByName, hfind]
    · rw [getTestFuncByName, hfind]
    · rw [getRootStructHash, hfind]

/-- A name without a build function is registered again. -/
theorem registry_exact_again : ∃ g,
    registerAll [("a", ⟨none, some 1, 7⟩), ("b", ⟨some 2, none, 8⟩), ("a", ⟨some 3, none, 9⟩)] none =
      some g ∧ getBuildFuncByName g "a" = some 3 ∧ getRootStructHash g "b" = 8 := by
  have hex := registry_exact (β := Nat) (τ := Nat)
    [("a", ⟨none, some 1, 7⟩), ("b", ⟨some 2, none, 8⟩), ("a", ⟨some 3, none, 9⟩)]
  obtain ⟨g, hg⟩ := Option.isSome_iff_exists.mp (hex.1.mpr (by decide))
  exact ⟨g, hg, (hex.2 g hg "a").1, (hex.2 g hg "b").2.2⟩

end

end Mmdata.Proofs
