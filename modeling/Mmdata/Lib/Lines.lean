import Mathlib.Data.List.Basic

namespace Mmdata.Lib

section

variable {α : Type}

/-- The text of the lines, each ended. -/
def textOf (nl : α) (lines : List (List α)) : List α := lines.flatMap fun line => line ++ [nl]

/-- The last line of the text is ended, if there is one. -/
def Ended (nl : α) (text : List α) : Prop := text = [] ∨ text.getLast? = some nl

variable {nl c : α} {text rest line : List α} {lines : List (List α)}

theorem Ended.tail (h : Ended nl (c :: text)) : Ended nl text := by
  cases text with
  | nil => exact Or.inl rfl
  | cons d text =>
    cases h with
    | inl h => contradiction
    | inr h =>
      rw [List.getLast?_cons_cons] at h
      exact Or.inr h

theorem Ended.append (h : Ended nl text) (h' : Ended nl rest) : Ended nl (text ++ rest) := by
  cases h' with
  | inl h' =>
    rw [h', List.append_nil]
    exact h
  | inr h' =>
    refine Or.inr ?_
    rw [List.getLast?_append, h', Option.some_or]

theorem textOf_cons : textOf nl (line :: lines) = line ++ nl :: textOf nl lines := by
  rw [textOf, List.flatMap_cons, List.append_assoc]
  rfl

theorem ended_textOf : Ended nl (textOf nl lines) := by
  induction lines with
  | nil => exact Or.inl rfl
  | cons line lines ih =>
    rw [textOf_cons, List.append_cons]
    exact Ended.append (Or.inr List.getLast?_concat) ih

/-- A text is ended lines, and what is behind them. -/
theorem exists_ended (nl : α) (text : List α) :
    ∃ front tail, text = front ++ tail ∧ Ended nl front ∧ nl ∉ tail := by
  induction text with
  | nil => exact ⟨[], [], rfl, Or.inl rfl, List.not_mem_nil⟩
  | cons c text ih =>
    obtain ⟨front, tail, rfl, hfront, htail⟩ := ih
    by_cases hf : front = []
    · subst hf
      by_cases hc : c = nl
      · subst hc
        exact ⟨[c], tail, rfl, Or.inr rfl, htail⟩
      · refine ⟨[], c :: tail, rfl, Or.inl rfl, ?_⟩
        rw [List.mem_cons, not_or]
        exact ⟨Ne.symm hc, htail⟩
    · refine ⟨c :: front, tail, rfl, Or.inr ?_, htail⟩
      cases front with
      | nil => exact absurd rfl hf
      | cons d front =>
        rw [List.getLast?_cons_cons]
        exact hfront.resolve_left hf

end

section

variable {α : Type} [DecidableEq α]

instance {nl : α} {text : List α} : Decidable (Ended nl text) :=
  inferInstanceAs (Decidable (text = [] ∨ text.getLast? = some nl))

/-- The lines of a text, got one by one: the last need not be ended. -/
def linesOf (nl : α) : List α → List (List α)
  | [] => []
  | c :: cs =>
    if c = nl then [] :: linesOf nl cs
    else
      match linesOf nl cs with
      | [] => [[c]]
      | line :: lines => (c :: line) :: lines

variable {nl c : α} {text rest line : List α} {lines : List (List α)}

theorem linesOf_newline : linesOf nl (nl :: rest) = [] :: linesOf nl rest := by
  rw [linesOf, if_pos rfl]

theorem linesOf_cons (hc : c ≠ nl) (h : linesOf nl rest = line :: lines) :
    linesOf nl (c :: rest) = (c :: line) :: lines := by
  rw [linesOf, if_neg hc, h]

theorem linesOf_line (hline : nl ∉ line) :
    linesOf nl (line ++ nl :: rest) = line :: linesOf nl rest := by
  induction line with
  | nil => exact linesOf_newline
  | cons c line ih =>
    rw [List.mem_cons, not_or] at hline
    exact linesOf_cons (Ne.symm hline.1) (ih hline.2)

/-- A last line that is not ended. -/
theorem linesOf_unended (hline : nl ∉ line) (hne : line ≠ []) : linesOf nl line = [line] := by
  induction line with
  | nil => exact absurd rfl hne
  | cons c line ih =>
    rw [List.mem_cons, not_or] at hline
    by_cases hl : line = []
    · subst hl
      rw [linesOf, if_neg (Ne.symm hline.1), linesOf]
    · exact linesOf_cons (Ne.symm hline.1) (ih hline.2 hl)

theorem linesOf_ne_nil (hne : text ≠ []) : linesOf nl text ≠ [] := by
  cases text with
  | nil => exact absurd rfl hne
  | cons c cs =>
    rw [linesOf]
    split
    · exact List.cons_ne_nil _ _
    · split <;> exact List.cons_ne_nil _ _

/-- Behind an ended line the lines begin anew. -/
theorem linesOf_append (h : Ended nl text) :
    linesOf nl (text ++ rest) = linesOf nl text ++ linesOf nl rest := by
  induction text with
  | nil => rfl
  | cons c text ih =>
    have hih := ih h.tail
    rw [List.cons_append]
    by_cases hc : c = nl
    · subst hc
      rw [linesOf_newline, linesOf_newline, hih, List.cons_append]
    · have hne : text ≠ [] := by
        rintro rfl
        cases h with
        | inl h => contradiction
        | inr h => exact hc (Option.some.inj h)
      cases hl : linesOf nl text with
      | nil => exact absurd hl (linesOf_ne_nil hne)
      | cons line lines =>
        rw [hl, List.cons_append] at hih
        rw [linesOf_cons hc hih, linesOf_cons hc hl, List.cons_append]

theorem linesOf_textOf (h : ∀ line ∈ lines, nl ∉ line) : linesOf nl (textOf nl lines) = lines := by
  induction lines with
  | nil => rfl
  | cons line lines ih =>
    rw [textOf_cons, linesOf_line (h line List.mem_cons_self),
      ih fun l hl => h l (List.mem_cons_of_mem _ hl)]

/-- Behind a line that is not ended the first line goes on where the text stops. -/
theorem linesOf_merged (hline : nl ∉ line) (h : ∀ l ∈ lines, nl ∉ l) (hno : ¬ Ended nl text) :
    ∃ front last, linesOf nl text = front ++ [last] ∧
      linesOf nl (text ++ textOf nl (line :: lines)) = front ++ (last ++ line) :: lines := by
  obtain ⟨front, tail, rfl, hfront, htail⟩ := exists_ended nl text
  have ht : tail ≠ [] := by
    rintro rfl
    rw [List.append_nil] at hno
    exact hno hfront
  have hmerged : nl ∉ tail ++ line := by
    rw [List.mem_append, not_or]
    exact ⟨htail, hline⟩
  refine ⟨linesOf nl front, tail, ?_, ?_⟩
  · rw [linesOf_append hfront, linesOf_unended htail ht]
  · rw [List.append_assoc, linesOf_append hfront, textOf_cons, ← List.append_assoc tail,
      linesOf_line hmerged, linesOf_textOf h]

/-- Lines put behind a text are read as they are exactly if the text is ended. -/
theorem linesOf_append_textOf (h : ∀ line ∈ lines, nl ∉ line) (hne : lines ≠ []) :
    linesOf nl (text ++ textOf nl lines) = linesOf nl text ++ lines ↔ Ended nl text := by
  constructor
  · intro heq
    by_contra hno
    obtain ⟨line, lines, rfl⟩ := List.exists_cons_of_ne_nil hne
    obtain ⟨front, last, htext, hmerged⟩ := linesOf_merged (h line List.mem_cons_self)
      (fun l hl => h l (List.mem_cons_of_mem line hl)) hno
    -- there is one line less
    rw [hmerged, htext] at heq
    have hlen := congrArg List.length heq
    simp only [List.length_append, List.length_cons, List.length_nil] at hlen
    omega
  · intro hended
    rw [linesOf_append hended, linesOf_textOf h]

end

end Mmdata.Lib
