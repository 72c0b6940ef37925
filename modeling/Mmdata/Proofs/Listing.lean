import Mmdata.Image.Listing

namespace Mmdata.Proofs
open Lib Malloc Kcfg Image

section

variable {α : Type} {w : α → Chars} {v : List α} {vs : List (List α)} {file : Chars} {append : Bool}
  {E : Rows} {table alloc : Nat} {as bs : List Chars} {σ : State}

theorem printRows_eq : printRows w v file = file ++ textOf newline (v.map (rowOf w)) := by
  induction v generalizing file with
  | nil => exact (List.append_nil file).symm
  | cons e v ih =>
    rw [printRows, ih, List.map_cons, textOf_cons, List.append_assoc, List.append_assoc]
    rfl

theorem writeListToJson_file (append : Bool) : (writeListToJson w true v append file).2 =
    (if append then file else []) ++ textOf newline (v.map (rowOf w)) := by
  rw [writeListToJson, if_pos rfl, printRows_eq]

theorem no_newline (hv : ∀ e ∈ v, newline ∉ rowOf w e) :
    ∀ line ∈ v.map (rowOf w), newline ∉ line := by
  intro line hl
  obtain ⟨e, he, rfl⟩ := List.mem_map.mp hl
  exact hv e he

/-- What `WriteListToJson` appends to a file is read back, a line for an element behind the
lines there were, exactly if the last of these is ended. If it is not, the row of the first
element is merged into it. -/
theorem rows_read_iff (hv : ∀ e ∈ v, newline ∉ rowOf w e) (hne : v ≠ []) :
    (getLines (writeListToJson w true v append file).2 =
      getLines (if append then file else []) ++ v.map (rowOf w) ↔
    (append = true → Ended newline file)) ∧
    (append = true → ¬ Ended newline file → ∃ front last row rows,
      getLines file = front ++ [last] ∧ v.map (rowOf w) = row :: rows ∧
      getLines (writeListToJson w true v append file).2 = front ++ (last ++ row) :: rows) := by
  have hrows : v.map (rowOf w) ≠ [] := fun h => hne (List.map_eq_nil_iff.mp h)
  rw [writeListToJson_file, getLines, getLines, linesOf_append_textOf (no_newline hv) hrows]
  cases append with
  | false =>
    refine ⟨⟨fun _ h => absurd h Bool.false_ne_true, fun _ => Or.inl rfl⟩, ?_⟩
    exact fun h => absurd h Bool.false_ne_true
  | true =>
    refine ⟨⟨fun h _ => h, fun h => h rfl⟩, fun _ hno => ?_⟩
    obtain ⟨row, rows, hcons⟩ := List.exists_cons_of_ne_nil hrows
    have hplain := no_newline hv
    rw [hcons] at hplain
    obtain ⟨front, last, hold, hnew⟩ := linesOf_merged (hplain row List.mem_cons_self)
      (fun l hl => hplain l (List.mem_cons_of_mem row hl)) hno
    refine ⟨front, last, row, rows, hold, hcons, ?_⟩
    rw [hcons]
    exact hnew

/-- The rows of `{}` and `[]` put behind a line that is not ended. -/
theorem rows_read_iff_unended :
    getLines (writeListToJson id true [[123, 125], [91, 93]] true [110]).2 ≠
      getLines [110] ++ [[123, 125], [91, 93]] ∧
    ∃ front last, getLines [110] = front ++ [last] ∧
      getLines (writeListToJson id true [[123, 125], [91, 93]] true [110]).2 =
        front ++ [last ++ [123, 125], [91, 93]] := by
  have hv : ∀ e ∈ [[123, 125], [91, 93]], newline ∉ rowOf id e := by decide
  have hno : ¬ Ended newline [110] := by decide
  have hread : (getLines (writeListToJson id true [[123, 125], [91, 93]] true [110]).2 = _ ↔ _) ∧
      _ := rows_read_iff hv (List.cons_ne_nil _ _)
  obtain ⟨hiff, hmerged⟩ := hread
  refine ⟨fun h => hno (hiff.mp h rfl), ?_⟩
  obtain ⟨front, last, row, rows, hold, hcons, hnew⟩ := hmerged rfl hno
  obtain ⟨rfl, rfl⟩ : [123, 125] = row ∧ [[91, 93]] = rows := List.cons.inj hcons
  exact ⟨front, last, hold, hnew⟩

theorem code_assoc {β γ δ : Type} (x : Code β) (f : β → Code γ) (g : γ → Code δ) :
    (x >>= f) >>= g = x >>= fun r => f r >>= g := by
  funext σ
  simp only [bind]
  cases x σ with
  | ok p => rfl
  | error e => rfl

theorem insertLines_append : insertLines E table alloc (as ++ bs) =
    (insertLines E table alloc as >>= fun _ => insertLines E table alloc bs) := by
  induction as with
  | nil => rfl
  | cons line as ih =>
    rw [List.cons_append, insertLines, insertLines]
    by_cases hempty : line = []
    · rw [if_pos hempty, if_pos hempty, ih]
    · rw [if_neg hempty, if_neg hempty, code_assoc]
      apply congrArg
      funext r
      cases r with
      | none => exact ih
      | some entry =>
        simp only [ih]
        rw [code_assoc]

theorem writeLists_eq (hv : ∀ v ∈ vs, ∀ e ∈ v, newline ∉ rowOf w e) (hended : Ended newline file) :
    getLines (writeLists w vs file) = getLines file ++ vs.flatten.map (rowOf w) := by
  induction vs generalizing file with
  | nil => exact (List.append_nil _).symm
  | cons v vs ih =>
    have hline := no_newline (hv v List.mem_cons_self)
    have hnext : Ended newline (writeListToJson w true v true file).2 := by
      rw [writeListToJson_file]
      exact hended.append ended_textOf
    rw [writeLists, ih (fun u hu => hv u (List.mem_cons_of_mem _ hu)) hnext, writeListToJson_file,
      List.flatten_cons, List.map_append, ← List.append_assoc]
    apply congrArg (· ++ _)
    rw [getLines, if_pos rfl, linesOf_append hended, linesOf_textOf hline]
    rfl

/-- Lists that are written to a file one after the other are read back whole and in order, and
`Build` inserts what was in the file before, and then each of their rows. -/
theorem rows_read_back (hv : ∀ v ∈ vs, ∀ e ∈ v, newline ∉ rowOf w e) (hended : Ended newline file) :
    getLines (writeLists w vs file) = getLines file ++ vs.flatten.map (rowOf w) ∧
    ∀ E table alloc, insertLines E table alloc (getLines (writeLists w vs file)) =
      (insertLines E table alloc (getLines file) >>= fun _ =>
        insertLines E table alloc (vs.flatten.map (rowOf w))) := by
  have heq := writeLists_eq hv hended
  refine ⟨heq, fun E table alloc => ?_⟩
  rw [heq]
  exact insertLines_append

theorem rows_read_back_two :
    getLines (writeLists id [[[123, 125]], [[91, 93], [110]]] []) =
      [[123, 125], [91, 93], [110]] := by
  have hv : ∀ v ∈ [[[123, 125]], [[91, 93], [110]]], ∀ e ∈ v, newline ∉ rowOf id e := by decide
  exact (rows_read_back hv (Or.inl rfl)).1

end

end Mmdata.Proofs
