import FilterClause.Text.UpperCase
import Mathlib.Data.List.Basic
import Mathlib.Data.List.Count

/-!
# Lines

A line is what stands before a line break. A text that ends with a line break has as many lines as
it has line breaks, and a text put behind it adds the lines of its own. A line break is the upper
case of nothing but itself.
-/

namespace FilterClause.Text

/-- The lines of a text, each without the line break that ends it; the last one may have none. -/
def lines : List Char → List (List Char)
  | [] => []
  | c :: s =>
    if c = '\n' then [] :: lines s
    else
      match lines s with
      | [] => [[c]]
      | line :: rest => (c :: line) :: rest

theorem lines_newline_cons (s : List Char) : lines ('\n' :: s) = [] :: lines s := by
  rw [lines, if_pos rfl]

/-- Up to its line break a line is whole. -/
theorem lines_append_newline_cons {line : List Char} (h : '\n' ∉ line) (s : List Char) :
    lines (line ++ '\n' :: s) = line :: lines s := by
  induction line with
  | nil => exact lines_newline_cons s
  | cons c line ih =>
    have hc : c ≠ '\n' := fun he => h (he ▸ List.mem_cons_self)
    rw [List.cons_append, lines, if_neg hc, ih fun hm => h (List.mem_cons_of_mem c hm)]

theorem lines_ne_nil {s : List Char} (h : s ≠ []) : lines s ≠ [] := by
  cases s with
  | nil => exact absurd rfl h
  | cons c s =>
    rw [lines]
    split
    · exact List.cons_ne_nil _ _
    · split <;> exact List.cons_ne_nil _ _

/-- Behind a line break a text goes on with lines of its own. -/
theorem lines_append (s t : List Char) :
    lines (s ++ '\n' :: t) = lines (s ++ ['\n']) ++ lines t := by
  induction s with
  | nil => rfl
  | cons c s ih =>
    rw [List.cons_append, List.cons_append, lines, lines, ih]
    split
    · rfl
    · cases h : lines (s ++ ['\n']) with
      | nil => exact absurd h (lines_ne_nil (by simp))
      | cons line rest => rfl

theorem lines_flatMap {α : Type} (write : α → List Char) (xs : List α) :
    lines (xs.flatMap fun x => write x ++ ['\n']) =
      xs.flatMap fun x => lines (write x ++ ['\n']) := by
  induction xs with
  | nil => rfl
  | cons x xs ih =>
    rw [List.flatMap_cons, List.flatMap_cons, List.append_assoc, List.singleton_append,
      lines_append, ih]

/-- There is one line for each line break. -/
theorem length_lines (s : List Char) : (lines (s ++ ['\n'])).length = s.count '\n' + 1 := by
  induction s with
  | nil => rfl
  | cons c s ih =>
    rw [List.cons_append, lines, List.count_cons]
    split
    · next hc =>
      rw [List.length_cons, ih, hc, beq_self_eq_true, if_pos rfl]
    · next hc =>
      rw [beq_false_of_ne hc, if_neg Bool.false_ne_true, Nat.add_zero, ← ih]
      cases h : lines (s ++ ['\n']) with
      | nil => exact absurd h (lines_ne_nil (by simp))
      | cons line rest => rfl

theorem eq_newline_of_ofNat {n : ℕ} (h : Char.ofNat n = '\n') : n = 10 := by
  have hn := congrArg Char.toNat h
  by_cases hv : n.isValidChar
  · rw [Char.ofNat, dif_pos hv] at hn
    exact hn
  · rw [Char.ofNat, dif_neg hv] at hn
    exact absurd hn (by decide)

theorem eq_newline_of_mem_upperChar {c : Char} (h : '\n' ∈ upperChar c) : c = '\n' := by
  have hexpansions : ∀ entry ∈ caseExpansions, '\n' ∉ entry.2.map Char.ofNat := by
    decide +kernel
  have hruns : ∀ run ∈ caseRuns, 10 < (run.first : Int) + run.shift := by decide +kernel
  unfold upperChar at h
  split at h
  · next entry expansion hentry => exact absurd h (hexpansions _ (List.mem_of_find?_eq_some hentry))
  · split at h
    · next run hrun =>
      have hlow := hruns run (List.mem_of_find?_eq_some hrun)
      have hmem := List.find?_some hrun
      simp only [CaseRun.mem, decide_eq_true_eq] at hmem
      have hcode := eq_newline_of_ofNat (List.mem_singleton.mp h).symm
      omega
    · exact (List.mem_singleton.mp h).symm

theorem newline_notMem_upperCase {s : String} (h : '\n' ∉ s.toList) :
    '\n' ∉ (upperCase s).toList := by
  rw [upperCase, String.toList_ofList, List.mem_flatMap]
  rintro ⟨c, hc, hm⟩
  exact h (eq_newline_of_mem_upperChar hm ▸ hc)

end FilterClause.Text
