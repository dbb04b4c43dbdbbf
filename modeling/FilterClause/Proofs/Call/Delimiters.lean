import FilterClause.Proofs.Call

/-!
# What stands around the arguments of a call

The text of a call is made of the texts of its arguments and of fixed texts around them. A predicate
has its first argument in front. Any other call has a word, an opening text, its arguments between
commas in the order of emission, and a closing text.
-/

namespace FilterClause.Call

structure Delimiters where
  name : String
  word : String
  opening : String
  closing : String

/-- The predicates. They have no word, and what opens one of them may also open the others. -/
def patterns : List Delimiters :=
  [⟨"contains", "", " LIKE ('%' + ", " + '%')"⟩, ⟨"endswith", "", " LIKE ('%' + ", ")"⟩,
    ⟨"startswith", "", " LIKE (", " + '%')"⟩]

def brackets : List Delimiters :=
  [⟨"indexof", "CHARINDEX", "(", ")"⟩, ⟨"trim", "LTRIM", "(RTRIM(", "))"⟩,
    ⟨"hour", "DATEPART", "(hour, ", ")"⟩, ⟨"minute", "DATEPART", "(minute, ", ")"⟩,
    ⟨"second", "DATEPART", "(second, ", ")"⟩,
    ⟨"totaloffsetminutes", "DATEPART", "(TZoffset, ", ")"⟩, ⟨"date", "CAST", "(", " AS date)"⟩,
    ⟨"time", "CAST", "(", " AS time)"⟩, ⟨"totalseconds", "DATEDIFF", "(second, 0, ", ")"⟩,
    ⟨"length", "LEN", "(", ")"⟩, ⟨"tolower", "LOWER", "(", ")"⟩, ⟨"toupper", "UPPER", "(", ")"⟩,
    ⟨"now", "GETUTCDATE", "(", ")"⟩, ⟨"substring", "SUBSTRING", "(", ")"⟩,
    ⟨"concat", "CONCAT", "(", ")"⟩, ⟨"year", "YEAR", "(", ")"⟩, ⟨"month", "MONTH", "(", ")"⟩,
    ⟨"day", "DAY", "(", ")"⟩, ⟨"round", "ROUND", "(", ")"⟩, ⟨"floor", "FLOOR", "(", ")"⟩,
    ⟨"ceiling", "CEILING", "(", ")"⟩]

theorem mem_predicates {name : String} :
    name ∈ predicates ↔ name = "contains" ∨ name = "startswith" ∨ name = "endswith" := by
  simp [predicates]

theorem exists_pattern {name : String} {count : ℕ} (hk : IsKnown name count)
    (hn : name ∈ predicates) : count = 2 ∧ ∃ d ∈ patterns, d.name = name ∧
      ∀ a b, text name [a, b] = a ++ d.opening ++ b ++ d.closing := by
  have hc : count = 2 := by
    rcases mem_predicates.mp hn with rfl | rfl | rfl <;>
      simpa [IsKnown, fixedArities, passing] using hk
  refine ⟨hc, ?_⟩
  rcases mem_predicates.mp hn with rfl | rfl | rfl
  · exact ⟨_, .head _, rfl, fun _ _ => rfl⟩
  · exact ⟨_, .tail _ (.tail _ (.head _)), rfl, fun _ _ => rfl⟩
  · exact ⟨_, .tail _ (.head _), rfl, fun _ _ => rfl⟩

theorem mem_brackets_of_isKnown {name : String} {count : ℕ} (hk : IsKnown name count)
    (hn : name ∉ predicates) : ∃ d ∈ brackets, d.name = name := by
  have hm : ∀ known ∈ fixedArities.map Prod.fst ++ passing,
      known ∈ predicates ∨ ∃ d ∈ brackets, d.name = known := by decide
  have hname : name ∈ fixedArities.map Prod.fst ++ passing := by
    rcases hk with hk | hk
    · exact List.mem_append_left _ (List.mem_map_of_mem hk)
    · exact List.mem_append_right _ hk
  exact (hm name hname).resolve_left hn

private theorem text_one {name before after : String} {arguments : List String}
    (hl : arguments.length = 1) (ht : ∀ a, text name [a] = before ++ a ++ after) :
    text name arguments =
      before ++ ", ".intercalate (inEmissionOrder name arguments) ++ after := by
  obtain ⟨a, rfl⟩ := List.length_eq_one_iff.mp hl
  rw [ht, inEmissionOrder_singleton, String.intercalate_singleton]

private theorem text_passing {name word : String} (arguments : List String) (hn : name ∈ passing)
    (hw : Text.upperCase name = word) : text name arguments =
      word ++ "(" ++ ", ".intercalate (inEmissionOrder name arguments) ++ ")" := by
  rw [text_of_mem_passing hn, hw, inEmissionOrder, if_neg (ne_indexof_of_mem_passing hn)]

theorem text_of_mem_brackets {d : Delimiters} (hd : d ∈ brackets) {arguments : List String}
    (hk : IsKnown d.name arguments.length) : text d.name arguments =
      d.word ++ d.opening ++ ", ".intercalate (inEmissionOrder d.name arguments) ++ d.closing := by
  simp only [brackets, List.mem_cons, List.not_mem_nil, or_false] at hd
  rcases hd with rfl | hd
  · obtain ⟨a, b, rfl⟩ := List.length_eq_two.mp
      (by simpa [IsKnown, fixedArities, passing] using hk)
    have hi : ", ".intercalate (inEmissionOrder "indexof" [a, b]) = b ++ ", " ++ a := by
      simp [inEmissionOrder, String.intercalate_cons_cons, String.append_assoc]
    rw [hi, ← String.append_assoc, ← String.append_assoc]
    rfl
  rcases hd with rfl | rfl | rfl | rfl | rfl | rfl | rfl | rfl | rfl | rfl | rfl | hd
  iterate 11 exact text_one (by simpa [IsKnown, fixedArities, passing] using hk) fun _ => rfl
  rcases hd with rfl | hd
  · obtain rfl := List.length_eq_zero_iff.mp (by simpa [IsKnown, fixedArities, passing] using hk)
    rfl
  rcases hd with rfl | rfl | rfl | rfl | rfl | rfl | rfl | rfl
  all_goals exact text_passing _ (by decide) (by decide)

end FilterClause.Call
