import FilterClause.Proofs.Sql.Term
import Mathlib.Order.MinMax

/-!
# The grouping of calls

The term that the text of a call stands for. A predicate applies `LIKE` to its first argument and
to a pattern in brackets; any other call is one of an SQL function. The tokens of the term are those
of the text, whatever the arguments are.
-/

namespace FilterClause.Call

open Sql (Closes Lexes Token)

/-- The term of a call, from the terms of its arguments. -/
def term : String → List Sql.Term → Sql.Term
  | "contains", [a, b] =>
    .operation "LIKE" a (.bracket (.operation "+" (.operation "+" (.quoted "%") b) (.quoted "%")))
  | "startswith", [a, b] => .operation "LIKE" a (.bracket (.operation "+" b (.quoted "%")))
  | "endswith", [a, b] => .operation "LIKE" a (.bracket (.operation "+" (.quoted "%") b))
  | "indexof", [a, b] => .call "CHARINDEX" [b, a]
  | "trim", [a] => .call "LTRIM" [.call "RTRIM" [a]]
  | "hour", [a] => .call "DATEPART" [.name "hour", a]
  | "minute", [a] => .call "DATEPART" [.name "minute", a]
  | "second", [a] => .call "DATEPART" [.name "second", a]
  | "date", [a] => .call "CAST" [.operation "AS" a (.name "date")]
  | "time", [a] => .call "CAST" [.operation "AS" a (.name "time")]
  | "totaloffsetminutes", [a] => .call "DATEPART" [.name "TZoffset", a]
  | "totalseconds", [a] => .call "DATEDIFF" [.name "second", .name "0", a]
  | "length", [a] => .call "LEN" [a]
  | "tolower", [a] => .call "LOWER" [a]
  | "toupper", [a] => .call "UPPER" [a]
  | "now", [] => .call "GETUTCDATE" []
  | name, arguments => .call (Text.upperCase name) arguments

theorem term_of_mem_passing {name : String} (h : name ∈ passing) (arguments : List Sql.Term) :
    term name arguments = .call (Text.upperCase name) arguments := by
  simp only [passing, List.mem_cons, List.not_mem_nil, or_false] at h
  rcases h with rfl | rfl | rfl | rfl | rfl | rfl | rfl | rfl
  all_goals rfl

/-- A predicate applies `LIKE` to its first argument and to a pattern in brackets. The pattern
respects the levels just if the second argument does and leaves the additions around it alone. -/
theorem exists_pattern_term {d : Delimiters} (hd : d ∈ patterns) (a b : Sql.Term) :
    ∃ pattern, term d.name [a, b] = .operation "LIKE" a (.bracket pattern) ∧
      (Sql.Term.operation "LIKE" a (.bracket pattern)).tokens =
        a.tokens ++ Sql.tokens d.opening.toList ++ b.tokens ++ Sql.tokens d.closing.toList ∧
      (pattern.Respects ↔ b.Respects ∧ (d.name ≠ "startswith" → 5 < b.leading) ∧
        (d.name ≠ "endswith" → 5 ≤ b.trailing)) := by
  have hl : Sql.level "+" = 5 := rfl
  have hm : "+" ∈ Sql.operations := by decide
  simp only [patterns, List.mem_cons, List.not_mem_nil, or_false] at hd
  rcases hd with rfl | rfl | rfl
  all_goals
    refine ⟨_, rfl, ?_, ?_⟩
    · simp only [Sql.Term.tokens, List.append_assoc, List.cons_append, List.nil_append]
      rfl
    · simp [Sql.Term.Respects, hl, hm, Sql.Term.trailing, and_assoc]

/-- A call is one of an SQL function, with the arguments and the fixed texts around them, and
respects the levels just if the arguments do. -/
def IsCall (d : Delimiters) (arguments : List Sql.Term) : Prop :=
  ∃ function terms, term d.name arguments = .call function terms ∧
    (Sql.Term.call function terms).tokens = Sql.tokens (d.word ++ d.opening).toList ++
      [Token.comma].intercalate ((inEmissionOrder d.name arguments).map Sql.Term.tokens) ++
      Sql.tokens d.closing.toList ∧
    ((Sql.Term.call function terms).Respects ↔ ∀ a ∈ arguments, a.Respects)

theorem respects_cast (t : Sql.Term) (type : String) :
    (Sql.Term.operation "AS" t (.name type)).Respects ↔ t.Respects := by
  constructor
  · exact fun h => h.2.1
  · exact fun h => ⟨by decide, h, trivial, Nat.zero_le _, (by decide : 0 < 7), fun _ => rfl⟩

private theorem isCall_passing {d : Delimiters} (arguments : List Sql.Term)
    (hn : d.name ∈ passing) (hw : Text.upperCase d.name = d.word)
    (ht : Sql.tokens (d.word ++ d.opening).toList = [.name d.word, .opening])
    (hc : Sql.tokens d.closing.toList = [.closing]) : IsCall d arguments := by
  have hi := ne_indexof_of_mem_passing hn
  refine ⟨_, _, term_of_mem_passing hn arguments, ?_, by simp⟩
  rw [hw, ht, hc, Sql.Term.tokens, Sql.Term.argumentTokens_eq_map, inEmissionOrder, if_neg hi]
  rfl

theorem isCall_of_mem_brackets {d : Delimiters} (hd : d ∈ brackets) {arguments : List Sql.Term}
    (hk : IsKnown d.name arguments.length) : IsCall d arguments := by
  simp only [brackets, List.mem_cons, List.not_mem_nil, or_false] at hd
  rcases hd with rfl | hd
  · obtain ⟨a, b, rfl⟩ := List.length_eq_two.mp
      (by simpa [IsKnown, fixedArities, passing] using hk)
    exact ⟨_, _, rfl, rfl, by simp [and_comm]⟩
  rcases hd with rfl | rfl | rfl | rfl | rfl | rfl | rfl | rfl | rfl | rfl | rfl | hd
  iterate 11
    obtain ⟨a, rfl⟩ := List.length_eq_one_iff.mp
      (by simpa [IsKnown, fixedArities, passing] using hk)
    refine ⟨_, _, rfl, ?_, by simp [respects_cast]⟩
    simp only [Sql.Term.tokens, Sql.Term.argumentTokens, inEmissionOrder_singleton, List.map_cons,
      List.map_nil, List.intercalate_cons_cons, List.intercalate_singleton, List.append_assoc,
      List.cons_append, List.nil_append]
    rfl
  rcases hd with rfl | hd
  · obtain rfl := List.length_eq_zero_iff.mp (by simpa [IsKnown, fixedArities, passing] using hk)
    exact ⟨_, _, rfl, rfl, by simp⟩
  rcases hd with rfl | rfl | rfl | rfl | rfl | rfl | rfl | rfl
  all_goals exact isCall_passing _ (by decide) (by decide) rfl rfl

theorem closes_opening_of_mem_patterns {d : Delimiters} (hd : d ∈ patterns) :
    Closes d.opening (Sql.tokens d.opening.toList) ∧
      ∀ s, Skeleton.Delimited (d.opening.toList ++ s) := by
  simp only [patterns, List.mem_cons, List.not_mem_nil, or_false] at hd
  rcases hd with rfl | rfl | rfl
  all_goals exact ⟨fun _ => rfl, by simp [Skeleton.Delimited]⟩

theorem closes_opening_of_mem_brackets {d : Delimiters} (hd : d ∈ brackets) :
    Closes (d.word ++ d.opening) (Sql.tokens (d.word ++ d.opening).toList) := by
  simp only [brackets, List.mem_cons, List.not_mem_nil, or_false] at hd
  rcases hd with rfl | rfl | rfl | rfl | rfl | rfl | rfl | rfl | rfl | rfl | rfl | rfl | rfl | rfl |
    rfl | rfl | rfl | rfl | rfl | rfl | rfl
  all_goals exact fun _ => rfl

theorem closes_closing {d : Delimiters} (hd : d ∈ brackets ++ patterns) :
    Closes d.closing (Sql.tokens d.closing.toList) ∧
      ∀ s, Skeleton.Delimited (d.closing.toList ++ s) := by
  have hc := Skeleton.mem_closings hd
  refine ⟨?_, fun s => (Skeleton.ended_closing hc s).delimited⟩
  simp only [Skeleton.closings, List.mem_cons, List.not_mem_nil, or_false] at hc
  rcases hc with hc | hc | hc | hc | hc
  all_goals
    rw [hc]
    exact fun _ => rfl

/-- The tokens of the text of a call are those of its term. -/
theorem lexes_text {name : String} {texts : List String} {terms : List Sql.Term}
    (hk : IsKnown name texts.length) (h : List.Forall₂ (fun t x => Lexes t x.tokens) texts terms) :
    Lexes (text name texts) (term name terms).tokens := by
  by_cases hn : name ∈ predicates
  · obtain ⟨hl, d, hd, rfl, ht⟩ := exists_pattern hk hn
    obtain ⟨t, u, rfl⟩ := List.length_eq_two.mp hl
    obtain ⟨a, _, ha, hu, rfl⟩ := List.forall₂_cons_left_iff.mp h
    obtain ⟨b, _, hb, hnil, rfl⟩ := List.forall₂_cons_left_iff.mp hu
    obtain rfl := List.forall₂_nil_left_iff.mp hnil
    obtain ⟨ho, hod⟩ := closes_opening_of_mem_patterns hd
    obtain ⟨hc, hcd⟩ := closes_closing (List.mem_append_right brackets hd)
    obtain ⟨pattern, hterm, htokens, _⟩ := exists_pattern_term hd a b
    rw [ht, hterm, htokens]
    exact (((ha.append_closes ho hod).append_lexes hb).append_closes hc hcd).lexes
  · obtain ⟨d, hd, rfl⟩ := mem_brackets_of_isKnown hk hn
    have hkt : IsKnown d.name terms.length := by rwa [← h.length_eq]
    have ha := Sql.lexes_intercalate (List.forall₂_map_right_iff.mpr
      (forall₂_inEmissionOrder d.name h))
    obtain ⟨hc, hcd⟩ := closes_closing (List.mem_append_left patterns hd)
    obtain ⟨function, arguments, hterm, htokens, _⟩ := isCall_of_mem_brackets hd hkt
    rw [text_of_mem_brackets hd hk, hterm, htokens]
    exact (((closes_opening_of_mem_brackets hd).append_lexes ha).append_closes hc hcd).lexes

end FilterClause.Call
