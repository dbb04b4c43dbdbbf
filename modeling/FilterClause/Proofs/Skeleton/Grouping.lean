import FilterClause.Proofs.Call.Grouping

/-!
# The grouping of skeletons

The term that shows what each operation of a skeleton applies to. Binary operations are in brackets,
negations and predicates are not. The term is written from left to right as the text is.
-/

namespace FilterClause.Skeleton

mutual

/-- The skeleton as a term, with its holes written as in the text. -/
def term (write : ℕ → String) (n : ℕ) : Skeleton → Sql.Term
  | null => .name "NULL"
  | hole => .name (write n)
  | column name => .name name
  | binary word left right =>
    .bracket (.operation word (left.term write n) (right.term write (n + left.holes)))
  | not operand => .not (operand.term write n)
  | call name arguments =>
    Call.term name (argumentTerms write (name = "indexof") n arguments)

def argumentTerms (write : ℕ → String) (fromLast : Bool) (n : ℕ) : List Skeleton → List Sql.Term
  | [] => []
  | k :: ks =>
    k.term write (if fromLast then n + argumentHoles ks else n) ::
      argumentTerms write fromLast (if fromLast then n else n + k.holes) ks

end

theorem forall₂_argumentTerms {R : String → Sql.Term → Prop} {write : ℕ → String}
    {ks : List Skeleton} (h : ∀ k ∈ ks, ∀ n, R (k.text write n) (k.term write n)) (fromLast : Bool)
    (n : ℕ) :
    List.Forall₂ R (argumentTexts write fromLast n ks) (argumentTerms write fromLast n ks) := by
  induction ks generalizing n with
  | nil => exact .nil
  | cons k ks ih =>
    exact .cons (h k (by simp) _) (ih (fun l hl => h l (by simp [hl])) _)

theorem length_argumentTerms (write : ℕ → String) (fromLast : Bool) (n : ℕ) (ks : List Skeleton) :
    (argumentTerms write fromLast n ks).length = ks.length := by
  induction ks generalizing n with
  | nil => rfl
  | cons k ks ih => simp [argumentTerms, ih]

theorem closes_word {word : String} (h : word ∈ words) :
    Sql.Closes (" " ++ word ++ " ") (Sql.operationTokens word) ∧
      ∀ s, Delimited ((" " ++ word ++ " ").toList ++ s) := by
  refine ⟨?_, fun s => (ended_word h s).delimited⟩
  simp only [words, List.mem_cons, List.not_mem_nil, or_false] at h
  rcases h with rfl | rfl | rfl | rfl | rfl | rfl | rfl | rfl | rfl | rfl | rfl | rfl | rfl |
    rfl | rfl
  all_goals exact fun _ => rfl

theorem lexes_binary {word : String} (hw : word ∈ words) {left right : Skeleton}
    {write : ℕ → String} {n : ℕ}
    (hl : Sql.Lexes (left.text write n) (left.term write n).tokens)
    (hr : Sql.Lexes (right.text write (n + left.holes))
      (right.term write (n + left.holes)).tokens) :
    Sql.Lexes ((binary word left right).text write n)
      ((binary word left right).term write n).tokens := by
  obtain ⟨hc, hd⟩ := closes_word hw
  have ho : Sql.Closes "(" [.opening] := fun _ => rfl
  have hcl : Sql.Closes ")" [.closing] := fun _ => rfl
  have ht : (binary word left right).text write n =
      "(" ++ left.text write n ++ (" " ++ word ++ " ") ++ right.text write (n + left.holes) ++
        ")" := by
    simp [text, String.append_assoc]
  have hb := (((ho.append_lexes hl).append_closes hc hd).append_lexes hr).append_closes hcl
    fun s => (ended_bracket s).delimited
  rw [ht, term]
  simpa [Sql.Term.tokens] using hb.lexes

/-- The term of a call is a pattern match on its first argument or a call of an SQL function. -/
inductive CallShape (write : ℕ → String) (n : ℕ) (name : String) :
    List Skeleton → Sql.Term → Prop where
  | predicate {subject argument pattern m} (hn : name ∈ Call.predicates)
      (hp : pattern.Respects ↔ (argument.term write m).Respects ∧
        (name ≠ "startswith" → 5 < (argument.term write m).leading) ∧
        (name ≠ "endswith" → 5 ≤ (argument.term write m).trailing)) :
      CallShape write n name [subject, argument]
        (.operation "LIKE" (subject.term write n) (.bracket pattern))
  | function {ks function terms} (hn : name ∉ Call.predicates)
      (ht : (Sql.Term.call function terms).Respects ↔
        ∀ a ∈ argumentTerms write (name = "indexof") n ks, a.Respects) :
      CallShape write n name ks (.call function terms)

theorem callShape_term {name : String} {ks : List Skeleton} (hk : Call.IsKnown name ks.length)
    (write : ℕ → String) (n : ℕ) :
    CallShape write n name ks ((call name ks).term write n) := by
  rw [term]
  by_cases hn : name ∈ Call.predicates
  · obtain ⟨hl, d, hd, rfl, _⟩ := Call.exists_pattern hk hn
    obtain ⟨subject, argument, rfl⟩ := List.length_eq_two.mp hl
    have hi := Call.ne_indexof_of_mem_predicates hn
    simp only [hi, decide_false, argumentTerms]
    obtain ⟨pattern, ht, _, hr⟩ := Call.exists_pattern_term hd (subject.term write n)
      (argument.term write (n + subject.holes))
    exact ht ▸ .predicate hn hr
  · obtain ⟨d, hd, rfl⟩ := Call.mem_brackets_of_isKnown hk hn
    have hl : Call.IsKnown d.name
        (argumentTerms write (d.name = "indexof") n ks).length := by
      rwa [Skeleton.length_argumentTerms]
    obtain ⟨function, terms, ht, _, hr⟩ := Call.isCall_of_mem_brackets hd hl
    exact ht ▸ .function hn hr

end FilterClause.Skeleton
