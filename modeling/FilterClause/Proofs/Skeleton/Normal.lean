import FilterClause.Proofs.Call.Delimiters
import FilterClause.Proofs.Skeleton

/-!
# Normal skeletons

A negation is not parenthesised, and neither is the first argument of a predicate. So a negated
first argument has the text of a negated predicate, and the normal skeleton is the latter. The
skeletons of expressions are legible if the columns are plain: their normal form is determined by
their text.
-/

namespace FilterClause.Skeleton

/-- A call with the negations of its first argument outside of it. -/
def hoist (name : String) : Skeleton → List Skeleton → Skeleton
  | not operand, rest => not (hoist name operand rest)
  | subject, rest => call name (subject :: rest)

/-- A call of normal arguments. -/
def normalCall (name : String) : List Skeleton → Skeleton
  | [] => call name []
  | subject :: rest =>
    if name ∈ Call.predicates then hoist name subject rest else call name (subject :: rest)

mutual

/-- The skeleton with negated predicates in place of predicates of negated first arguments. -/
def normal : Skeleton → Skeleton
  | null => null
  | hole => hole
  | column name => column name
  | binary word left right => binary word left.normal right.normal
  | not operand => not operand.normal
  | call name arguments => normalCall name (normalArguments arguments)

def normalArguments : List Skeleton → List Skeleton
  | [] => []
  | k :: ks => k.normal :: normalArguments ks

end

theorem normalArguments_eq_map (ks : List Skeleton) : normalArguments ks = ks.map normal := by
  induction ks with
  | nil => rfl
  | cons k ks ih => simp [normalArguments, ih]

theorem normal_call (name : String) (ks : List Skeleton) :
    (call name ks).normal = normalCall name (ks.map normal) := by
  rw [normal, normalArguments_eq_map]

/-- An ASCII letter or digit, or one of the marks within the name of a column. -/
def isColumnChar (c : Char) : Bool := c.isAlphanum || c ∈ ['_', '.', '[', ']']

structure IsPlainColumn (name : String) : Prop where
  ne_empty : name ≠ ""
  all_isColumnChar : ∀ c ∈ name.toList, isColumnChar c
  ne_null : name ≠ "NULL"
  ne_not : name ≠ "NOT"

def words : List String :=
  ["OR", "AND", "=", "<>", ">", ">=", "<", "<=", "+", "-", "*", "/", "%", "IS NOT", "IS"]

/-- The skeletons that can be read back. -/
inductive Legible : Skeleton → Prop where
  | null : Legible null
  | hole : Legible hole
  | column {name} (h : IsPlainColumn name) : Legible (column name)
  | binary {word left right} (hw : word ∈ words) (hn : word = "IS" → right = .null)
      (hl : Legible left) (hr : Legible right) : Legible (binary word left right)
  | not {operand} (h : Legible operand) : Legible (not operand)
  | call {name arguments} (hk : Call.IsKnown name arguments.length)
      (ha : ∀ a ∈ arguments, Legible a) : Legible (call name arguments)

/-- Two skeletons have the same text, wherever their holes are numbered from. -/
structure SameText (k l : Skeleton) : Prop where
  holes_eq : k.holes = l.holes
  text_eq : ∀ write n, k.text write n = l.text write n

theorem SameText.rfl {k : Skeleton} : SameText k k := ⟨.refl _, fun _ _ => .refl _⟩

theorem SameText.trans {k l m : Skeleton} (h : SameText k l) (h' : SameText l m) : SameText k m :=
  ⟨h.holes_eq.trans h'.holes_eq, fun write n => (h.text_eq write n).trans (h'.text_eq write n)⟩

theorem SameText.not {k l : Skeleton} (h : SameText k l) : SameText (.not k) (.not l) := by
  constructor
  · exact h.holes_eq
  · intro write n
    rw [text, text, h.text_eq]

theorem argumentHoles_congr {ks ls : List Skeleton} (h : List.Forall₂ SameText ks ls) :
    argumentHoles ks = argumentHoles ls := by
  induction h with
  | nil => rfl
  | cons hk _ ih => rw [argumentHoles, argumentHoles, hk.holes_eq, ih]

theorem argumentTexts_congr {ks ls : List Skeleton} (h : List.Forall₂ SameText ks ls)
    (write : ℕ → String) (fromLast : Bool) (n : ℕ) :
    argumentTexts write fromLast n ks = argumentTexts write fromLast n ls := by
  induction h generalizing n with
  | nil => rfl
  | cons hk hks ih =>
    rw [argumentTexts, argumentTexts, hk.text_eq, hk.holes_eq, argumentHoles_congr hks, ih]

theorem sameText_call {name : String} {ks ls : List Skeleton} (h : List.Forall₂ SameText ks ls) :
    SameText (call name ks) (call name ls) := by
  constructor
  · exact argumentHoles_congr h
  · intro write n
    rw [text, text, argumentTexts_congr h]

/-- A negation in front of the first argument of a predicate reads as one of the predicate. -/
theorem sameText_not_call {name : String} (hk : Call.IsKnown name 2) (hn : name ∈ Call.predicates)
    (subject argument : Skeleton) :
    SameText (.not (call name [subject, argument])) (call name [.not subject, argument]) := by
  obtain ⟨_, d, _, _, ht⟩ := Call.exists_pattern hk hn
  have hi := Call.ne_indexof_of_mem_predicates hn
  constructor
  · rfl
  · intro write n
    simp [text, argumentTexts, hi, ht, holes, String.append_assoc]

theorem sameText_hoist {name : String} (hk : Call.IsKnown name 2) (hn : name ∈ Call.predicates)
    (subject argument : Skeleton) :
    SameText (hoist name subject [argument]) (call name [subject, argument]) := by
  induction subject with
  | not operand ih => exact ih.not.trans (sameText_not_call hk hn operand argument)
  | null | hole | column _ | binary _ _ _ _ _ | call _ _ _ => exact .rfl

/-- The normal skeleton has the same text. -/
theorem Legible.sameText_normal {k : Skeleton} (h : k.Legible) : SameText k.normal k := by
  induction h with
  | null | hole | column h => exact .rfl
  | binary hw hn hl hr ihl ihr =>
    constructor
    · rw [normal, holes, holes, ihl.holes_eq, ihr.holes_eq]
    · intro write n
      rw [normal, text, text, ihl.text_eq, ihl.holes_eq, ihr.text_eq]
  | not h ih => exact ih.not
  | @call name arguments hk ha ih =>
    rw [normal_call]
    have hs : SameText (.call name (arguments.map normal)) (.call name arguments) :=
      sameText_call (List.forall₂_map_left_iff.mpr (List.forall₂_same.mpr ih))
    by_cases hn : name ∈ Call.predicates
    · obtain ⟨hl, _⟩ := Call.exists_pattern hk hn
      obtain ⟨subject, argument, rfl⟩ := List.length_eq_two.mp hl
      simp only [List.map_cons, List.map_nil, normalCall, if_pos hn] at hs ⊢
      exact (sameText_hoist hk hn _ _).trans hs
    · cases arguments with
      | nil => exact hs
      | cons a as => simpa only [List.map_cons, normalCall, if_neg hn] using hs

end FilterClause.Skeleton
