import FilterClause.Proofs.Sql.Token
import Mathlib.Tactic.Common

/-!
# Terms and precedence

A term is a text with the operands of each operation marked out. The operations have levels, from
the loosest to the tightest, and the level of negation is 3, between conjunction and the
comparisons. Operations on one level group from left to right. A negation in front of an operation
on a level above its own takes the whole operation as its operand.
-/

namespace FilterClause.Sql

inductive Term where
  | name (text : String)
  | quoted (text : String)
  | bracket (inner : Term)
  | operation (word : String) (left right : Term)
  | not (operand : Term)
  | call (function : String) (arguments : List Term)

/-- The operations that are written as words. -/
def wordOperations : List String := ["AS", "OR", "AND", "IS", "LIKE"]

def signOperations : List String := ["=", "<>", ">", ">=", "<", "<=", "+", "-", "*", "/", "%"]

def operations : List String := "IS NOT" :: wordOperations ++ signOperations

/-- The level of an operation. All comparisons are on one level, and so are `IS` and `LIKE`. -/
def level : String → ℕ
  | "AS" => 0
  | "OR" => 1
  | "AND" => 2
  | "+" | "-" => 5
  | "*" | "/" | "%" => 6
  | _ => 4

theorem level_lt (word : String) : level word < 7 := by
  unfold level
  split <;> decide

def operationTokens (word : String) : List Token :=
  if word = "IS NOT" then [.keyword "IS", .keyword "NOT"]
  else if word ∈ wordOperations then [.keyword word]
  else [.operator word]

namespace Term

@[elab_as_elim, induction_eliminator]
theorem induction {motive : Term → Prop} (name : ∀ text, motive (.name text))
    (quoted : ∀ text, motive (.quoted text))
    (bracket : ∀ inner, motive inner → motive (.bracket inner))
    (operation : ∀ word left right, motive left → motive right →
      motive (.operation word left right))
    (not : ∀ operand, motive operand → motive (.not operand))
    (call : ∀ function arguments, (∀ a ∈ arguments, motive a) → motive (.call function arguments))
    (t : Term) : motive t := by
  refine @Term.rec motive (fun ts => ∀ a ∈ ts, motive a) name quoted bracket operation not call
    (by simp) ?_ t
  intro a ts ha hts b hb
  rcases List.mem_cons.mp hb with rfl | hb
  · exact ha
  · exact hts b hb

mutual

def tokens : Term → List Token
  | name text => [.name text]
  | quoted text => [.quoted text]
  | bracket inner => .opening :: inner.tokens ++ [.closing]
  | operation word left right => left.tokens ++ operationTokens word ++ right.tokens
  | not operand => .keyword "NOT" :: operand.tokens
  | call function arguments =>
    .name function :: .opening :: [.comma].intercalate (argumentTokens arguments) ++ [.closing]

def argumentTokens : List Term → List (List Token)
  | [] => []
  | t :: ts => t.tokens :: argumentTokens ts

end

theorem argumentTokens_eq_map (ts : List Term) : argumentTokens ts = ts.map tokens := by
  induction ts with
  | nil => rfl
  | cons t ts ih => rw [argumentTokens, ih, List.map_cons]

/-- The term may be the operand behind an operation of any level below this one. -/
def leading : Term → ℕ
  | operation word _ _ => level word
  | name _ | quoted _ | bracket _ | not _ | call _ _ => 7

@[simp] theorem leading_quoted (text : String) : (quoted text).leading = 7 := rfl

@[simp] theorem leading_operation (word : String) (left right : Term) :
    (operation word left right).leading = level word := rfl

/-- The term may be the operand in front of an operation of any level up to this one. Behind a
negation that is not in brackets, a tighter operation belongs to the operand of the negation. -/
def trailing : Term → ℕ
  | operation word _ right => min (level word) right.trailing
  | not operand => min 3 operand.trailing
  | name _ | quoted _ | bracket _ | call _ _ => 7

def isNot : Term → Bool
  | not _ => true
  | name _ | quoted _ | bracket _ | operation _ _ _ | call _ _ => false

mutual

/-- Every operation applies to the operands that it has by the levels. A negation behind `IS` would
be read as part of it. -/
def Respects : Term → Prop
  | name _ | quoted _ => True
  | bracket inner => inner.Respects
  | operation word left right =>
    word ∈ operations ∧ left.Respects ∧ right.Respects ∧ level word ≤ left.trailing ∧
      level word < right.leading ∧ (word = "IS" → right.isNot = false)
  | not operand => operand.Respects ∧ 3 < operand.leading
  | call _ arguments => ArgumentsRespect arguments

def ArgumentsRespect : List Term → Prop
  | [] => True
  | t :: ts => t.Respects ∧ ArgumentsRespect ts

end

theorem argumentsRespect_iff {ts : List Term} : ArgumentsRespect ts ↔ ∀ t ∈ ts, t.Respects := by
  induction ts with
  | nil => simp [ArgumentsRespect]
  | cons t ts ih => rw [ArgumentsRespect, ih, List.forall_mem_cons]

@[simp] theorem respects_name (text : String) : (name text).Respects := trivial

@[simp] theorem respects_call {function : String} {arguments : List Term} :
    (call function arguments).Respects ↔ ∀ a ∈ arguments, a.Respects := argumentsRespect_iff

theorem trailing_le_leading (t : Term) : t.trailing ≤ t.leading := by
  cases t with
  | operation word left right => exact Nat.min_le_left _ _
  | not operand =>
    have h : min 3 operand.trailing ≤ 3 := Nat.min_le_left _ _
    rw [trailing, leading]
    omega
  | name _ | quoted _ | bracket _ | call _ _ => exact Nat.le_refl 7

theorem isNot_eq_false {t : Term} (h : 3 < t.trailing) : t.isNot = false := by
  cases t with
  | not operand => exact absurd h (Nat.not_lt.mpr (Nat.min_le_left _ _))
  | name _ | quoted _ | bracket _ | operation _ _ _ | call _ _ => rfl

end Term

end FilterClause.Sql
