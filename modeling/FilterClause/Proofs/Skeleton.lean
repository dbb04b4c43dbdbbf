import FilterClause.Proofs.Emission.FirstOffence
import Mathlib.Data.List.Forall2

/-!
# Skeletons

What the text of an expression shows of it: conversions are dropped, a constant is a hole or the
word for null, a property is its column, and a binary operation carries the word that was chosen for
it. The text of a skeleton depends on nothing but the number of the first placeholder.
-/

namespace FilterClause

inductive Skeleton where
  | null
  | hole
  | column (name : String)
  | binary (word : String) (left right : Skeleton)
  | not (operand : Skeleton)
  | call (name : String) (arguments : List Skeleton)

namespace Skeleton

@[elab_as_elim, induction_eliminator]
theorem induction {motive : Skeleton → Prop} (null : motive .null) (hole : motive .hole)
    (column : ∀ name, motive (.column name))
    (binary : ∀ word left right, motive left → motive right → motive (.binary word left right))
    (not : ∀ operand, motive operand → motive (.not operand))
    (call : ∀ name arguments, (∀ a ∈ arguments, motive a) → motive (.call name arguments))
    (k : Skeleton) : motive k := by
  refine @Skeleton.rec motive (fun ks => ∀ a ∈ ks, motive a) null hole column binary not call
    (by simp) ?_ k
  intro a ks ha hks b hb
  rcases List.mem_cons.mp hb with rfl | hb
  · exact ha
  · exact hks b hb

mutual

def holes : Skeleton → ℕ
  | null | column _ => 0
  | hole => 1
  | binary _ left right => left.holes + right.holes
  | not operand => operand.holes
  | call _ arguments => argumentHoles arguments

def argumentHoles : List Skeleton → ℕ
  | [] => 0
  | k :: ks => k.holes + argumentHoles ks

end

mutual

/-- The text of a skeleton. A hole is written as its number, which is `n` plus the number of holes
before it in the order of emission. -/
def text (write : ℕ → String) (n : ℕ) : Skeleton → String
  | null => "NULL"
  | hole => write n
  | column name => name
  | binary word left right =>
    "(" ++ left.text write n ++ " " ++ word ++ " " ++ right.text write (n + left.holes) ++ ")"
  | not operand => "NOT " ++ operand.text write n
  | call name arguments =>
    Call.text name (argumentTexts write (name = "indexof") n arguments)

/-- The texts of arguments whose holes are numbered from the first or from the last one on. -/
def argumentTexts (write : ℕ → String) (fromLast : Bool) (n : ℕ) : List Skeleton → List String
  | [] => []
  | k :: ks =>
    k.text write (if fromLast then n + argumentHoles ks else n) ::
      argumentTexts write fromLast (if fromLast then n else n + k.holes) ks

end

end Skeleton

namespace Expression

/-- The null constant under any number of conversions. -/
def isConvertedNull : Expression → Bool
  | convert source _ => source.isConvertedNull
  | constant v => v.isNull
  | binary _ _ _ | unary _ _ | property _ | call _ _ | collection _ | lambda _ _ _ _
  | rangeVariable _ => false

/-- A call of a function whose text is a predicate, not under any conversion. -/
def isPredicate : Expression → Bool
  | call name _ => name ∈ Call.predicates
  | convert _ _ | constant _ | binary _ _ _ | unary _ _ | property _ | collection _
  | lambda _ _ _ _ | rangeVariable _ => false

theorem isNull_unwrap (e : Expression) : e.unwrap.isNull = e.isConvertedNull := by
  induction e with
  | convert source target ih => exact ih
  | constant v => cases v <;> rfl
  | _ => rfl

theorem isPredicateCall_eq (e : Expression) : e.isPredicateCall = e.isPredicate := by
  cases e with
  | call name arguments =>
    rw [isPredicateCall, isPredicate, Bool.or_assoc]
    simp [Call.predicates, Bool.beq_eq_decide_eq]
  | _ => rfl

end Expression

namespace BinaryOperator

/-- The word between two operands. Equality and inequality have words of their own for a null on the
right, under any conversions, unless the left operand is a predicate by itself. -/
def word? (left right : Expression) : BinaryOperator → Option String
  | or => some "OR"
  | and => some "AND"
  | equal => some (if right.isConvertedNull && !left.isPredicate then "IS" else "=")
  | notEqual => some (if right.isConvertedNull && !left.isPredicate then "IS NOT" else "<>")
  | greaterThan => some ">"
  | greaterThanOrEqual => some ">="
  | lessThan => some "<"
  | lessThanOrEqual => some "<="
  | add => some "+"
  | subtract => some "-"
  | multiply => some "*"
  | divide => some "/"
  | modulo => some "%"
  | has => none

theorem tokenFor?_eq (operator : BinaryOperator) (left right : Expression) :
    operator.tokenFor? left right = operator.word? left right := by
  rw [tokenFor?, Expression.isNull_unwrap, Expression.isPredicateCall_eq, Bool.and_comm]
  cases operator <;> simp only [nullToken?, token?, word?, Option.or] <;> split <;> rfl

end BinaryOperator

namespace Expression

variable {column? : Property → Option String}

mutual

/-- The skeleton of an expression, if every node of it has a form in SQL. -/
def skeleton? (column? : Property → Option String) : Expression → Option Skeleton
  | convert source _ => source.skeleton? column?
  | constant v => some (if v.isNull then .null else .hole)
  | binary operator left right => do
    let word ← operator.word? left right
    return .binary word (← left.skeleton? column?) (← right.skeleton? column?)
  | unary .not operand => return .not (← operand.skeleton? column?)
  | unary .negate _ => none
  | property p => return .column (← column? p)
  | call name arguments =>
    if Call.IsKnown name arguments.length then
      return .call name (← argumentSkeletons? column? arguments)
    else none
  | collection _ | lambda _ _ _ _ | rangeVariable _ => none

def argumentSkeletons? (column? : Property → Option String) :
    List Expression → Option (List Skeleton)
  | [] => some []
  | e :: es => return (← e.skeleton? column?) :: (← argumentSkeletons? column? es)

end

theorem argumentSkeletons?_eq_some_iff {es : List Expression} {ks : List Skeleton} :
    argumentSkeletons? column? es = some ks ↔
      List.Forall₂ (fun e k => e.skeleton? column? = some k) es ks := by
  induction es generalizing ks with
  | nil => simp [argumentSkeletons?, eq_comm]
  | cons e es ih =>
    rw [List.forall₂_cons_left_iff]
    simp only [argumentSkeletons?, Option.bind_eq_bind, Option.bind_eq_some_iff, ← ih]
    constructor
    · rintro ⟨k, hk, ks', hks, ⟨⟩⟩
      exact ⟨k, ks', hk, hks, rfl⟩
    · rintro ⟨k, ks', hk, hks, rfl⟩
      exact ⟨k, hk, ks', hks, rfl⟩

theorem skeleton?_binary_eq_some_iff {operator : BinaryOperator} {left right : Expression}
    {k : Skeleton} : (binary operator left right).skeleton? column? = some k ↔
      ∃ word l r, operator.word? left right = some word ∧ left.skeleton? column? = some l ∧
        right.skeleton? column? = some r ∧ k = .binary word l r := by
  simp only [skeleton?, Option.bind_eq_bind, Option.bind_eq_some_iff]
  constructor
  · rintro ⟨word, hw, l, hl, r, hr, ⟨⟩⟩
    exact ⟨word, l, r, hw, hl, hr, rfl⟩
  · rintro ⟨word, l, r, hw, hl, hr, rfl⟩
    exact ⟨word, hw, l, hl, r, hr, rfl⟩

theorem skeleton?_unary_eq_some_iff {operator : UnaryOperator} {operand : Expression}
    {k : Skeleton} : (unary operator operand).skeleton? column? = some k ↔
      operator = .not ∧ ∃ x, operand.skeleton? column? = some x ∧ k = .not x := by
  cases operator with
  | not =>
    simp only [skeleton?, Option.bind_eq_bind, Option.bind_eq_some_iff, true_and]
    exact exists_congr fun x => and_congr_right fun _ => by simp [eq_comm]
  | negate => simp [skeleton?]

theorem skeleton?_property_eq_some_iff {p : Property} {k : Skeleton} :
    (property p).skeleton? column? = some k ↔ ∃ c, column? p = some c ∧ k = .column c := by
  simp only [skeleton?, Option.bind_eq_bind, Option.bind_eq_some_iff]
  exact exists_congr fun c => and_congr_right fun _ => by simp [eq_comm]

theorem skeleton?_call_eq_some_iff {name : String} {arguments : List Expression} {k : Skeleton} :
    (call name arguments).skeleton? column? = some k ↔ Call.IsKnown name arguments.length ∧
      ∃ ks, List.Forall₂ (fun e k => e.skeleton? column? = some k) arguments ks ∧
        k = .call name ks := by
  simp only [skeleton?, Option.bind_eq_bind, Option.ite_none_right_eq_some,
    Option.bind_eq_some_iff, argumentSkeletons?_eq_some_iff]
  exact and_congr_right fun _ => exists_congr fun ks => and_congr_right fun _ => by simp [eq_comm]

mutual

/-- The constants of an expression other than null, in the order of emission. -/
def constants : Expression → List Value
  | convert source _ => source.constants
  | constant v => if v.isNull then [] else [v]
  | binary _ left right => left.constants ++ right.constants
  | unary _ operand => operand.constants
  | call name arguments => (Call.inEmissionOrder name (argumentConstants arguments)).flatten
  | property _ | collection _ | lambda _ _ _ _ | rangeVariable _ => []

def argumentConstants : List Expression → List (List Value)
  | [] => []
  | e :: es => e.constants :: argumentConstants es

end

theorem argumentConstants_eq_map (es : List Expression) :
    argumentConstants es = es.map constants := by
  induction es with
  | nil => rfl
  | cons e es ih => simp [argumentConstants, ih]

theorem ne_null_of_mem_constants {e : Expression} {v : Value} (h : v ∈ e.constants) :
    v ≠ .null := by
  induction e with
  | convert source target ih => exact ih h
  | constant v' =>
    cases v' <;> simp_all [constants, Value.isNull]
  | binary operator left right ihl ihr =>
    rcases List.mem_append.mp h with h | h
    · exact ihl h
    · exact ihr h
  | unary operator operand ih => exact ih h
  | call name arguments ih =>
    rw [constants, argumentConstants_eq_map, ← Call.map_inEmissionOrder] at h
    obtain ⟨values, hm, hv⟩ := List.mem_flatten.mp h
    obtain ⟨a, ha, rfl⟩ := List.mem_map.mp hm
    exact ih a (Call.mem_inEmissionOrder.mp ha) hv
  | property p | collection items | lambda q s x p | rangeVariable x => simp [constants] at h

theorem length_flatten_inEmissionOrder (name : String) (xss : List (List Value)) :
    (Call.inEmissionOrder name xss).flatten.length = xss.flatten.length := by
  unfold Call.inEmissionOrder
  split
  · rw [List.length_flatten, List.map_reverse, List.sum_reverse, List.length_flatten]
  · rfl

theorem argumentHoles_eq {es : List Expression} {ks : List Skeleton}
    (h : List.Forall₂ (fun e k => Skeleton.holes k = e.constants.length) es ks) :
    Skeleton.argumentHoles ks = (es.map constants).flatten.length := by
  induction h with
  | nil => rfl
  | cons he _ ih => simp [Skeleton.argumentHoles, he, ih]

/-- The skeleton has a hole for each constant. -/
theorem holes_eq {e : Expression} {k : Skeleton} (h : e.skeleton? column? = some k) :
    k.holes = e.constants.length := by
  induction e generalizing k with
  | convert source target ih => exact ih h
  | constant v =>
    cases h
    cases v <;> rfl
  | binary operator left right ihl ihr =>
    obtain ⟨word, l, r, _, hl, hr, rfl⟩ := skeleton?_binary_eq_some_iff.mp h
    rw [Skeleton.holes, constants, List.length_append, ihl hl, ihr hr]
  | unary operator operand ih =>
    obtain ⟨_, x, hx, rfl⟩ := skeleton?_unary_eq_some_iff.mp h
    rw [Skeleton.holes, constants, ih hx]
  | property p =>
    obtain ⟨c, _, rfl⟩ := skeleton?_property_eq_some_iff.mp h
    rfl
  | call name arguments ih =>
    obtain ⟨_, ks, hks, rfl⟩ := skeleton?_call_eq_some_iff.mp h
    have ha := (List.forall₂_and_left _ _).mpr ⟨ih, hks⟩
    rw [Skeleton.holes, constants, length_flatten_inEmissionOrder, argumentConstants_eq_map,
      argumentHoles_eq (ha.imp fun _ _ h => h.1 h.2)]
  | collection items | lambda q s x p | rangeVariable x => cases h

end Expression

end FilterClause
