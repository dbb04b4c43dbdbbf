import FilterClause.Emission
import FilterClause.Text.UpperCase
import Mathlib.Data.List.Basic
import Mathlib.Data.List.Forall2
import Mathlib.Tactic.Common

/-!
# Calls of functions

The functions by name, with the number of their arguments and the text of a call, apart from the
templates that write the calls. Every known call has a form, and the form writes that text.
-/

namespace FilterClause.Call

open TemplatePart

/-- The functions with a fixed number of arguments. -/
def fixedArities : List (String × ℕ) :=
  [("contains", 2), ("startswith", 2), ("endswith", 2), ("indexof", 2), ("trim", 1), ("hour", 1),
    ("minute", 1), ("second", 1), ("date", 1), ("time", 1), ("totaloffsetminutes", 1),
    ("totalseconds", 1), ("length", 1), ("tolower", 1), ("toupper", 1), ("now", 0)]

/-- The functions that pass on any arguments. -/
def passing : List String :=
  ["substring", "concat", "year", "month", "day", "round", "floor", "ceiling"]

def IsKnown (name : String) (count : ℕ) : Prop := (name, count) ∈ fixedArities ∨ name ∈ passing

instance (name : String) (count : ℕ) : Decidable (IsKnown name count) :=
  inferInstanceAs (Decidable (_ ∨ _))

/-- The functions whose text is a predicate. -/
def predicates : List String := ["contains", "startswith", "endswith"]

/-- The arguments are written in their order, but those of `indexof` from last to first. -/
def inEmissionOrder {α : Type} (name : String) (arguments : List α) : List α :=
  if name = "indexof" then arguments.reverse else arguments

@[simp] theorem map_inEmissionOrder {α β : Type} (f : α → β) (name : String) (xs : List α) :
    (inEmissionOrder name xs).map f = inEmissionOrder name (xs.map f) := by
  unfold inEmissionOrder
  split <;> simp

@[simp] theorem mem_inEmissionOrder {α : Type} {name : String} {xs : List α} {x : α} :
    x ∈ inEmissionOrder name xs ↔ x ∈ xs := by
  unfold inEmissionOrder
  split <;> simp

@[simp] theorem inEmissionOrder_inEmissionOrder {α : Type} (name : String) (xs : List α) :
    inEmissionOrder name (inEmissionOrder name xs) = xs := by
  unfold inEmissionOrder
  split <;> simp

@[simp] theorem inEmissionOrder_eq_nil_iff {α : Type} {name : String} {xs : List α} :
    inEmissionOrder name xs = [] ↔ xs = [] := by
  unfold inEmissionOrder
  split <;> simp

@[simp] theorem inEmissionOrder_singleton {α : Type} (name : String) (x : α) :
    inEmissionOrder name [x] = [x] := by
  unfold inEmissionOrder
  split <;> rfl

theorem forall₂_inEmissionOrder {α β : Type} {R : α → β → Prop} (name : String) {xs : List α}
    {ys : List β} (h : List.Forall₂ R xs ys) :
    List.Forall₂ R (inEmissionOrder name xs) (inEmissionOrder name ys) := by
  unfold inEmissionOrder
  split
  · exact List.rel_reverse h
  · exact h

theorem ne_indexof_of_mem_passing {name : String} (h : name ∈ passing) : name ≠ "indexof" := by
  rintro rfl
  simp [passing] at h

theorem ne_indexof_of_mem_predicates {name : String} (h : name ∈ predicates) :
    name ≠ "indexof" := by
  rintro rfl
  simp [predicates] at h

/-- The text of a call, from the texts of its arguments. -/
def text : String → List String → String
  | "contains", [a, b] => a ++ " LIKE ('%' + " ++ b ++ " + '%')"
  | "startswith", [a, b] => a ++ " LIKE (" ++ b ++ " + '%')"
  | "endswith", [a, b] => a ++ " LIKE ('%' + " ++ b ++ ")"
  | "indexof", [a, b] => "CHARINDEX(" ++ b ++ ", " ++ a ++ ")"
  | "trim", [a] => "LTRIM(RTRIM(" ++ a ++ "))"
  | "hour", [a] => "DATEPART(hour, " ++ a ++ ")"
  | "minute", [a] => "DATEPART(minute, " ++ a ++ ")"
  | "second", [a] => "DATEPART(second, " ++ a ++ ")"
  | "date", [a] => "CAST(" ++ a ++ " AS date)"
  | "time", [a] => "CAST(" ++ a ++ " AS time)"
  | "totaloffsetminutes", [a] => "DATEPART(TZoffset, " ++ a ++ ")"
  | "totalseconds", [a] => "DATEDIFF(second, 0, " ++ a ++ ")"
  | "length", [a] => "LEN(" ++ a ++ ")"
  | "tolower", [a] => "LOWER(" ++ a ++ ")"
  | "toupper", [a] => "UPPER(" ++ a ++ ")"
  | "now", [] => "GETUTCDATE()"
  | name, arguments => Text.upperCase name ++ "(" ++ ", ".intercalate arguments ++ ")"

@[simp] theorem admits_passing (name : String) (count : ℕ) :
    (FunctionForm.passing name).admits count := rfl

@[simp] theorem admits_template (arity count : ℕ) (parts : List TemplatePart) :
    (FunctionForm.template arity parts).admits count ↔ count = arity := by
  rw [FunctionForm.admits, beq_iff_eq]
  exact eq_comm

theorem isSome_ofCall?_iff (name : String) (count : ℕ) :
    (FunctionForm.ofCall? name count).isSome ↔ IsKnown name count := by
  rw [FunctionForm.ofCall?, Option.isSome_filter]
  unfold FunctionForm.ofName?
  split <;>
    simp_all [FunctionForm.around, IsKnown, fixedArities, passing]

theorem text_of_mem_passing {name : String} (h : name ∈ passing) (arguments : List String) :
    text name arguments = Text.upperCase name ++ "(" ++ ", ".intercalate arguments ++ ")" := by
  unfold text
  split <;> first | rfl | simp [passing] at h

/-- The forms of the functions, with the text that a call has. -/
inductive FormOf (name : String) : ℕ → FunctionForm → Prop where
  | predicate {opening closing : String} (hn : name ≠ "indexof")
      (ht : ∀ a b, text name [a, b] = a ++ opening ++ b ++ closing) :
      FormOf name 2 (.template 2 [argument 0, .text opening, argument 1, .text closing])
  | swapped {before between after : String} (hn : name = "indexof")
      (ht : ∀ a b, text name [a, b] = before ++ b ++ between ++ a ++ after) :
      FormOf name 2
        (.template 2 [.text before, argument 1, .text between, argument 0, .text after])
  | around {before after : String} (hn : name ≠ "indexof")
      (ht : ∀ a, text name [a] = before ++ a ++ after) : FormOf name 1 (.around before after)
  | constant {sql : String} (hn : name ≠ "indexof") (ht : text name [] = sql) :
      FormOf name 0 (.template 0 [.text sql])
  | passing {sql : String} (count : ℕ) (hn : name ≠ "indexof")
      (ht : ∀ arguments, text name arguments = sql ++ "(" ++ ", ".intercalate arguments ++ ")") :
      FormOf name count (.passing sql)

theorem formOf_passing {name sql : String} (count : ℕ) (h : name ∈ passing)
    (hu : Text.upperCase name = sql) : FormOf name count (.passing sql) := by
  subst hu
  exact .passing count (ne_indexof_of_mem_passing h) (text_of_mem_passing h)

theorem formOf_ofCall? {name : String} {count : ℕ} {form : FunctionForm}
    (h : FunctionForm.ofCall? name count = some form) : FormOf name count form := by
  rw [FunctionForm.ofCall?, Option.filter_eq_some_iff] at h
  obtain ⟨h, hc⟩ := h
  unfold FunctionForm.ofName? at h
  split at h <;> cases h <;>
    simp only [FunctionForm.around, admits_template, admits_passing] at hc <;>
    first | subst hc | clear hc
  case h_1 | h_2 | h_3 => exact .predicate (by decide) fun _ _ => rfl
  case h_4 => exact .swapped rfl fun _ _ => rfl
  case h_16 => exact .constant (by decide) rfl
  case h_17 | h_18 | h_19 | h_20 | h_21 | h_22 | h_23 | h_24 =>
    exact formOf_passing _ (by decide) (by decide)
  all_goals exact .around (by decide) fun _ => rfl

end FilterClause.Call
