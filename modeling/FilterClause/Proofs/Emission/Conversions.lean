import FilterClause.Proofs.Emission.Levels
import FilterClause.Proofs.Skeleton
import Mathlib.Logic.Relation

/-!
# Conversions

Conversions leave no trace in the text of a clause, but for one: a predicate call that is compared
with null is taken for a value as soon as it is under a conversion. So an expression may be emitted
without its conversions, if such a call keeps one of them, and nothing changes where conversions are
added, removed or changed, if such a call stays under some or under none. Each conversion counts for
the depth, so this is said of expressions that are not refused for it.
-/

namespace FilterClause

namespace BinaryOperator

/-- An equality or inequality with the null constant, under any conversions of that. -/
def comparesNull (operator : BinaryOperator) (right : Expression) : Bool :=
  (operator = .equal || operator = .notEqual) && right.isConvertedNull

/-- Of its operands the word between them shows only whether they are a predicate and null. -/
theorem word?_congr {operator : BinaryOperator} {left left' right right' : Expression}
    (hr : right'.isConvertedNull = right.isConvertedNull)
    (hl : operator.comparesNull right → left'.isPredicate = left.isPredicate) :
    operator.word? left' right' = operator.word? left right := by
  cases operator with
  | equal | notEqual =>
    rw [word?, word?, hr]
    cases hn : right.isConvertedNull with
    | false => rfl
    | true => rw [hl (by simp [comparesNull, hn])]
  | _ => rfl

end BinaryOperator

namespace Expression

open Fragment

/-- The number of conversions around an expression. -/
def conversions : Expression → ℕ
  | convert source _ => source.conversions + 1
  | constant _ | binary _ _ _ | unary _ _ | property _ | call _ _ | collection _ | lambda _ _ _ _
  | rangeVariable _ => 0

/-- A predicate call under one conversion or more. -/
def isConvertedPredicate (e : Expression) : Bool := !e.isPredicate && e.unwrap.isPredicate

mutual

/-- The expression without its conversions. Only a predicate call that is compared with null keeps
one of those around it, with the target given. -/
def unconverted (target : Option String) : Expression → Expression
  | convert source _ => source.unconverted target
  | constant v => constant v
  | binary operator left right =>
    binary operator
      (if operator.comparesNull right && left.isConvertedPredicate then
        convert (left.unconverted target) target
      else left.unconverted target)
      (right.unconverted target)
  | unary operator operand => unary operator (operand.unconverted target)
  | property p => property p
  | call name arguments => call name (unconvertedItems target arguments)
  | collection items => collection (unconvertedItems target items)
  | lambda quantifier source parameter predicate =>
    lambda quantifier (source.unconverted target) parameter (predicate.unconverted target)
  | rangeVariable name => rangeVariable name

def unconvertedItems (target : Option String) : List Expression → List Expression
  | [] => []
  | e :: es => e.unconverted target :: unconvertedItems target es

end

theorem unconvertedItems_eq_map (target : Option String) (es : List Expression) :
    unconvertedItems target es = es.map (unconverted target) := by
  induction es with
  | nil => rfl
  | cons e es ih => rw [unconvertedItems, ih, List.map_cons]

@[simp] theorem isConvertedNull_unconverted (e : Expression) (target : Option String) :
    (e.unconverted target).isConvertedNull = e.isConvertedNull := by
  induction e with
  | convert source _ ih => exact ih
  | _ => rfl

@[simp] theorem isPredicate_unconverted (e : Expression) (target : Option String) :
    (e.unconverted target).isPredicate = e.unwrap.isPredicate := by
  induction e with
  | convert source _ ih => exact ih
  | _ => rfl

theorem unwrap_of_isPredicate {e : Expression} (h : e.isPredicate) : e.unwrap = e := by
  cases e <;> first | rfl | cases h

theorem conversions_pos_of_isConvertedPredicate {e : Expression} (h : e.isConvertedPredicate) :
    0 < e.conversions := by
  cases e with
  | convert source _ => exact Nat.succ_pos _
  | _ => simp [isConvertedPredicate, unwrap] at h

/-- The word of an operation stays the same without conversions. -/
theorem word?_unconverted (operator : BinaryOperator) (left right : Expression)
    (target : Option String) :
    operator.word?
        (if operator.comparesNull right && left.isConvertedPredicate then
          convert (left.unconverted target) target
        else left.unconverted target)
        (right.unconverted target) =
      operator.word? left right := by
  refine BinaryOperator.word?_congr (isConvertedNull_unconverted right target) fun hnull => ?_
  rw [hnull, Bool.true_and]
  split
  · next hl =>
    simp only [isConvertedPredicate, Bool.and_eq_true, Bool.not_eq_true'] at hl
    exact hl.1.symm
  · next hl =>
    rw [isPredicate_unconverted]
    cases hp : left.isPredicate with
    | true => rw [unwrap_of_isPredicate hp, hp]
    | false => simpa [isConvertedPredicate, hp] using hl

variable {depth depth' : ℕ}

/-- Without the conversions around it an expression may stand lower by as many levels. Where one
conversion is kept, one at least is dropped, so what is left stands no lower there. -/
theorem cutShort_unconverted (e : Expression) (target : Option String)
    (hd : depth' ≤ depth + e.conversions) :
    CutShort (e.fragments depth) ((e.unconverted target).fragments depth') := by
  induction e generalizing depth depth' with
  | convert source _ ih =>
    refine cutShort_convert (ih ?_)
    rw [conversions] at hd
    omega
  | binary operator left right ihl ihr =>
    have hword := word?_unconverted operator left right target
    have hr := ihr (Nat.le_trans (Nat.succ_le_succ hd) (Nat.le_add_right _ _))
    rw [unconverted]
    refine cutShort_binary hd ?_ ?_ hr
    · simp only [operatorFragment, BinaryOperator.tokenFor?_eq, hword]
    · split
      · next hkept =>
        have hpos := conversions_pos_of_isConvertedPredicate (Bool.and_eq_true_iff.mp hkept).2
        exact cutShort_convert_right (Nat.succ_le_succ hd) (ihl (by rw [conversions] at hd; omega))
      · exact ihl (Nat.le_trans (Nat.succ_le_succ hd) (Nat.le_add_right _ _))
  | unary operator operand ih =>
    exact cutShort_unary hd (ih (Nat.le_trans (Nat.succ_le_succ hd) (Nat.le_add_right _ _)))
  | call name arguments ih =>
    rw [unconverted, unconvertedItems_eq_map]
    refine cutShort_call hd (List.forall₂_map_right_iff.mpr (List.forall₂_same.mpr fun a ha => ?_))
    exact ih a ha (Nat.le_trans (Nat.succ_le_succ hd) (Nat.le_add_right _ _))
  | constant v | property p | collection items | lambda q s x p | rangeVariable x =>
    refine cutShort_of_shallow hd fun hdeep hdeep' => ?_
    rw [unconverted, fragments, fragments, if_neg hdeep, if_neg hdeep']
    exact .rfl

/-- One conversion is added, removed or changed. A predicate call at the left of a comparison with
null stays under a conversion or under none. -/
inductive Reconverts : Expression → Expression → Prop where
  | insert (e : Expression) (target : Option String) : Reconverts e (convert e target)
  | remove (e : Expression) (target : Option String) : Reconverts (convert e target) e
  | retarget (e : Expression) (target target' : Option String) :
    Reconverts (convert e target) (convert e target')
  | convert {e e' : Expression} (h : Reconverts e e') (target : Option String) :
    Reconverts (convert e target) (convert e' target)
  | left {operator : BinaryOperator} {left left' right : Expression} (h : Reconverts left left')
    (hp : operator.comparesNull right → left.isPredicate = left'.isPredicate) :
    Reconverts (binary operator left right) (binary operator left' right)
  | right (operator : BinaryOperator) (left : Expression) {right right' : Expression}
    (h : Reconverts right right') :
    Reconverts (binary operator left right) (binary operator left right')
  | operand (operator : UnaryOperator) {e e' : Expression} (h : Reconverts e e') :
    Reconverts (unary operator e) (unary operator e')
  | argument (name : String) (before after : List Expression) {e e' : Expression}
    (h : Reconverts e e') :
    Reconverts (call name (before ++ e :: after)) (call name (before ++ e' :: after))
  | item (before after : List Expression) {e e' : Expression} (h : Reconverts e e') :
    Reconverts (collection (before ++ e :: after)) (collection (before ++ e' :: after))
  | source (quantifier : Quantifier) (parameter : String) (predicate : Expression)
    {e e' : Expression} (h : Reconverts e e') :
    Reconverts (lambda quantifier e parameter predicate) (lambda quantifier e' parameter predicate)
  | predicate (quantifier : Quantifier) (source : Expression) (parameter : String)
    {e e' : Expression} (h : Reconverts e e') :
    Reconverts (lambda quantifier source parameter e) (lambda quantifier source parameter e')

/-- Such a change makes no difference without conversions. -/
theorem Reconverts.unconverted_eq {e e' : Expression} (h : Reconverts e e')
    (target : Option String) : e.unconverted target = e'.unconverted target := by
  induction h with
  | insert e _ | remove e _ | retarget e _ _ => rfl
  | convert _ _ ih => exact ih
  | @left operator left left' right _ hp ih =>
    have hunwrap := congrArg isPredicate ih
    rw [isPredicate_unconverted, isPredicate_unconverted] at hunwrap
    rw [unconverted, unconverted, ih]
    cases hnull : operator.comparesNull right with
    | false => rfl
    | true => rw [isConvertedPredicate, isConvertedPredicate, hp hnull, hunwrap]
  | right operator left _ ih =>
    have hnull := congrArg isConvertedNull ih
    rw [isConvertedNull_unconverted, isConvertedNull_unconverted] at hnull
    rw [unconverted, unconverted, ih, BinaryOperator.comparesNull, BinaryOperator.comparesNull,
      hnull]
  | operand _ _ ih | source _ _ _ _ ih | predicate _ _ _ _ ih => rw [unconverted, unconverted, ih]
  | argument _ before after _ ih | item before after _ ih =>
    rw [unconverted, unconverted, unconvertedItems_eq_map, unconvertedItems_eq_map,
      List.map_append, List.map_append, List.map_cons, List.map_cons, ih]

/-- An expression that is not refused for the depth may be emitted without its conversions, and
nothing changes where conversions are added, removed or changed. -/
theorem emit_unconverted {σ : Type} (e : Expression) (resolve : Resolver σ) (state : σ)
    (parameters : Parameters)
    (hdepth : ∀ kind, (e.emit resolve state parameters).result ≠ .error (.depth kind)) :
    (∀ target,
      (e.unconverted target).emit resolve state parameters = e.emit resolve state parameters) ∧
    ∀ e', Relation.ReflTransGen Reconverts e e' →
      (∀ kind, (e'.emit resolve state parameters).result ≠ .error (.depth kind)) →
        e'.emit resolve state parameters = e.emit resolve state parameters := by
  have hemit (x : Expression) (target : Option String)
      (hx : ∀ kind, (x.emit resolve state parameters).result ≠ .error (.depth kind)) :
      (x.unconverted target).emit resolve state parameters = x.emit resolve state parameters :=
    (x.cutShort_unconverted target (Nat.zero_le _)).carryOut_eq hx
  refine ⟨fun target => hemit e target hdepth, fun e' hsteps hdepth' => ?_⟩
  have hsame : e'.unconverted none = e.unconverted none := by
    clear hdepth'
    induction hsteps with
    | refl => rfl
    | tail _ hstep ih => rw [← hstep.unconverted_eq none, ih]
  rw [← hemit e' none hdepth', hsame, hemit e none hdepth]

theorem emit_unconverted_contains :
    let contains : Expression :=
      .call "contains" [.property ⟨none, "Name"⟩, .convert (.constant (.text "x")) none]
    let null : Expression := .convert (.constant .null) (some "Edm.Boolean")
    let e : Expression := .binary .equal (.convert (.convert contains none) none) null
    let e' : Expression := .binary .equal (.convert contains (some "Edm.Boolean")) null
    let emit (e : Expression) : Outcome Unit :=
      e.emit (.ofFunction Property.plainColumn?) () (.empty .atP)
    (∀ kind, (emit e).result ≠ .error (.depth kind)) ∧
      (emit e).result = .ok "(Name LIKE ('%' + @p0 + '%') IS NULL)" ∧
      e.unconverted none = .binary .equal
        (.convert (.call "contains" [.property ⟨none, "Name"⟩, .constant (.text "x")]) none)
        (.constant .null) ∧
      emit (e.unconverted none) = emit e ∧ emit e' = emit e ∧
      (emit (.binary .equal contains null)).result =
        .ok "(Name LIKE ('%' + @p0 + '%') = NULL)" := by
  intro contains null e e' emit
  have hresult : (emit e).result = .ok "(Name LIKE ('%' + @p0 + '%') IS NULL)" := rfl
  have hdepth (kind : String) : (emit e).result ≠ .error (.depth kind) := by
    rw [hresult]
    exact nofun
  have hdepth' (kind : String) : (emit e').result ≠ .error (.depth kind) := by
    have hresult' : (emit e').result = .ok "(Name LIKE ('%' + @p0 + '%') IS NULL)" := rfl
    rw [hresult']
    exact nofun
  have hsteps : Relation.ReflTransGen Reconverts e e' :=
    .tail (.single (.left (.remove _ none) fun _ => rfl))
      (.left (.retarget contains none (some "Edm.Boolean")) fun _ => rfl)
  obtain ⟨hunconverted, hreconverted⟩ :=
    emit_unconverted e (.ofFunction Property.plainColumn?) () (.empty .atP) hdepth
  exact ⟨hdepth, hresult, rfl, hunconverted none, hreconverted e' hsteps hdepth', rfl⟩

end Expression

end FilterClause
