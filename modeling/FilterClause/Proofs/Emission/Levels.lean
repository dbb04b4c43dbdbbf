import FilterClause.Proofs.Emission.Walk

/-!
# Emission on different levels

An expression that stands below fewer nodes has the same fragments, except that a refusal for the
depth may be lifted: what is laid out on the deeper level is what is laid out on the higher one, or
breaks off with that refusal. So nothing changes for whoever is not refused for the depth.
-/

namespace FilterClause

namespace Fragment

/-- The fragments are the same, unless the first ones break off with a refusal for the depth. -/
inductive CutShort : List Fragment → List Fragment → Prop where
  | nil : CutShort [] []
  | cut (kind : String) (rest fs : List Fragment) : CutShort (refusal (.depth kind) :: rest) fs
  | cons (f : Fragment) {fs fs' : List Fragment} (h : CutShort fs fs') :
    CutShort (f :: fs) (f :: fs')

namespace CutShort

theorem rfl {fs : List Fragment} : CutShort fs fs := by
  induction fs with
  | nil => exact .nil
  | cons f fs ih => exact .cons f ih

theorem append {xs xs' ys ys' : List Fragment} (hx : CutShort xs xs') (hy : CutShort ys ys') :
    CutShort (xs ++ ys) (xs' ++ ys') := by
  induction hx with
  | nil => exact hy
  | cut kind rest fs => exact .cut kind _ _
  | cons f _ ih => exact .cons f ih

theorem commaSeparated {parts parts' : List (List Fragment)}
    (h : List.Forall₂ CutShort parts parts') :
    CutShort (Fragment.commaSeparated parts) (Fragment.commaSeparated parts') := by
  induction h with
  | nil => exact .nil
  | cons hp hps ih =>
    cases hps with
    | nil => exact hp
    | cons hp' hps => exact hp.append (.cons _ ih)

/-- A call is cut short where its arguments are, whatever its form. -/
theorem form {parts parts' : List (List Fragment)} (h : List.Forall₂ CutShort parts parts')
    (form : FunctionForm) : CutShort (form.fragments parts) (form.fragments parts') := by
  cases form with
  | passing name => exact .cons _ ((commaSeparated h).append .rfl)
  | template arity places =>
    have hargument (index : ℕ) : CutShort (parts.getD index []) (parts'.getD index []) := by
      induction h generalizing index with
      | nil => exact .nil
      | cons hp _ ih =>
        cases index with
        | zero => exact hp
        | succ index => exact ih index
    simp only [FunctionForm.fragments]
    induction places with
    | nil => exact .nil
    | cons place places ih =>
      rw [List.flatMap_cons, List.flatMap_cons]
      refine append ?_ ih
      cases place with
      | text t => exact .rfl
      | argument index => exact hargument index

/-- What is cut off is refused for the depth as soon as it is reached, so fragments that are not
refused for the depth are carried out like the ones that they are cut from. -/
theorem carryOut_eq {σ : Type} {resolve : Resolver σ} {fs fs' : List Fragment}
    (h : CutShort fs fs') {state : σ} {parameters : Parameters}
    (hdepth : ∀ kind, (carryOut resolve fs state parameters).result ≠ .error (.depth kind)) :
    carryOut resolve fs' state parameters = carryOut resolve fs state parameters := by
  have hrest {o : Outcome σ} {t : String}
      (ho : ∀ kind, (o.precede t).result ≠ .error (.depth kind)) (kind : String) :
      o.result ≠ .error (.depth kind) := by
    intro hr
    exact ho kind (by rw [Outcome.precede, hr]; rfl)
  induction h generalizing state parameters with
  | nil => exact .refl _
  | cut kind rest fs => exact absurd (.refl _) (hdepth kind)
  | cons f _ ih =>
    cases f with
    | text t =>
      rw [carryOut, carryOut, ih (hrest hdepth)]
    | bound v =>
      rw [carryOut, carryOut, ih (hrest hdepth)]
    | column p =>
      rw [carryOut, carryOut]
      rw [carryOut] at hdepth
      split
      · next c state' hp =>
        rw [hp] at hdepth
        rw [ih (hrest hdepth)]
      · exact .refl _
    | refusal e => exact .refl _

end CutShort

end Fragment

namespace Expression

open Fragment

variable {depth depth' : ℕ}

/-- On a level that is too deep everything is cut short. -/
theorem cutShort_of_shallow {e e' : Expression} (hd : depth' ≤ depth)
    (h : ¬maxDepth ≤ depth → ¬maxDepth ≤ depth' →
      CutShort (e.fragments depth) (e'.fragments depth')) :
    CutShort (e.fragments depth) (e'.fragments depth') := by
  by_cases hdeep : maxDepth ≤ depth
  · rw [fragments.eq_def, if_pos hdeep]
    exact .cut _ _ _
  · exact h hdeep fun hdeep' => hdeep (Nat.le_trans hdeep' hd)

theorem cutShort_convert {source : Expression} {target : Option String} {fs : List Fragment}
    (h : CutShort (source.fragments (depth + 1)) fs) :
    CutShort ((convert source target).fragments depth) fs := by
  by_cases hdeep : maxDepth ≤ depth
  · rw [fragments, if_pos hdeep]
    exact .cut _ _ _
  · rwa [fragments, if_neg hdeep]

/-- A conversion may be put around what stands on a higher level. -/
theorem cutShort_convert_right {e source : Expression} {target : Option String}
    (hd : depth' ≤ depth) (h : CutShort (e.fragments depth) (source.fragments (depth' + 1))) :
    CutShort (e.fragments depth) ((convert source target).fragments depth') := by
  refine cutShort_of_shallow hd fun _ hdeep' => ?_
  have hsource : (convert source target).fragments depth' = source.fragments (depth' + 1) := by
    rw [fragments, if_neg hdeep']
  rwa [hsource]

theorem cutShort_binary {operator : BinaryOperator} {left left' right right' : Expression}
    (hd : depth' ≤ depth)
    (ho : operatorFragment operator left' right' = operatorFragment operator left right)
    (hl : CutShort (left.fragments (depth + 1)) (left'.fragments (depth' + 1)))
    (hr : CutShort (right.fragments (depth + 1)) (right'.fragments (depth' + 1))) :
    CutShort ((binary operator left right).fragments depth)
      ((binary operator left' right').fragments depth') := by
  refine cutShort_of_shallow hd fun hdeep hdeep' => ?_
  rw [fragments, fragments, if_neg hdeep, if_neg hdeep', ho]
  exact (CutShort.append (.cons _ hl) (.cons _ hr)).append .rfl

theorem cutShort_unary {operator : UnaryOperator} {operand operand' : Expression}
    (hd : depth' ≤ depth)
    (h : CutShort (operand.fragments (depth + 1)) (operand'.fragments (depth' + 1))) :
    CutShort ((unary operator operand).fragments depth)
      ((unary operator operand').fragments depth') := by
  refine cutShort_of_shallow hd fun hdeep hdeep' => ?_
  rw [fragments, fragments, if_neg hdeep, if_neg hdeep']
  cases operator with
  | not => exact .cons _ h
  | negate => exact .rfl

theorem cutShort_call {name : String} {arguments arguments' : List Expression}
    (hd : depth' ≤ depth)
    (h : List.Forall₂
      (fun a a' => CutShort (a.fragments (depth + 1)) (a'.fragments (depth' + 1)))
      arguments arguments') :
    CutShort ((call name arguments).fragments depth) ((call name arguments').fragments depth') := by
  refine cutShort_of_shallow hd fun hdeep hdeep' => ?_
  rw [fragments, fragments, if_neg hdeep, if_neg hdeep', h.length_eq, argumentFragments_eq_map,
    argumentFragments_eq_map]
  cases FunctionForm.ofCall? name arguments'.length with
  | none => exact .rfl
  | some form =>
    exact .form (List.forall₂_map_left_iff.mpr (List.forall₂_map_right_iff.mpr h)) form

/-- On a higher level an expression has the same fragments, unless it was refused for its depth. -/
theorem cutShort_fragments (e : Expression) (hd : depth' ≤ depth) :
    CutShort (e.fragments depth) (e.fragments depth') := by
  induction e generalizing depth depth' with
  | convert source target ih =>
    refine cutShort_of_shallow hd fun hdeep hdeep' => ?_
    rw [fragments, fragments, if_neg hdeep, if_neg hdeep']
    exact ih (Nat.succ_le_succ hd)
  | binary operator left right ihl ihr =>
    exact cutShort_binary hd rfl (ihl (Nat.succ_le_succ hd)) (ihr (Nat.succ_le_succ hd))
  | unary operator operand ih => exact cutShort_unary hd (ih (Nat.succ_le_succ hd))
  | call name arguments ih =>
    exact cutShort_call hd (List.forall₂_same.mpr fun a ha => ih a ha (Nat.succ_le_succ hd))
  | constant v | property p | collection items | lambda q s x p | rangeVariable x =>
    refine cutShort_of_shallow hd fun hdeep hdeep' => ?_
    rw [fragments, fragments, if_neg hdeep, if_neg hdeep']
    exact .rfl

end Expression

end FilterClause
