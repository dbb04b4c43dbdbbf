import FilterClause.Clause
import FilterClause.Proofs.Emission.Walk

/-!
# Independence of the literals

No literal reaches the text of a clause. Two expressions that differ in nothing but their constants
other than null are laid out alike, and carrying out such layouts from as many parameters gives the
same text or the same error, whatever the values bound are.
-/

namespace FilterClause

/-- A constant other than null in place of all of them. -/
def Value.blank (v : Value) : Value := if v.isNull then .null else .bool true

theorem Value.isNull_blank (v : Value) : v.blank.isNull = v.isNull := by
  unfold blank
  cases h : v.isNull <;> rfl

namespace Expression

mutual

/-- The expression with the same constant in place of all constants other than null. -/
def blank : Expression → Expression
  | convert source target => convert source.blank target
  | constant v => constant v.blank
  | binary operator left right => binary operator left.blank right.blank
  | unary operator operand => unary operator operand.blank
  | property p => property p
  | call name arguments => call name (blankArguments arguments)
  | collection items => collection (blankArguments items)
  | lambda quantifier source parameter predicate =>
    lambda quantifier source.blank parameter predicate.blank
  | rangeVariable name => rangeVariable name

def blankArguments : List Expression → List Expression
  | [] => []
  | e :: es => e.blank :: blankArguments es

end

theorem blankArguments_eq_map (es : List Expression) : blankArguments es = es.map blank := by
  induction es with
  | nil => rfl
  | cons e es ih => simp [blankArguments, ih]

theorem kindName_blank (e : Expression) : e.blank.kindName = e.kindName := by
  cases e <;> rfl

theorem isPredicateCall_blank (e : Expression) : e.blank.isPredicateCall = e.isPredicateCall := by
  cases e <;> rfl

theorem isNull_unwrap_blank (e : Expression) : e.blank.unwrap.isNull = e.unwrap.isNull := by
  induction e with
  | convert source target ih => exact ih
  | constant v => cases v <;> rfl
  | _ => rfl

end Expression

namespace Fragment

def blank : Fragment → Fragment
  | bound v => bound v.blank
  | f => f

theorem map_blank_commaSeparated (parts : List (List Fragment)) :
    (commaSeparated parts).map blank = commaSeparated (parts.map (List.map blank)) := by
  induction parts with
  | nil => rfl
  | cons part parts ih =>
    cases parts with
    | nil => rfl
    | cons part' parts =>
      simp only [commaSeparated, List.map_append, List.map_cons, ih]
      rfl

theorem map_blank_form (form : FunctionForm) (arguments : List (List Fragment)) :
    (form.fragments arguments).map blank = form.fragments (arguments.map (List.map blank)) := by
  cases form with
  | passing name =>
    simp only [FunctionForm.fragments, List.map_append, List.map_cons, map_blank_commaSeparated]
    rfl
  | template arity parts =>
    simp only [FunctionForm.fragments, List.map_flatMap]
    congr 1
    funext part
    cases part with
    | text t => rfl
    | argument index =>
      simp only [TemplatePart.fragments, List.getD_eq_getElem?_getD, List.getElem?_map]
      cases arguments[index]? <;> rfl

end Fragment

namespace Expression

open Fragment

theorem map_blank_operatorFragment (operator : BinaryOperator) (left right : Expression) :
    (operatorFragment operator left right).blank =
      operatorFragment operator left.blank right.blank := by
  have ht : operator.tokenFor? left.blank right.blank = operator.tokenFor? left right := by
    rw [BinaryOperator.tokenFor?, BinaryOperator.tokenFor?, isPredicateCall_blank,
      isNull_unwrap_blank]
  rw [operatorFragment, operatorFragment, ht]
  cases operator.tokenFor? left right <;> rfl

private theorem blank_of_shallow {depth : ℕ} {e : Expression}
    (h : ¬maxDepth ≤ depth →
      e.blank.fragments depth = (e.fragments depth).map Fragment.blank) :
    e.blank.fragments depth = (e.fragments depth).map Fragment.blank := by
  by_cases hd : maxDepth ≤ depth
  · rw [fragments.eq_def, fragments.eq_def, if_pos hd, if_pos hd, kindName_blank]
    rfl
  · exact h hd

/-- The layout depends on the constants in nothing but the values to be bound. -/
theorem fragments_blank (depth : ℕ) (e : Expression) :
    e.blank.fragments depth = (e.fragments depth).map Fragment.blank := by
  refine blank_of_shallow fun hd => ?_
  induction e generalizing depth with
  | convert source target ih =>
    rw [blank, fragments, fragments, if_neg hd, if_neg hd]
    exact blank_of_shallow (ih (depth + 1))
  | constant v =>
    rw [blank, fragments, fragments, if_neg hd, if_neg hd, constantFragment, constantFragment,
      Value.isNull_blank]
    split <;> rfl
  | binary operator left right ihl ihr =>
    have hl := blank_of_shallow (ihl (depth + 1))
    have hr := blank_of_shallow (ihr (depth + 1))
    rw [blank, fragments, fragments, if_neg hd, if_neg hd, hl, hr, ← map_blank_operatorFragment]
    simp only [List.map_append, List.map_cons]
    rfl
  | unary operator operand ih =>
    have ho := blank_of_shallow (ih (depth + 1))
    rw [blank, fragments, fragments, if_neg hd, if_neg hd, ho]
    cases operator <;> rfl
  | call name arguments ih =>
    have ha : arguments.map (fragments (depth + 1) ∘ blank) =
        arguments.map (List.map Fragment.blank ∘ fragments (depth + 1)) :=
      List.map_congr_left fun a ha => blank_of_shallow (ih a ha (depth + 1))
    rw [blank, fragments, fragments, if_neg hd, if_neg hd, blankArguments_eq_map,
      List.length_map, argumentFragments_eq_map, argumentFragments_eq_map, List.map_map, ha,
      ← List.map_map]
    cases FunctionForm.ofCall? name arguments.length with
    | some form => exact (map_blank_form form _).symm
    | none => rfl
  | collection items | lambda q s x p =>
    rw [blank, fragments, fragments, if_neg hd, if_neg hd]
    rfl
  | property p | rangeVariable x =>
    rw [blank, fragments, if_neg hd]
    rfl

end Expression

/-- As many parameters of the same style, whatever their values are. -/
structure Parameters.Alike (p p' : Parameters) : Prop where
  style_eq : p.style = p'.style
  size_eq : p.size = p'.size

theorem Parameters.Alike.append {p p' : Parameters} (h : p.Alike p') (v v' : Value) :
    (p.append v).Alike (p'.append v') := by
  constructor
  · exact h.style_eq
  · rw [size_append, size_append, h.size_eq]

theorem Parameters.Alike.nextPlaceholder_eq {p p' : Parameters} (h : p.Alike p') :
    p.nextPlaceholder = p'.nextPlaceholder := by
  rw [nextPlaceholder, nextPlaceholder, h.style_eq, h.size_eq]

/-- The same text or the same error, and as many parameters. -/
structure Outcome.Alike {σ : Type} (o o' : Outcome σ) : Prop where
  result_eq : o.result = o'.result
  parameters : o.parameters.Alike o'.parameters
  state_eq : o.state = o'.state

theorem Outcome.Alike.precede {σ : Type} {o o' : Outcome σ} (h : o.Alike o') (text : String) :
    (o.precede text).Alike (o'.precede text) := by
  constructor
  · exact congrArg (Except.map (text ++ ·)) h.result_eq
  · exact h.parameters
  · exact h.state_eq

/-- Layouts that differ in nothing but the values to be bound are carried out alike. -/
theorem Fragment.alike_carryOut {σ : Type} (resolve : Resolver σ) {fs fs' : List Fragment}
    (h : fs.map blank = fs'.map blank) (state : σ) {p p' : Parameters} (hp : p.Alike p') :
    (carryOut resolve fs state p).Alike (carryOut resolve fs' state p') := by
  induction fs generalizing fs' state p p' with
  | nil =>
    obtain rfl := List.map_eq_nil_iff.mp h.symm
    exact ⟨rfl, hp, rfl⟩
  | cons f fs ih =>
    obtain ⟨f', fs', rfl, hf, hfs⟩ := List.map_eq_cons_iff.mp h.symm
    have hrest := fun state p p' hp => @ih fs' hfs.symm state p p' hp
    cases f with
    | text t =>
      cases f' <;> cases hf
      exact (hrest state p p' hp).precede t
    | bound v =>
      cases f' with
      | bound v' =>
        rw [carryOut, carryOut, hp.nextPlaceholder_eq]
        exact (hrest state _ _ (hp.append v v')).precede _
      | _ => cases hf
    | column q =>
      cases f' <;> cases hf
      rw [carryOut, carryOut]
      split
      · exact (hrest _ p p' hp).precede _
      · exact ⟨rfl, hp, rfl⟩
    | refusal e =>
      cases f' <;> cases hf
      exact ⟨rfl, hp, rfl⟩

namespace Expression

variable {σ : Type}

theorem alike_emit {e e' : Expression} (h : e.blank = e'.blank) (resolve : Resolver σ) (state : σ)
    {p p' : Parameters} (hp : p.Alike p') :
    (e.emit resolve state p).Alike (e'.emit resolve state p') := by
  apply Fragment.alike_carryOut resolve _ state hp
  rw [← fragments_blank, ← fragments_blank, h]

/-- Emission and the building of clauses tell nothing of the values of constants other than null,
nor of the values of the parameters given: the text is the same, or the error with its message, and
as many values are bound. -/
theorem emit_noninterference (resolve : Resolver σ) (state : σ) {p p' : Parameters}
    (hp : p.Alike p') :
    (∀ e e' : Expression, e.blank = e'.blank →
      (e.emit resolve state p).Alike (e'.emit resolve state p')) ∧
    ∀ (keyword : String) (filter filter' : Option Expression),
      filter.map blank = filter'.map blank →
      (Clause.build ⟨keyword, ⟨filter⟩, resolve⟩ state p).Alike
        (Clause.build ⟨keyword, ⟨filter'⟩, resolve⟩ state p') := by
  refine ⟨fun e e' h => alike_emit h resolve state hp, ?_⟩
  intro keyword filter filter' h
  cases filter with
  | none =>
    obtain rfl := Option.map_eq_none_iff.mp h.symm
    exact ⟨rfl, hp, rfl⟩
  | some e =>
    obtain ⟨e', rfl, he⟩ := Option.map_eq_some_iff.mp h.symm
    exact (alike_emit he.symm resolve state hp).precede _

theorem emit_noninterference_quotes :
    let e : Expression := .binary .equal (.property ⟨none, "a"⟩) (.constant (.text "x' OR 1=1 --"))
    let e' : Expression := .binary .equal (.property ⟨none, "a"⟩) (.constant (.blob [0, 255]))
    let p : Parameters := ⟨.dollar, [.text "y"]⟩
    let p' : Parameters := ⟨.dollar, [.null]⟩
    let o := Clause.build ⟨"where", ⟨some e⟩, .ofFunction Property.plainColumn?⟩ () p
    let o' := Clause.build ⟨"where", ⟨some e'⟩, .ofFunction Property.plainColumn?⟩ () p'
    p.Alike p' ∧ e.blank = e'.blank ∧ o.result = .ok "WHERE (a = $2)" ∧ o.result = o'.result ∧
      o.parameters.size = o'.parameters.size := by
  intro e e' p p' o o'
  have hp : p.Alike p' := ⟨rfl, rfl⟩
  have he : e.blank = e'.blank := rfl
  have ho : o.Alike o' :=
    (emit_noninterference (.ofFunction Property.plainColumn?) () hp).2 "where" (some e) (some e')
      (congrArg some he)
  exact ⟨hp, he, by decide, ho.result_eq, ho.parameters.size_eq⟩

end Expression

end FilterClause
