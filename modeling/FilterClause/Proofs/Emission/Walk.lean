import FilterClause.Proofs.Call
import FilterClause.Proofs.Expression.Structure

/-!
# The walk through an expression

Emission meets the constants, the properties and the offences of an expression in a fixed order,
here the list of its events. The list is complete: it goes on after an offence as if nothing had
stopped there. Emission runs through it up to the first offence, so its parameters, its error and
the state of its resolver depend on nothing else. The first offence is characterised for resolvers
that are functions.
-/

namespace FilterClause

/-- What the walk through an expression meets. -/
inductive Event where
  /-- A constant other than null. -/
  | constant (value : Value)
  | access (property : Property)
  | offence (error : EmissionError)

namespace Expression

/-- The offences met on entering a node, the nesting first. The root is on level 1. -/
def entryEvents (level : ℕ) (e : Expression) : List Event :=
  (if 256 < level then [.offence (.depth e.kindName)] else []) ++
    match e with
    | unary .negate _ => [.offence (.operator "Negate")]
    | call name arguments =>
      if Call.IsKnown name arguments.length then []
      else [.offence (.function name arguments.length)]
    | collection _ => [.offence (.node "Collection")]
    | lambda _ _ _ _ => [.offence (.node "Lambda")]
    | rangeVariable _ => [.offence (.node "RangeVariable")]
    | _ => []

mutual

/-- The events of an expression whose root is on the given level, in the order of emission. -/
def events (level : ℕ) (e : Expression) : List Event :=
  e.entryEvents level ++
    match e with
    | convert source _ => source.events (level + 1)
    | constant v => if v.isNull then [] else [.constant v]
    | binary operator left right =>
      left.events (level + 1) ++ (if operator = .has then [.offence (.operator "Has")] else []) ++
        right.events (level + 1)
    | unary _ operand => operand.events (level + 1)
    | property p => [.access p]
    | call name arguments =>
      (Call.inEmissionOrder name (argumentEvents (level + 1) arguments)).flatten
    | collection _ | lambda _ _ _ _ | rangeVariable _ => []

def argumentEvents (level : ℕ) : List Expression → List (List Event)
  | [] => []
  | e :: es => e.events level :: argumentEvents level es

end

theorem argumentEvents_eq_map (level : ℕ) (es : List Expression) :
    argumentEvents level es = es.map (events level) := by
  induction es with
  | nil => rfl
  | cons e es ih => simp [argumentEvents, ih]

theorem argumentFragments_eq_map (depth : ℕ) (es : List Expression) :
    argumentFragments depth es = es.map (fragments depth) := by
  induction es with
  | nil => rfl
  | cons e es ih => simp [argumentFragments, ih]

end Expression

namespace Fragment

/-- What a fragment means to the walk; a text means nothing. -/
def event? : Fragment → Option Event
  | text _ => none
  | bound v => some (.constant v)
  | column p => some (.access p)
  | refusal e => some (.offence e)

theorem filterMap_commaSeparated (parts : List (List Fragment)) :
    (commaSeparated parts).filterMap event? = (parts.map (List.filterMap event?)).flatten := by
  induction parts with
  | nil => rfl
  | cons part parts ih =>
    cases parts with
    | nil => simp [commaSeparated]
    | cons part' parts => simp_all [commaSeparated, event?, List.filterMap_cons]

/-- The events of a call are those of its arguments, whatever its form. -/
theorem filterMap_call {name : String} {arguments : List (List Fragment)} {form : FunctionForm}
    (h : FunctionForm.ofCall? name arguments.length = some form) :
    (form.fragments arguments).filterMap event? =
      (Call.inEmissionOrder name (arguments.map (List.filterMap event?))).flatten := by
  generalize hc : arguments.length = count at h
  cases Call.formOf_ofCall? h with
  | predicate hn _ =>
    obtain ⟨a, b, rfl⟩ := List.length_eq_two.mp hc
    simp [FunctionForm.fragments, TemplatePart.fragments, Call.inEmissionOrder, hn, event?,
      List.filterMap_cons]
  | swapped hn _ =>
    obtain ⟨a, b, rfl⟩ := List.length_eq_two.mp hc
    simp [FunctionForm.fragments, TemplatePart.fragments, Call.inEmissionOrder, hn, event?,
      List.filterMap_cons]
  | around hn _ =>
    obtain ⟨a, rfl⟩ := List.length_eq_one_iff.mp hc
    simp [FunctionForm.fragments, FunctionForm.around, TemplatePart.fragments,
      Call.inEmissionOrder, hn, event?, List.filterMap_cons]
  | constant hn _ =>
    obtain rfl := List.length_eq_zero_iff.mp hc
    simp [FunctionForm.fragments, TemplatePart.fragments, Call.inEmissionOrder, hn, event?,
      List.filterMap_cons]
  | passing _ hn _ =>
    simp [FunctionForm.fragments, Call.inEmissionOrder, hn, event?, List.filterMap_cons,
      filterMap_commaSeparated]

theorem filterMap_binary (left right : List Fragment) (operator : Fragment) :
    (text "(" :: left ++ operator :: right ++ [text ")"]).filterMap event? =
      left.filterMap event? ++ [operator].filterMap event? ++ right.filterMap event? := by
  cases operator <;> simp [event?, List.filterMap_cons]

end Fragment

namespace Event

/-- The events up to the first offence. -/
def untilOffence : List Event → List Event
  | [] => []
  | offence e :: _ => [offence e]
  | x :: xs => x :: untilOffence xs

/-- The same events are met before something stops the walk, and the same offence stops it. -/
def Agree (xs ys : List Event) : Prop := untilOffence xs = untilOffence ys

theorem untilOffence_append_left (xs ys : List Event) :
    untilOffence (untilOffence xs ++ ys) = untilOffence (xs ++ ys) := by
  induction xs with
  | nil => rfl
  | cons x xs ih => cases x <;> simp [untilOffence, ih]

theorem untilOffence_append_right (xs ys : List Event) :
    untilOffence (xs ++ untilOffence ys) = untilOffence (xs ++ ys) := by
  induction xs with
  | nil =>
    have h := untilOffence_append_left ys []
    simpa using h
  | cons x xs ih => cases x <;> simp [untilOffence, ih]

theorem Agree.append {xs xs' ys ys' : List Event} (hx : Agree xs xs') (hy : Agree ys ys') :
    Agree (xs ++ ys) (xs' ++ ys') := by
  unfold Agree at *
  rw [← untilOffence_append_left, hx, untilOffence_append_left, ← untilOffence_append_right, hy,
    untilOffence_append_right]

theorem agree_offence (e : EmissionError) (xs ys : List Event) :
    Agree (offence e :: xs) (offence e :: ys) := rfl

theorem agree_flatten_map {α : Type} {xs : List α} {f g : α → List Event}
    (h : ∀ a ∈ xs, Agree (f a) (g a)) : Agree (xs.map f).flatten (xs.map g).flatten := by
  induction xs with
  | nil => rfl
  | cons x xs ih =>
    have hx := h x (by simp)
    have hxs := ih fun a ha => h a (by simp [ha])
    simpa using hx.append hxs

end Event

namespace Expression

open Event Fragment

private theorem agree_of_shallow {depth : ℕ} {e : Expression}
    (h : ¬maxDepth ≤ depth → ¬256 < depth + 1 →
      Agree ((e.fragments depth).filterMap event?) (e.events (depth + 1))) :
    Agree ((e.fragments depth).filterMap event?) (e.events (depth + 1)) := by
  by_cases hf : maxDepth ≤ depth
  · have hl : 256 < depth + 1 := Nat.lt_succ_of_le hf
    rw [fragments.eq_def, if_pos hf, events.eq_def, entryEvents.eq_def, if_pos hl]
    exact agree_offence _ _ _
  · exact h hf fun hl => hf (Nat.le_of_lt_succ hl)

private theorem event?_operatorFragment (operator : BinaryOperator) (left right : Expression) :
    [operatorFragment operator left right].filterMap event? =
      if operator = .has then [.offence (.operator "Has")] else [] := by
  by_cases h : (!left.isPredicateCall && right.unwrap.isNull) = true <;>
    cases operator <;>
      simp [operatorFragment, BinaryOperator.tokenFor?, h, BinaryOperator.nullToken?,
        BinaryOperator.token?, BinaryOperator.name, event?, List.filterMap_cons]

/-- The fragments of an expression are its events, up to the first refusal. -/
theorem agree_fragments (depth : ℕ) (e : Expression) :
    Agree ((e.fragments depth).filterMap event?) (e.events (depth + 1)) := by
  refine agree_of_shallow fun hf hl => ?_
  induction e generalizing depth with
  | convert source target ih =>
    rw [fragments, if_neg hf, events, entryEvents.eq_def, if_neg hl]
    exact agree_of_shallow (ih (depth + 1))
  | constant v =>
    rw [fragments, if_neg hf, events, entryEvents.eq_def, if_neg hl, constantFragment]
    split <;> rfl
  | binary operator left right ihl ihr =>
    have hl' := agree_of_shallow (ihl (depth + 1))
    have hr' := agree_of_shallow (ihr (depth + 1))
    rw [fragments, if_neg hf, events, entryEvents.eq_def, if_neg hl, filterMap_binary,
      event?_operatorFragment]
    exact (hl'.append rfl).append hr'
  | unary operator operand ih =>
    rw [fragments, if_neg hf, events, entryEvents.eq_def, if_neg hl]
    cases operator with
    | not => exact agree_of_shallow (ih (depth + 1))
    | negate => rfl
  | call name arguments ih =>
    rw [fragments, if_neg hf, events, entryEvents.eq_def, if_neg hl]
    have hk := Call.isSome_ofCall?_iff name arguments.length
    cases hc : FunctionForm.ofCall? name arguments.length with
    | none =>
      simp only [hc, Option.isSome_none, Bool.false_eq_true, false_iff] at hk
      simp only [hk]
      exact agree_offence _ _ _
    | some form =>
      simp only [hc, Option.isSome_some, true_iff] at hk
      simp only [hk, if_true, List.nil_append]
      rw [argumentFragments_eq_map, filterMap_call (by simpa using hc), argumentEvents_eq_map,
        List.map_map, ← Call.map_inEmissionOrder, ← Call.map_inEmissionOrder]
      exact agree_flatten_map fun a ha =>
        agree_of_shallow (ih a (Call.mem_inEmissionOrder.mp ha) (depth + 1))
  | property p | collection items | lambda q s x p | rangeVariable x =>
    rw [fragments, if_neg hf, events, entryEvents.eq_def, if_neg hl]
    rfl

end Expression

namespace Event

variable {σ : Type}

/-- Walk through events up to the first one that stops the walk: its error, the parameters and the
state of the resolver. -/
def run (resolve : Resolver σ) :
    List Event → σ → Parameters → Option EmissionError × Parameters × σ
  | [], state, parameters => (none, parameters, state)
  | constant v :: xs, state, parameters => run resolve xs state (parameters.append v)
  | access p :: xs, state, parameters =>
    match resolve p state with
    | (some _, state) => run resolve xs state parameters
    | (none, state) => (some (.column p), parameters, state)
  | offence e :: _, state, parameters => (some e, parameters, state)

theorem run_untilOffence (resolve : Resolver σ) (xs : List Event) (state : σ)
    (parameters : Parameters) :
    run resolve (untilOffence xs) state parameters = run resolve xs state parameters := by
  induction xs generalizing state parameters with
  | nil => rfl
  | cons x xs ih =>
    cases x with
    | constant v => exact ih state (parameters.append v)
    | access p =>
      rw [untilOffence, run, run]
      split
      · exact ih _ parameters
      · rfl
      · simp
    | offence e => rfl

theorem Agree.run_eq {xs ys : List Event} (h : Agree xs ys) (resolve : Resolver σ) (state : σ)
    (parameters : Parameters) :
    run resolve xs state parameters = run resolve ys state parameters := by
  rw [← run_untilOffence, h, run_untilOffence]

end Event

namespace Outcome

variable {σ : Type}

def error? (o : Outcome σ) : Option EmissionError :=
  match o.result with
  | .ok _ => none
  | .error e => some e

/-- An outcome without its text. -/
def walk (o : Outcome σ) : Option EmissionError × Parameters × σ :=
  (o.error?, o.parameters, o.state)

theorem walk_eq_none_iff {o : Outcome σ} {parameters : Parameters} {state : σ} :
    o.walk = (none, parameters, state) ↔
      (∃ sql, o.result = .ok sql) ∧ o.parameters = parameters ∧ o.state = state := by
  cases h : o.result <;> simp [walk, error?, h]

theorem walk_eq_some_iff {o : Outcome σ} {error : EmissionError} {parameters : Parameters}
    {state : σ} : o.walk = (some error, parameters, state) ↔
      o.result = .error error ∧ o.parameters = parameters ∧ o.state = state := by
  cases h : o.result <;> simp [walk, error?, h]

@[simp] theorem walk_precede (text : String) (o : Outcome σ) : (o.precede text).walk = o.walk := by
  unfold walk error? precede
  cases o.result <;> rfl

end Outcome

theorem Fragment.walk_carryOut {σ : Type} (resolve : Resolver σ) (fragments : List Fragment)
    (state : σ) (parameters : Parameters) :
    (carryOut resolve fragments state parameters).walk =
      Event.run resolve (fragments.filterMap event?) state parameters := by
  induction fragments generalizing state parameters with
  | nil => rfl
  | cons f fs ih =>
    cases f with
    | text t => simpa [carryOut, event?, List.filterMap_cons] using ih state parameters
    | bound v =>
      simpa [carryOut, event?, List.filterMap_cons, Event.run] using ih state (parameters.append v)
    | column p =>
      rcases h : resolve p state with ⟨_ | c, state'⟩
      · simp [carryOut, event?, Event.run, h, Outcome.walk, Outcome.error?]
      · simpa [carryOut, event?, List.filterMap_cons, Event.run, h] using ih state' parameters
    | refusal e => rfl

/-- Emission walks through the events of the expression. -/
theorem Expression.walk_emit {σ : Type} (e : Expression) (resolve : Resolver σ) (state : σ)
    (parameters : Parameters) :
    (e.emit resolve state parameters).walk =
      Event.run resolve (e.events 1) state parameters := by
  rw [emit, Fragment.walk_carryOut]
  exact (agree_fragments 0 e).run_eq resolve state parameters

end FilterClause
