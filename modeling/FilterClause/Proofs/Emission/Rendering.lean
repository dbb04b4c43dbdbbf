import FilterClause.Proofs.Emission.Domain
import FilterClause.Proofs.Skeleton

/-!
# The text of an expression

Carrying out fragments numbers the placeholders by the parameters bound so far. Without a state the
number of a placeholder is that of the constants before it, and the text is the one of the skeleton.
-/

namespace FilterClause

theorem Outcome.result_precede_eq_ok_iff {σ : Type} {t sql : String} {o : Outcome σ} :
    (o.precede t).result = .ok sql ↔ ∃ rest, o.result = .ok rest ∧ sql = t ++ rest := by
  cases h : o.result <;> simp [precede, Except.map, h, eq_comm]

namespace Fragment

variable {σ : Type} {column? : Property → Option String}

def isBound : Fragment → Bool
  | bound _ => true
  | text _ | column _ | refusal _ => false

/-- The number of placeholders. -/
def places (fragments : List Fragment) : ℕ := fragments.countP isBound

/-- The text of fragments whose placeholders are numbered from `n` on. -/
def written (column? : Property → Option String) (write : ℕ → String) : ℕ → List Fragment → String
  | _, [] => ""
  | n, text t :: rest => t ++ written column? write n rest
  | n, bound _ :: rest => write n ++ written column? write (n + 1) rest
  | n, column p :: rest => (column? p).getD "" ++ written column? write n rest
  | n, refusal _ :: rest => written column? write n rest

@[simp] theorem places_append (xs ys : List Fragment) : places (xs ++ ys) = places xs + places ys :=
  List.countP_append

@[simp] theorem places_nil : places [] = 0 := rfl

@[simp] theorem places_text_cons (t : String) (xs : List Fragment) :
    places (text t :: xs) = places xs := List.countP_cons_of_neg (by simp [isBound])

theorem written_append (write : ℕ → String) (n : ℕ) (xs ys : List Fragment) :
    written column? write n (xs ++ ys) =
      written column? write n xs ++ written column? write (n + places xs) ys := by
  induction xs generalizing n with
  | nil => simp [written]
  | cons x xs ih =>
    cases x with
    | bound v =>
      have hp : places (bound v :: xs) = places xs + 1 := List.countP_cons_of_pos rfl
      have hn : n + (places xs + 1) = n + 1 + places xs := by omega
      simp [written, ih, hp, hn, String.append_assoc]
    | _ => simp [written, ih, places, isBound, String.append_assoc]

/-- Carrying out fragments numbers the placeholders by the parameters before them. -/
theorem carryOut_eq_ok {fragments : List Fragment} {state : σ} {parameters : Parameters}
    {sql : String}
    (h : (carryOut (.ofFunction column?) fragments state parameters).result = .ok sql) :
    sql = written column? parameters.style.render parameters.size fragments := by
  induction fragments generalizing parameters sql with
  | nil =>
    cases h
    rfl
  | cons f fs ih =>
    cases f with
    | text t =>
      obtain ⟨rest, hr, rfl⟩ := Outcome.result_precede_eq_ok_iff.mp h
      rw [written, ih hr]
    | bound v =>
      obtain ⟨rest, hr, rfl⟩ := Outcome.result_precede_eq_ok_iff.mp h
      rw [written, ih hr, Parameters.style_append, Parameters.size_append]
      rfl
    | column p =>
      cases hc : column? p with
      | none => simp [carryOut, Resolver.ofFunction, hc] at h
      | some c =>
        simp only [carryOut, Resolver.ofFunction, hc] at h
        obtain ⟨rest, hr, rfl⟩ := Outcome.result_precede_eq_ok_iff.mp h
        rw [written, hc, ih hr]
        rfl
    | refusal e => cases h

/-- The fragments have a placeholder for each hole of the skeleton, and its text. -/
structure Spells (column? : Property → Option String) (fragments : List Fragment) (k : Skeleton) :
    Prop where
  places_eq : places fragments = k.holes
  written_eq : ∀ write n, written column? write n fragments = k.text write n

theorem places_commaSeparated {parts : List (List Fragment)} {ks : List Skeleton}
    (h : List.Forall₂ (Spells column?) parts ks) :
    places (commaSeparated parts) = Skeleton.argumentHoles ks := by
  induction h with
  | nil => rfl
  | cons hp hps ih =>
    cases hps with
    | nil => simp [commaSeparated, Skeleton.argumentHoles, hp.places_eq]
    | cons hp' hps =>
      simp only [commaSeparated, places_append, places_text_cons, hp.places_eq, ih]
      rfl

theorem written_commaSeparated {parts : List (List Fragment)} {ks : List Skeleton}
    (h : List.Forall₂ (Spells column?) parts ks) (write : ℕ → String) (n : ℕ) :
    written column? write n (commaSeparated parts) =
      ", ".intercalate (Skeleton.argumentTexts write false n ks) := by
  induction h generalizing n with
  | nil => rfl
  | cons hp hps ih =>
    cases hps with
    | nil => simp [commaSeparated, Skeleton.argumentTexts, hp.written_eq]
    | cons hp' hps =>
      simp only [commaSeparated, written_append, written, hp.written_eq, hp.places_eq, ih]
      simp [Skeleton.argumentTexts, String.intercalate_cons_cons, String.append_assoc]

/-- A call spells the text of the call, whatever its form. -/
theorem spells_call {name : String} {parts : List (List Fragment)} {ks : List Skeleton}
    {form : FunctionForm} (h : FunctionForm.ofCall? name parts.length = some form)
    (hs : List.Forall₂ (Spells column?) parts ks) :
    Spells column? (form.fragments parts) (.call name ks) := by
  generalize hc : parts.length = count at h
  cases Call.formOf_ofCall? h with
  | predicate hn ht =>
    obtain ⟨a, b, rfl⟩ := List.length_eq_two.mp hc
    rcases hs with _ | @⟨_, k, _, _, ha, _ | @⟨_, l, _, _, hb, ⟨⟩⟩⟩
    constructor
    · simp [FunctionForm.fragments, TemplatePart.fragments, Skeleton.holes, Skeleton.argumentHoles,
        ha.places_eq, hb.places_eq]
    · intro write n
      simp [FunctionForm.fragments, TemplatePart.fragments, written, written_append, Skeleton.text,
        Skeleton.argumentTexts, hn, ht, ha.places_eq, ha.written_eq, hb.written_eq,
        String.append_assoc]
  | swapped hn ht =>
    subst hn
    obtain ⟨a, b, rfl⟩ := List.length_eq_two.mp hc
    rcases hs with _ | @⟨_, k, _, _, ha, _ | @⟨_, l, _, _, hb, ⟨⟩⟩⟩
    constructor
    · simp [FunctionForm.fragments, TemplatePart.fragments, Skeleton.holes, Skeleton.argumentHoles,
        ha.places_eq, hb.places_eq, Nat.add_comm]
    · intro write n
      simp [FunctionForm.fragments, TemplatePart.fragments, written, written_append, Skeleton.text,
        Skeleton.argumentTexts, Skeleton.argumentHoles, ht, hb.places_eq, ha.written_eq,
        hb.written_eq, String.append_assoc]
  | around hn ht =>
    obtain ⟨a, rfl⟩ := List.length_eq_one_iff.mp hc
    rcases hs with _ | @⟨_, k, _, _, ha, ⟨⟩⟩
    constructor
    · simp [FunctionForm.fragments, FunctionForm.around, TemplatePart.fragments, Skeleton.holes,
        Skeleton.argumentHoles, ha.places_eq]
    · intro write n
      simp [FunctionForm.fragments, FunctionForm.around, TemplatePart.fragments, written,
        written_append, Skeleton.text, Skeleton.argumentTexts, hn, ht, ha.written_eq,
        String.append_assoc]
  | constant hn ht =>
    obtain rfl := List.length_eq_zero_iff.mp hc
    cases hs
    constructor
    · simp [FunctionForm.fragments, TemplatePart.fragments, Skeleton.holes, Skeleton.argumentHoles]
    · intro write n
      simp [FunctionForm.fragments, TemplatePart.fragments, written, Skeleton.text,
        Skeleton.argumentTexts, ht]
  | passing _ hn ht =>
    constructor
    · simp [FunctionForm.fragments, Skeleton.holes, places_commaSeparated hs]
    · intro write n
      simp [FunctionForm.fragments, written, written_append, Skeleton.text, hn, ht,
        written_commaSeparated hs, String.append_assoc]

theorem spells_constant (v : Value) :
    Spells column? [Expression.constantFragment v] (if v.isNull then .null else .hole) := by
  cases hv : v.isNull with
  | true =>
    have hf : Expression.constantFragment v = text "NULL" := if_pos hv
    rw [hf]
    exact ⟨rfl, fun write n => by simp [written, Skeleton.text]⟩
  | false =>
    have hf : Expression.constantFragment v = bound v := if_neg (by simp [hv])
    rw [hf]
    exact ⟨rfl, fun write n => by simp [written, Skeleton.text]⟩

theorem spells_column {p : Property} {c : String} (h : column? p = some c) :
    Spells column? [column p] (.column c) := by
  constructor
  · rfl
  · intro write n
    simp [written, h, Skeleton.text]

theorem spells_not {operand : List Fragment} {k : Skeleton} (h : Spells column? operand k) :
    Spells column? (text "NOT " :: operand) (.not k) := by
  constructor
  · rw [places_text_cons, h.places_eq, Skeleton.holes]
  · intro write n
    rw [written, h.written_eq, Skeleton.text]

theorem spells_binary {left right : List Fragment} {l r : Skeleton} {word : String}
    (hl : Spells column? left l) (hr : Spells column? right r) :
    Spells column? (text "(" :: left ++ text (" " ++ word ++ " ") :: right ++ [text ")"])
      (.binary word l r) := by
  constructor
  · simp [Skeleton.holes, hl.places_eq, hr.places_eq]
  · intro write n
    simp [written, written_append, Skeleton.text, hl.places_eq, hl.written_eq, hr.written_eq,
      String.append_assoc]

end Fragment

namespace Expression

open Fragment

variable {σ : Type} {column? : Property → Option String}

/-- What is collected from the events of an expression, leaving out the offences, is collected from
its children in their order. -/
theorem filterMap_events_node {α : Type} {f : Event → Option α}
    (hf : ∀ error, f (.offence error) = none) (level : ℕ) (e : Expression) :
    (e.events level).filterMap f =
      match e with
      | convert source _ => (source.events (level + 1)).filterMap f
      | constant v => if v.isNull then [] else [.constant v].filterMap f
      | binary _ left right =>
        (left.events (level + 1)).filterMap f ++ (right.events (level + 1)).filterMap f
      | unary _ operand => (operand.events (level + 1)).filterMap f
      | property p => [.access p].filterMap f
      | call name arguments =>
        (Call.inEmissionOrder name
          (arguments.map fun a => (a.events (level + 1)).filterMap f)).flatten
      | collection _ | lambda _ _ _ _ | rangeVariable _ => [] := by
  have hentry : (e.entryEvents level).filterMap f = [] := by
    unfold entryEvents
    rw [List.filterMap_append]
    split <;> split <;> simp [hf]
  cases e <;> rw [events, List.filterMap_append, hentry, List.nil_append]
  case constant v => exact apply_ite (List.filterMap f) (v.isNull = true) [] [.constant v]
  case binary operator left right =>
    rw [List.filterMap_append, List.filterMap_append]
    split <;> simp [hf]
  case call name arguments =>
    rw [argumentEvents_eq_map, List.filterMap_flatten, Call.map_inEmissionOrder, List.map_map]
    rfl
  all_goals rfl

theorem filterMap_events (level : ℕ) (e : Expression) :
    (e.events level).filterMap Event.constant? = e.constants := by
  induction e generalizing level with
  | convert source target ih | unary operator operand ih =>
    rw [filterMap_events_node fun _ => rfl]
    exact ih (level + 1)
  | binary operator left right ihl ihr =>
    rw [filterMap_events_node fun _ => rfl, constants, ← ihl (level + 1), ← ihr (level + 1)]
  | call name arguments ih =>
    rw [filterMap_events_node fun _ => rfl, constants, argumentConstants_eq_map]
    simp only [List.map_congr_left fun a ha => ih a ha (level + 1)]
  | constant v | property p | collection items | lambda q s x p | rangeVariable x =>
    exact filterMap_events_node (fun _ => rfl) level _

theorem exists_forall₂ {α β : Type} {R : α → β → Prop} {xs : List α}
    (h : ∀ a ∈ xs, ∃ b, R a b) : ∃ ys, List.Forall₂ R xs ys := by
  induction xs with
  | nil => exact ⟨[], .nil⟩
  | cons x xs ih =>
    obtain ⟨y, hy⟩ := h x (by simp)
    obtain ⟨ys, hys⟩ := ih fun a ha => h a (by simp [ha])
    exact ⟨y :: ys, .cons hy hys⟩

/-- Nothing stops the layout at the root of an expression without offences. -/
private theorem root_of_clear {depth : ℕ} {e : Expression}
    (h : Event.Clear column? (e.events (depth + 1))) :
    ¬maxDepth ≤ depth ∧ e.IsExpressible column? ∧
      ∀ c ∈ e.children, Event.Clear column? (c.events (depth + 1 + 1)) := by
  obtain ⟨hl, hx, hc⟩ := (clear_events_iff _ _).mp h
  exact ⟨Nat.not_le_of_lt hl, hx, hc⟩

/-- The fragments of an expression without offences spell its skeleton. -/
theorem spells_fragments {depth : ℕ} {e : Expression}
    (h : Event.Clear column? (e.events (depth + 1))) :
    ∃ k, e.skeleton? column? = some k ∧ Spells column? (e.fragments depth) k := by
  induction e generalizing depth with
  | convert source target ih =>
    obtain ⟨hf, hx, hc⟩ := root_of_clear h
    rw [fragments, if_neg hf]
    exact ih (hc source (by simp [children]))
  | constant v =>
    obtain ⟨hf, hx, hc⟩ := root_of_clear h
    rw [fragments, if_neg hf]
    exact ⟨_, rfl, spells_constant v⟩
  | binary operator left right ihl ihr =>
    obtain ⟨hf, hx, hc⟩ := root_of_clear h
    rw [fragments, if_neg hf]
    obtain ⟨l, hkl, hsl⟩ := ihl (hc left (by simp [children]))
    obtain ⟨r, hkr, hsr⟩ := ihr (hc right (by simp [children]))
    obtain ⟨word, hw⟩ : ∃ word, operator.word? left right = some word := by
      cases operator <;> first | exact ⟨_, rfl⟩ | exact absurd rfl hx
    refine ⟨_, skeleton?_binary_eq_some_iff.mpr ⟨word, l, r, hw, hkl, hkr, rfl⟩, ?_⟩
    rw [operatorFragment, BinaryOperator.tokenFor?_eq, hw]
    exact spells_binary hsl hsr
  | unary operator operand ih =>
    obtain ⟨hf, hx, hc⟩ := root_of_clear h
    rw [fragments, if_neg hf]
    obtain ⟨x, hk, hs⟩ := ih (hc operand (by simp [children]))
    cases operator with
    | not =>
      exact ⟨_, skeleton?_unary_eq_some_iff.mpr ⟨rfl, x, hk, rfl⟩, spells_not hs⟩
    | negate => exact absurd rfl hx
  | property p =>
    obtain ⟨hf, hx, hc⟩ := root_of_clear h
    rw [fragments, if_neg hf]
    obtain ⟨c, hc⟩ := Option.isSome_iff_exists.mp hx
    exact ⟨_, skeleton?_property_eq_some_iff.mpr ⟨c, hc, rfl⟩, spells_column hc⟩
  | call name arguments ih =>
    obtain ⟨hf, hx, hc⟩ := root_of_clear h
    rw [fragments, if_neg hf]
    obtain ⟨form, hform⟩ := Option.isSome_iff_exists.mp ((Call.isSome_ofCall?_iff _ _).mpr hx)
    obtain ⟨ks, hks⟩ := exists_forall₂ fun a ha => ih a ha (hc a ha)
    have hk := hks.imp fun _ _ h => h.1
    have hs := hks.imp fun _ _ h => h.2
    refine ⟨_, skeleton?_call_eq_some_iff.mpr ⟨hx, ks, hk, rfl⟩, ?_⟩
    simp only [hform, argumentFragments_eq_map]
    exact spells_call (by simpa using hform) (List.forall₂_map_left_iff.mpr hs)
  | collection items | lambda q s x p | rangeVariable x => 
    cases (root_of_clear h).2.1

theorem parameters_of_emit_ok {e : Expression} {state : σ} {parameters : Parameters} {sql : String}
    (h : (e.emit (.ofFunction column?) state parameters).result = .ok sql) :
    (e.emit (.ofFunction column?) state parameters).parameters =
      { parameters with values := parameters.values ++ e.constants } := by
  rcases e.emit_ofFunction column? state parameters with ⟨_, _, hp⟩ | ⟨error, _, _, hr, _⟩
  · rw [hp, filterMap_events]
  · rw [hr] at h
    cases h

theorem text_of_emit_ok {e : Expression} {state : σ} {parameters : Parameters} {sql : String}
    (h : (e.emit (.ofFunction column?) state parameters).result = .ok sql) :
    ∃ k, e.skeleton? column? = some k ∧ sql = k.text parameters.style.render parameters.size := by
  have hc := (emit_ok_iff_clear e state parameters).mp ⟨sql, h⟩
  obtain ⟨k, hk, hs⟩ := @spells_fragments column? 0 e hc
  refine ⟨k, hk, ?_⟩
  rw [← hs.written_eq]
  exact carryOut_eq_ok h

/-- Emission binds the constants of the expression, none of them null, and writes the text of its
skeleton. The hole of a constant is written as the placeholder whose index is the number of the
parameters given and of the constants before it. -/
theorem emit_ok {e : Expression} {state : σ} {parameters : Parameters} {sql : String}
    (h : (e.emit (.ofFunction column?) state parameters).result = .ok sql) :
    (e.emit (.ofFunction column?) state parameters).parameters =
        { parameters with values := parameters.values ++ e.constants } ∧
      Value.null ∉ e.constants ∧
      ∃ k, e.skeleton? column? = some k ∧ k.holes = e.constants.length ∧
        sql = k.text parameters.style.render parameters.size := by
  obtain ⟨k, hk, ht⟩ := text_of_emit_ok h
  refine ⟨parameters_of_emit_ok h, ?_, k, hk, holes_eq hk, ht⟩
  intro hn
  exact ne_null_of_mem_constants hn rfl

theorem emit_ok_indexof_null :
    let e : Expression := .binary .equal
      (.call "indexof" [.constant (.bool true), .constant (.bool false)])
      (.convert (.constant .null) none)
    let o := e.emit (.ofFunction fun _ => none) () ⟨.atP, [.int 7]⟩
    o.result = .ok "(CHARINDEX(@p1, @p2) IS NULL)" ∧
      o.parameters.values = [.int 7, .bool false, .bool true] ∧
      ∃ k, e.skeleton? (fun _ => none) = some k ∧
        "(CHARINDEX(@p1, @p2) IS NULL)" = k.text PlaceholderStyle.atP.render 1 := by
  intro e o
  have h : o.result = .ok "(CHARINDEX(@p1, @p2) IS NULL)" := rfl
  obtain ⟨hp, _, k, hk, _, ht⟩ := emit_ok h
  exact ⟨h, congrArg Parameters.values hp, k, hk, ht⟩

end Expression

end FilterClause
