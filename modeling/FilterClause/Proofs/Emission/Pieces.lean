import FilterClause.Proofs.Emission.Rendering

/-!
# The pieces of a text

What emission writes, piece by piece: fixed texts, the placeholders of constants and the columns of
properties. The pieces are there also if emission fails; then they end where it stopped. The text is
the pieces joined together, and the values bound are the ones that placeholders were written for,
numbered in their order.
-/

namespace FilterClause

/-- A part of a text as it was written. -/
inductive Piece where
  | text (text : String)
  /-- A placeholder, and the value bound for it. -/
  | placeholder (text : String) (value : Value)
  | column (property : Property) (name : String)

namespace Piece

def written : Piece → String
  | text t => t
  | placeholder t _ => t
  | column _ name => name

def join : List Piece → String
  | [] => ""
  | x :: xs => x.written ++ join xs

/-- A placeholder with its value. -/
def placeholder? : Piece → Option (String × Value)
  | placeholder t v => some (t, v)
  | text _ | column _ _ => none

end Piece

namespace PlaceholderStyle

/-- The placeholders of values, numbered from `n` on. -/
def placeholders (style : PlaceholderStyle) (n : ℕ) (values : List Value) : List (String × Value) :=
  (values.zipIdx n).map fun (v, index) => (style.render index, v)

@[simp] theorem placeholders_nil (style : PlaceholderStyle) (n : ℕ) :
    style.placeholders n [] = [] := rfl

@[simp] theorem placeholders_cons (style : PlaceholderStyle) (n : ℕ) (v : Value)
    (values : List Value) : style.placeholders n (v :: values) =
      (style.render n, v) :: style.placeholders (n + 1) values := rfl

theorem map_fst_placeholders (style : PlaceholderStyle) (n : ℕ) (values : List Value) :
    (style.placeholders n values).map Prod.fst =
      (List.range' n values.length).map style.render := by
  rw [← List.zipIdx_map_snd n values, placeholders, List.map_map, List.map_map]
  rfl

end PlaceholderStyle

namespace Fragment

variable {σ : Type}

/-- The pieces that carrying out fragments writes, up to the first error. -/
def pieces (resolve : Resolver σ) : List Fragment → σ → Parameters → List Piece
  | [], _, _ => []
  | text t :: rest, state, parameters => .text t :: pieces resolve rest state parameters
  | bound v :: rest, state, parameters =>
    .placeholder parameters.nextPlaceholder v :: pieces resolve rest state (parameters.append v)
  | column p :: rest, state, parameters =>
    match resolve p state with
    | (some c, state) => .column p c :: pieces resolve rest state parameters
    | (none, _) => []
  | refusal _ :: _, _, _ => []

/-- The text is made of the pieces. -/
theorem join_pieces {resolve : Resolver σ} {fragments : List Fragment} {state : σ}
    {parameters : Parameters} {sql : String}
    (h : (carryOut resolve fragments state parameters).result = .ok sql) :
    sql = Piece.join (pieces resolve fragments state parameters) := by
  induction fragments generalizing state parameters sql with
  | nil =>
    cases h
    rfl
  | cons f fs ih =>
    cases f with
    | text t =>
      obtain ⟨rest, hr, rfl⟩ := Outcome.result_precede_eq_ok_iff.mp h
      rw [pieces, Piece.join, ← ih hr]
      rfl
    | bound v =>
      obtain ⟨rest, hr, rfl⟩ := Outcome.result_precede_eq_ok_iff.mp h
      rw [pieces, Piece.join, ← ih hr]
      rfl
    | column p =>
      rw [carryOut] at h
      rw [pieces]
      rcases hp : resolve p state with ⟨_ | c, state'⟩
      · rw [hp] at h
        cases h
      · rw [hp] at h
        obtain ⟨rest, hr, rfl⟩ := Outcome.result_precede_eq_ok_iff.mp h
        rw [Piece.join, ← ih hr]
        rfl
    | refusal e => cases h

/-- The values bound are those of the placeholders, which are numbered by them. -/
theorem parameters_carryOut (resolve : Resolver σ) (fragments : List Fragment) (state : σ)
    (parameters : Parameters) :
    ∃ values, (carryOut resolve fragments state parameters).parameters =
        { parameters with values := parameters.values ++ values } ∧
      (pieces resolve fragments state parameters).filterMap Piece.placeholder? =
        parameters.style.placeholders parameters.size values := by
  induction fragments generalizing state parameters with
  | nil => exact ⟨[], by simp [carryOut], rfl⟩
  | cons f fs ih =>
    cases f with
    | text t =>
      obtain ⟨values, hp, hv⟩ := ih state parameters
      exact ⟨values, hp, hv⟩
    | bound v =>
      obtain ⟨values, hp, hv⟩ := ih state (parameters.append v)
      refine ⟨v :: values, ?_, ?_⟩
      · rw [carryOut]
        simpa [Outcome.precede] using hp
      · rw [pieces, List.filterMap_cons, Piece.placeholder?, hv, PlaceholderStyle.placeholders_cons,
          Parameters.style_append, Parameters.size_append]
        rfl
    | column p =>
      rw [carryOut, pieces]
      rcases resolve p state with ⟨_ | c, state'⟩
      · exact ⟨[], by simp, rfl⟩
      · obtain ⟨values, hp, hv⟩ := ih state' parameters
        exact ⟨values, hp, hv⟩
    | refusal e => exact ⟨[], by simp [carryOut], rfl⟩

end Fragment

namespace Event

variable {σ : Type}

/-- A walk binds constants in the order in which it meets them. -/
theorem parameters_run (resolve : Resolver σ) (xs : List Event) (state : σ)
    (parameters : Parameters) :
    ∃ values, values <+: xs.filterMap constant? ∧ (run resolve xs state parameters).2.1 =
      { parameters with values := parameters.values ++ values } := by
  induction xs generalizing state parameters with
  | nil => exact ⟨[], List.nil_prefix, by simp [run]⟩
  | cons x xs ih =>
    cases x with
    | constant v =>
      obtain ⟨values, hv, hp⟩ := ih state (parameters.append v)
      refine ⟨v :: values, ?_, ?_⟩
      · exact (List.prefix_cons_inj v).mpr hv
      · rw [run, hp]
        simp
    | access p =>
      rw [run]
      split
      · next c state' hc => exact ih state' parameters
      · exact ⟨[], List.nil_prefix, by simp⟩
    | offence e => exact ⟨[], List.nil_prefix, by simp [run]⟩

end Event

namespace Expression

variable {σ : Type}

/-- What emission writes, up to the first error. -/
def pieces (e : Expression) (resolve : Resolver σ) (state : σ) (parameters : Parameters) :
    List Piece :=
  Fragment.pieces resolve (e.fragments 0) state parameters

/-- Emission binds the first constants of the expression, and writes their placeholders. -/
theorem parameters_emit (e : Expression) (resolve : Resolver σ) (state : σ)
    (parameters : Parameters) :
    ∃ values, values <+: e.constants ∧
      (e.emit resolve state parameters).parameters =
        { parameters with values := parameters.values ++ values } ∧
      (e.pieces resolve state parameters).filterMap Piece.placeholder? =
        parameters.style.placeholders parameters.size values := by
  obtain ⟨values, hp, hv⟩ := Fragment.parameters_carryOut resolve (e.fragments 0) state parameters
  obtain ⟨values', hc, hp'⟩ := Event.parameters_run resolve (e.events 1) state parameters
  rw [filterMap_events] at hc
  have he : (e.emit resolve state parameters).parameters =
      { parameters with values := parameters.values ++ values' } := by
    rw [← hp', ← e.walk_emit]
    rfl
  have hvalues : values = values' := by
    have h : parameters.values ++ values = parameters.values ++ values' :=
      congrArg Parameters.values (hp.symm.trans he)
    exact List.append_cancel_left h
  subst hvalues
  exact ⟨values, hc, hp, hv⟩

end Expression

end FilterClause
