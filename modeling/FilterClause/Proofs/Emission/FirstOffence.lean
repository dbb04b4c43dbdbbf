import FilterClause.Proofs.Emission.Walk

/-!
# The first offence of an expression

For a resolver that is a function every event is an offence or not by itself. A failed emission
ends with the first offence, and has bound just the constants before it.
-/

namespace FilterClause

theorem EmissionError.message_depth (kind : String) : (EmissionError.depth kind).message =
    "unsupported expression node: " ++ kind ++ " nested deeper than 256 levels" := by
  have h : " nested deeper than " ++ (toString maxDepth ++ " levels") =
      " nested deeper than 256 levels" := by decide
  change "unsupported expression node: " ++ kind ++ " nested deeper than " ++ toString maxDepth ++
    " levels" = _
  rw [String.append_assoc, String.append_assoc, h]

namespace Event

/-- The value of a constant. -/
def constant? : Event → Option Value
  | constant v => some v
  | _ => none

/-- The error that an event stands for, where the columns are given by a function. -/
def offence? (column? : Property → Option String) : Event → Option EmissionError
  | constant _ => none
  | access p => if (column? p).isSome then none else some (.column p)
  | offence e => some e

/-- No event is an offence. -/
def Clear (column? : Property → Option String) (xs : List Event) : Prop :=
  ∀ x ∈ xs, x.offence? column? = none

/-- The first offence is the error given, and these are the constants before it. -/
def FirstOffence (column? : Property → Option String) (xs : List Event) (error : EmissionError)
    (values : List Value) : Prop :=
  ∃ before x after, xs = before ++ x :: after ∧ Clear column? before ∧
    x.offence? column? = some error ∧ values = before.filterMap constant?

variable {σ : Type} {column? : Property → Option String}

theorem FirstOffence.cons {xs : List Event} {error : EmissionError} {values : List Value}
    (h : FirstOffence column? xs error values) {x : Event} (hx : x.offence? column? = none) :
    FirstOffence column? (x :: xs) error (x.constant?.toList ++ values) := by
  obtain ⟨before, y, after, rfl, hb, hy, rfl⟩ := h
  refine ⟨x :: before, y, after, rfl, ?_, hy, ?_⟩
  · intro z hz
    rcases List.mem_cons.mp hz with rfl | hz
    · exact hx
    · exact hb z hz
  · cases x <;> rfl

theorem FirstOffence.not_clear {xs : List Event} {error : EmissionError} {values : List Value}
    (h : FirstOffence column? xs error values) : ¬Clear column? xs := by
  obtain ⟨before, x, after, rfl, _, hx, _⟩ := h
  intro hc
  have hn := hc x (by simp)
  simp [hn] at hx

/-- A step of a walk either stops it or binds the constant met. -/
theorem run_ofFunction_cons (x : Event) (xs : List Event) (state : σ) (parameters : Parameters) :
    run (.ofFunction column?) (x :: xs) state parameters =
      match x.offence? column? with
      | some e => (some e, parameters, state)
      | none => run (.ofFunction column?) xs state
          { parameters with values := parameters.values ++ x.constant?.toList } := by
  cases x with
  | constant v => rfl
  | access p => cases h : column? p <;> simp [run, Resolver.ofFunction, offence?, constant?, h]
  | offence e => rfl

/-- A walk goes through all events, or up to the first offence. -/
theorem run_ofFunction (column? : Property → Option String) (xs : List Event) (state : σ)
    (parameters : Parameters) :
    (Clear column? xs ∧ run (.ofFunction column?) xs state parameters =
        (none, { parameters with values := parameters.values ++ xs.filterMap constant? }, state)) ∨
      ∃ error values, FirstOffence column? xs error values ∧
        run (.ofFunction column?) xs state parameters =
          (some error, { parameters with values := parameters.values ++ values }, state) := by
  induction xs generalizing parameters with
  | nil => exact .inl ⟨by simp [Clear], by simp [run]⟩
  | cons x xs ih =>
    rw [run_ofFunction_cons]
    cases hx : x.offence? column? with
    | some e => exact .inr ⟨e, [], ⟨[], x, xs, rfl, by simp [Clear], hx, rfl⟩, by simp⟩
    | none =>
      rcases ih { parameters with values := parameters.values ++ x.constant?.toList } with
        ⟨hc, hr⟩ | ⟨error, values, hf, hr⟩
      · refine .inl ⟨by simpa [Clear, hx] using hc, ?_⟩
        cases x <;> simpa [constant?, List.filterMap_cons] using hr
      · exact .inr ⟨error, _, hf.cons hx, by simpa using hr⟩

end Event

namespace Expression

variable {σ : Type} {column? : Property → Option String}

/-- Emission succeeds and binds all constants, or it reports the first offence and leaves behind the
constants before it. -/
theorem emit_ofFunction (column? : Property → Option String) (e : Expression) (state : σ)
    (parameters : Parameters) :
    (Event.Clear column? (e.events 1) ∧
      (∃ sql, (e.emit (.ofFunction column?) state parameters).result = .ok sql) ∧
      (e.emit (.ofFunction column?) state parameters).parameters =
        { parameters with values := parameters.values ++ (e.events 1).filterMap Event.constant? }) ∨
    ∃ error values, Event.FirstOffence column? (e.events 1) error values ∧
      (e.emit (.ofFunction column?) state parameters).result = .error error ∧
      (e.emit (.ofFunction column?) state parameters).parameters =
        { parameters with values := parameters.values ++ values } := by
  have hw := e.walk_emit (.ofFunction column?) state parameters
  rcases Event.run_ofFunction column? (e.events 1) state parameters with
    ⟨hc, hr⟩ | ⟨error, values, hf, hr⟩
  · rw [hr, Outcome.walk_eq_none_iff] at hw
    exact .inl ⟨hc, hw.1, hw.2.1⟩
  · rw [hr, Outcome.walk_eq_some_iff] at hw
    exact .inr ⟨error, values, hf, hw.1, hw.2.1⟩

theorem emit_ok_iff_clear (e : Expression) (state : σ) (parameters : Parameters) :
    (∃ sql, (e.emit (.ofFunction column?) state parameters).result = .ok sql) ↔
      Event.Clear column? (e.events 1) := by
  rcases e.emit_ofFunction column? state parameters with ⟨hc, hr, _⟩ | ⟨error, _, hf, hr, _⟩
  · simp only [hc, hr]
  · simp [hr, hf.not_clear]

/-- A failed emission reports the first offence among the events, and leaves behind the constants
before it. -/
theorem emit_error (e : Expression) (state : σ) (parameters : Parameters) {error : EmissionError}
    (h : (e.emit (.ofFunction column?) state parameters).result = .error error) :
    (∃ before x after, e.events 1 = before ++ x :: after ∧
      (∀ y ∈ before, y.offence? column? = none) ∧ x.offence? column? = some error ∧
      (e.emit (.ofFunction column?) state parameters).parameters =
        { parameters with values := parameters.values ++ before.filterMap Event.constant? }) ∧
    ∀ kind, error = .depth kind → error.message =
      "unsupported expression node: " ++ kind ++ " nested deeper than 256 levels" := by
  constructor
  · rcases e.emit_ofFunction column? state parameters with
      ⟨_, ⟨sql, hr⟩, _⟩ | ⟨_, _, ⟨before, x, after, hx, hb, ho, rfl⟩, hr, hp⟩
    · rw [hr] at h
      cases h
    · rw [hr] at h
      cases h
      exact ⟨before, x, after, hx, hb, ho, hp⟩
  · rintro kind rfl
    exact EmissionError.message_depth kind

theorem emit_error_negate :
    let e : Expression := .binary .has
      (.call "indexof" [.unary .negate (.constant (.int 3)), .constant (.int 2)])
      (.constant (.int 4))
    let o := e.emit (.ofFunction fun _ => none) () ⟨.atP, [.int 1]⟩
    o.result = .error (.operator "Negate") ∧
      ∃ before x after, e.events 1 = before ++ x :: after ∧
        (∀ y ∈ before, y.offence? (fun _ => none) = none) ∧
        x.offence? (fun _ => none) = some (.operator "Negate") ∧
        o.parameters = ⟨.atP, [.int 1] ++ before.filterMap Event.constant?⟩ := by
  intro e o
  have h : o.result = .error (.operator "Negate") := rfl
  exact ⟨h, (emit_error e () ⟨.atP, [.int 1]⟩ h).1⟩

end Expression

end FilterClause
