import FilterClause.Emission
import FilterClause.Text.UpperCase

/-!
# Clauses

A clause is a keyword in upper case, a blank and the text of a filter; without a filter it is empty.
Building a clause reports what happened.
-/

namespace FilterClause

/-- The options of a query. -/
structure QueryOptions where
  filter : Option Expression

/-- A clause to be built. -/
structure Clause (σ : Type) where
  keyword : String
  options : QueryOptions
  resolve : Resolver σ

/-- What happened when a clause was built. -/
inductive ClauseEvent where
  /-- There was no filter. -/
  | omitted (keyword : String)
  /-- The clause, and the number of values bound for it. -/
  | built (sql : String) (bound : Nat)
  | failed (keyword : String) (error : EmissionError)

namespace Clause

/-- Build a clause, its constants bound after the parameters given. -/
def build {σ : Type} (c : Clause σ) (state : σ) (parameters : Parameters) : Outcome σ :=
  match c.options.filter with
  | none => ⟨.ok "", parameters, state⟩
  | some filter =>
    (filter.emit c.resolve state parameters).precede (Text.upperCase c.keyword ++ " ")

/-- Build a clause several times, each time going on from the parameters and the resolver's state
that the time before left. -/
def buildTimes {σ : Type} (c : Clause σ) :
    Nat → σ → Parameters → List (Except EmissionError String) × Parameters × σ
  | 0, state, parameters => ([], parameters, state)
  | n + 1, state, parameters =>
    let o := c.build state parameters
    let r := c.buildTimes n o.state o.parameters
    (o.result :: r.1, r.2)

/-- What to report of a build that started from the parameters given. -/
def event {σ : Type} (c : Clause σ) (parameters : Parameters) (o : Outcome σ) : ClauseEvent :=
  match c.options.filter, o.result with
  | none, _ => .omitted c.keyword
  | some _, .ok sql => .built sql (o.parameters.size - parameters.size)
  | some _, .error e => .failed c.keyword e

end Clause

end FilterClause
