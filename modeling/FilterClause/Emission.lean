import FilterClause.Parameters
import FilterClause.Resolver
import FilterClause.Vocabulary

/-!
# Emission of expressions

An expression is first laid out as a sequence of fragments: fixed text, constants to be bound,
properties to be resolved, and refusals where it has no form in SQL. The fragments are then carried
out from left to right against a resolver and the parameters, up to the first refusal or property
without a column; what was bound before it stays bound.
-/

namespace FilterClause

/-- Why an expression has no clause. -/
inductive EmissionError where
  /-- A kind of node that is never supported. -/
  | node (kind : String)
  /-- A node below too many others. -/
  | depth (kind : String)
  | operator (name : String)
  | function (name : String) (arity : Nat)
  /-- A property without a column. -/
  | column (property : Property)
  deriving DecidableEq, Repr

/-- The number of nodes that may stand on a path from the root. -/
def maxDepth : Nat := 256

namespace EmissionError

def message : EmissionError → String
  | node kind => "unsupported expression node: " ++ kind
  | depth kind =>
    "unsupported expression node: " ++ kind ++ " nested deeper than " ++ toString maxDepth ++
      " levels"
  | operator name => "unsupported operator: " ++ name
  | function name arity =>
    "unsupported function: " ++ name ++ " with " ++ toString arity ++ " argument(s)"
  | column property => "unresolved column for property: " ++ property.display

end EmissionError

inductive Fragment where
  | text (text : String)
  /-- A value that a placeholder stands for. -/
  | bound (value : Value)
  /-- A property that its column stands for. -/
  | column (property : Property)
  | refusal (error : EmissionError)
  deriving DecidableEq

namespace Fragment

def commaSeparated : List (List Fragment) → List Fragment
  | [] => []
  | [part] => part
  | part :: parts => part ++ text ", " :: commaSeparated parts

end Fragment

namespace TemplatePart

def fragments (arguments : List (List Fragment)) : TemplatePart → List Fragment
  | text t => [.text t]
  | argument index => arguments.getD index []

end TemplatePart

namespace FunctionForm

def fragments (arguments : List (List Fragment)) : FunctionForm → List Fragment
  | template _ parts => parts.flatMap (TemplatePart.fragments arguments)
  | passing name => .text (name ++ "(") :: Fragment.commaSeparated arguments ++ [.text ")"]

end FunctionForm

namespace Expression

/-- A constant: null is a word, everything else is bound. -/
def constantFragment (v : Value) : Fragment := if v.isNull then .text "NULL" else .bound v

/-- The operator between two operands, or the refusal of one that has no form in SQL. -/
def operatorFragment (operator : BinaryOperator) (left right : Expression) : Fragment :=
  match operator.tokenFor? left right with
  | some token => .text (" " ++ token ++ " ")
  | none => .refusal (.operator operator.name)

mutual

/-- The fragments of an expression below `depth` other nodes. Binary operations are parenthesised,
negations are not. -/
def fragments (depth : Nat) (e : Expression) : List Fragment :=
  if maxDepth ≤ depth then [.refusal (.depth e.kindName)]
  else
    match e with
    | convert source _ => fragments (depth + 1) source
    | constant v => [constantFragment v]
    | binary operator left right =>
      .text "(" :: fragments (depth + 1) left ++ operatorFragment operator left right ::
        fragments (depth + 1) right ++ [.text ")"]
    | unary operator operand =>
      match operator.token? with
      | some token => .text (token ++ " ") :: fragments (depth + 1) operand
      | none => [.refusal (.operator operator.name)]
    | property p => [.column p]
    | call name arguments =>
      match FunctionForm.ofCall? name arguments.length with
      | some form => form.fragments (argumentFragments (depth + 1) arguments)
      | none => [.refusal (.function name arguments.length)]
    | collection _ => [.refusal (.node "Collection")]
    | lambda _ _ _ _ => [.refusal (.node "Lambda")]
    | rangeVariable _ => [.refusal (.node "RangeVariable")]

def argumentFragments (depth : Nat) : List Expression → List (List Fragment)
  | [] => []
  | e :: es => fragments depth e :: argumentFragments depth es

end

end Expression

/-- What carrying out fragments leaves behind: the text or the first error, the parameters, and the
state of the resolver. -/
structure Outcome (σ : Type) where
  result : Except EmissionError String
  parameters : Parameters
  state : σ

namespace Outcome

/-- The outcome with a text in front. -/
def precede {σ : Type} (text : String) (o : Outcome σ) : Outcome σ :=
  { o with result := o.result.map (text ++ ·) }

end Outcome

namespace Fragment

/-- Carry out fragments from left to right, up to the first error. -/
def carryOut {σ : Type} (resolve : Resolver σ) : List Fragment → σ → Parameters → Outcome σ
  | [], state, parameters => ⟨.ok "", parameters, state⟩
  | text t :: rest, state, parameters => (carryOut resolve rest state parameters).precede t
  | bound v :: rest, state, parameters =>
    (carryOut resolve rest state (parameters.append v)).precede parameters.nextPlaceholder
  | column p :: rest, state, parameters =>
    match resolve p state with
    | (some c, state) => (carryOut resolve rest state parameters).precede c
    | (none, state) => ⟨.error (.column p), parameters, state⟩
  | refusal e :: _, state, parameters => ⟨.error e, parameters, state⟩

end Fragment

namespace Expression

/-- The text of an expression, its constants bound after the parameters given. -/
def emit {σ : Type} (e : Expression) (resolve : Resolver σ) (state : σ) (parameters : Parameters) :
    Outcome σ :=
  Fragment.carryOut resolve (e.fragments 0) state parameters

end Expression

end FilterClause
