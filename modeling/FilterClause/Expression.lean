import FilterClause.Value

/-!
# Filter expressions

The tree of a parsed filter. Conversions only change the type of their source and leave no trace in
the text of a clause.
-/

namespace FilterClause

inductive BinaryOperator where
  | or
  | and
  | equal
  | notEqual
  | greaterThan
  | greaterThanOrEqual
  | lessThan
  | lessThanOrEqual
  | add
  | subtract
  | multiply
  | divide
  | modulo
  | has
  deriving DecidableEq, Repr

inductive UnaryOperator where
  | not
  | negate
  deriving DecidableEq, Repr

/-- Whether a lambda asks for any or for all members of its source. -/
inductive Quantifier where
  | any
  | all
  deriving DecidableEq, Repr

/-- A property, perhaps of a named entity. -/
structure Property where
  entity : Option String
  name : String
  deriving DecidableEq, Repr

namespace Property

/-- The name, after the entity and a slash if there is an entity. -/
def display (p : Property) : String :=
  match p.entity with
  | some entity => entity ++ "/" ++ p.name
  | none => p.name

end Property

inductive Expression where
  | convert (source : Expression) (target : Option String)
  | constant (value : Value)
  | binary (operator : BinaryOperator) (left right : Expression)
  | unary (operator : UnaryOperator) (operand : Expression)
  | property (property : Property)
  | call (name : String) (arguments : List Expression)
  | collection (items : List Expression)
  | lambda (quantifier : Quantifier) (source : Expression) (parameter : String)
      (predicate : Expression)
  | rangeVariable (name : String)

namespace Expression

def kindName : Expression → String
  | convert _ _ => "Convert"
  | constant _ => "Constant"
  | binary _ _ _ => "BinaryOperator"
  | unary _ _ => "UnaryOperator"
  | property _ => "PropertyAccess"
  | call _ _ => "FunctionCall"
  | collection _ => "Collection"
  | lambda _ _ _ _ => "Lambda"
  | rangeVariable _ => "RangeVariable"

/-- The expression without the conversions around it. -/
def unwrap : Expression → Expression
  | convert source _ => source.unwrap
  | e => e

def isNull : Expression → Bool
  | constant .null => true
  | _ => false

/-- A call of one of the functions whose text is itself a predicate, with any arguments. -/
def isPredicateCall : Expression → Bool
  | call name _ => name == "contains" || name == "startswith" || name == "endswith"
  | _ => false

end Expression

end FilterClause
