import FilterClause.Expression

/-!
# The vocabulary of clauses

The SQL words for the operators, and the forms of the functions: a fixed number of arguments filled
into a template, or any number of arguments passed on to an SQL function.
-/

namespace FilterClause

namespace BinaryOperator

/-- The SQL operator; membership of flags has none. -/
def token? : BinaryOperator → Option String
  | or => some "OR"
  | and => some "AND"
  | equal => some "="
  | notEqual => some "<>"
  | greaterThan => some ">"
  | greaterThanOrEqual => some ">="
  | lessThan => some "<"
  | lessThanOrEqual => some "<="
  | add => some "+"
  | subtract => some "-"
  | multiply => some "*"
  | divide => some "/"
  | modulo => some "%"
  | has => none

/-- The SQL operator that compares with null. -/
def nullToken? : BinaryOperator → Option String
  | equal => some "IS"
  | notEqual => some "IS NOT"
  | _ => none

/-- The name that messages give the operator. -/
def name : BinaryOperator → String
  | or => "Or"
  | and => "And"
  | equal => "Equal"
  | notEqual => "NotEqual"
  | greaterThan => "GreaterThan"
  | greaterThanOrEqual => "GreaterThanOrEqual"
  | lessThan => "LessThan"
  | lessThanOrEqual => "LessThanOrEqual"
  | add => "Add"
  | subtract => "Subtract"
  | multiply => "Multiply"
  | divide => "Divide"
  | modulo => "Modulo"
  | has => "Has"

/-- The operator between two operands: the one for nulls if the right operand is null, unless the
left one is a predicate by itself. -/
def tokenFor? (operator : BinaryOperator) (left right : Expression) : Option String :=
  if !left.isPredicateCall && right.unwrap.isNull then operator.nullToken?.or operator.token?
  else operator.token?

end BinaryOperator

namespace UnaryOperator

/-- The SQL operator; arithmetic negation has none. -/
def token? : UnaryOperator → Option String
  | not => some "NOT"
  | negate => none

/-- The name that messages give the operator. -/
def name : UnaryOperator → String
  | not => "Not"
  | negate => "Negate"

end UnaryOperator

/-- A part of a template: fixed text, or the argument with a given index. -/
inductive TemplatePart where
  | text (text : String)
  | argument (index : Nat)
  deriving DecidableEq, Repr

/-- How a call of a function is written. -/
inductive FunctionForm where
  /-- Exactly so many arguments, at their places in a template. -/
  | template (arity : Nat) (parts : List TemplatePart)
  /-- Any arguments, passed on to the SQL function with this name. -/
  | passing (name : String)
  deriving DecidableEq, Repr

namespace FunctionForm

def around (before after : String) : FunctionForm :=
  template 1 [.text before, .argument 0, .text after]

/-- The forms of the known functions. -/
def ofName? : String → Option FunctionForm
  | "contains" => some <| template 2
      [.argument 0, .text " LIKE ('%' + ", .argument 1, .text " + '%')"]
  | "startswith" => some <| template 2 [.argument 0, .text " LIKE (", .argument 1, .text " + '%')"]
  | "endswith" => some <| template 2 [.argument 0, .text " LIKE ('%' + ", .argument 1, .text ")"]
  | "indexof" => some <| template 2
      [.text "CHARINDEX(", .argument 1, .text ", ", .argument 0, .text ")"]
  | "trim" => some <| around "LTRIM(RTRIM(" "))"
  | "hour" => some <| around "DATEPART(hour, " ")"
  | "minute" => some <| around "DATEPART(minute, " ")"
  | "second" => some <| around "DATEPART(second, " ")"
  | "totaloffsetminutes" => some <| around "DATEPART(TZoffset, " ")"
  | "date" => some <| around "CAST(" " AS date)"
  | "time" => some <| around "CAST(" " AS time)"
  | "totalseconds" => some <| around "DATEDIFF(second, 0, " ")"
  | "length" => some <| around "LEN(" ")"
  | "tolower" => some <| around "LOWER(" ")"
  | "toupper" => some <| around "UPPER(" ")"
  | "now" => some <| template 0 [.text "GETUTCDATE()"]
  | "substring" => some <| passing "SUBSTRING"
  | "concat" => some <| passing "CONCAT"
  | "year" => some <| passing "YEAR"
  | "month" => some <| passing "MONTH"
  | "day" => some <| passing "DAY"
  | "round" => some <| passing "ROUND"
  | "floor" => some <| passing "FLOOR"
  | "ceiling" => some <| passing "CEILING"
  | _ => none

/-- Whether a call with so many arguments can be written. -/
def admits : FunctionForm → Nat → Bool
  | template arity _, count => arity == count
  | passing _, _ => true

/-- The form of a call, if the function is known and admits so many arguments. -/
def ofCall? (name : String) (count : Nat) : Option FunctionForm :=
  (ofName? name).filter (·.admits count)

end FunctionForm

end FilterClause
