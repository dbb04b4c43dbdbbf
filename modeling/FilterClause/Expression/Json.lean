import FilterClause.Clause
import FilterClause.Value.Json

/-!
# Expressions and query options in JSON

An expression is a union; most of its cases carry a record. A record leaves out the fields that have
no value, except that the arguments of a call are always written. Reading an expression opens two
levels for each node on the way down, the object of the union and the content of its case.
-/

namespace FilterClause

open FilterClause.Json

namespace PlaceholderStyle

def jsonName : PlaceholderStyle → String
  | atP => "at_p"
  | question => "question"
  | dollar => "dollar"

def ofJsonName? : String → Option PlaceholderStyle
  | "at_p" => some atP
  | "question" => some question
  | "dollar" => some dollar
  | _ => none

def toJson (s : PlaceholderStyle) : Json := .string s.jsonName

def read : Reader PlaceholderStyle := readName ofJsonName?

end PlaceholderStyle

namespace BinaryOperator

def jsonName : BinaryOperator → String
  | or => "or"
  | and => "and"
  | equal => "equal"
  | notEqual => "not_equal"
  | greaterThan => "greater_than"
  | greaterThanOrEqual => "greater_than_or_equal"
  | lessThan => "less_than"
  | lessThanOrEqual => "less_than_or_equal"
  | add => "add"
  | subtract => "subtract"
  | multiply => "multiply"
  | divide => "divide"
  | modulo => "modulo"
  | has => "has"

def ofJsonName? : String → Option BinaryOperator
  | "or" => some or
  | "and" => some and
  | "equal" => some equal
  | "not_equal" => some notEqual
  | "greater_than" => some greaterThan
  | "greater_than_or_equal" => some greaterThanOrEqual
  | "less_than" => some lessThan
  | "less_than_or_equal" => some lessThanOrEqual
  | "add" => some add
  | "subtract" => some subtract
  | "multiply" => some multiply
  | "divide" => some divide
  | "modulo" => some modulo
  | "has" => some has
  | _ => none

def toJson (o : BinaryOperator) : Json := .string o.jsonName

def read : Reader BinaryOperator := readName ofJsonName?

end BinaryOperator

namespace UnaryOperator

def jsonName : UnaryOperator → String
  | not => "not"
  | negate => "negate"

def ofJsonName? : String → Option UnaryOperator
  | "not" => some not
  | "negate" => some negate
  | _ => none

def toJson (o : UnaryOperator) : Json := .string o.jsonName

def read : Reader UnaryOperator := readName ofJsonName?

end UnaryOperator

namespace Quantifier

def jsonName : Quantifier → String
  | any => "any"
  | all => "all"

def ofJsonName? : String → Option Quantifier
  | "any" => some any
  | "all" => some all
  | _ => none

def toJson (q : Quantifier) : Json := .string q.jsonName

def read : Reader Quantifier := readName ofJsonName?

end Quantifier

/-- The member for a field that may have no value. -/
def optionalMember (name : String) (value : Option Json) : List (String × Json) :=
  match value with
  | some value => [(name, value)]
  | none => []

namespace Property

def toJson (p : Property) : Json :=
  .object (optionalMember "entity" (p.entity.map .string) ++ [("name", .string p.name)])

/-- The fields of a property as far as they are read; the outer option of the entity tells whether
the field is there. -/
structure Draft where
  entity : Option (Option String)
  name : Option String

namespace Draft

def empty : Draft := ⟨none, none⟩

def fields : List (RecordField Draft) :=
  [.of "entity" (readOption readString) Draft.entity fun a d => { d with entity := some a },
   .of "name" readString Draft.name fun a d => { d with name := some a }]

def finish (d : Draft) : Option Property := do
  let name ← d.name
  return ⟨d.entity.join, name⟩

end Draft

def read : Reader Property := readRecord Draft.fields Draft.empty Draft.finish

end Property

namespace Expression

mutual

def toJson : Expression → Json
  | convert source target =>
    Value.tagged "convert" <| .object <|
      ("source", source.toJson) :: optionalMember "target" (target.map .string)
  | constant v => Value.tagged "constant" v.toJson
  | binary operator left right =>
    Value.tagged "binary_operator" <| .object
      [("kind", operator.toJson), ("left", left.toJson), ("right", right.toJson)]
  | unary operator operand =>
    Value.tagged "unary_operator" <| .object
      [("kind", operator.toJson), ("operand", operand.toJson)]
  | property p => Value.tagged "property_access" p.toJson
  | call name arguments =>
    Value.tagged "function_call" <| .object
      [("name", .string name), ("parameters", .array (listJson arguments))]
  | collection items => Value.tagged "collection" <| .array (listJson items)
  | lambda quantifier source parameter predicate =>
    Value.tagged "lambda" <| .object
      [("kind", quantifier.toJson), ("source", source.toJson), ("variable", .string parameter),
        ("predicate", predicate.toJson)]
  | rangeVariable name => Value.tagged "range_variable" (.string name)

def listJson : List Expression → List Json
  | [] => []
  | e :: es => e.toJson :: listJson es

end

structure ConvertDraft where
  source : Option Expression
  target : Option (Option String)

namespace ConvertDraft

def empty : ConvertDraft := ⟨none, none⟩

def fields (operand : Reader Expression) : List (RecordField ConvertDraft) :=
  [.of "source" operand ConvertDraft.source fun a d => { d with source := some a },
   .of "target" (readOption readString) ConvertDraft.target fun a d => { d with target := some a }]

def finish (d : ConvertDraft) : Option Expression := do
  let source ← d.source
  return convert source d.target.join

end ConvertDraft

structure BinaryDraft where
  operator : Option BinaryOperator
  left : Option Expression
  right : Option Expression

namespace BinaryDraft

def empty : BinaryDraft := ⟨none, none, none⟩

def fields (operand : Reader Expression) : List (RecordField BinaryDraft) :=
  [.of "kind" BinaryOperator.read BinaryDraft.operator fun a d => { d with operator := some a },
   .of "left" operand BinaryDraft.left fun a d => { d with left := some a },
   .of "right" operand BinaryDraft.right fun a d => { d with right := some a }]

def finish (d : BinaryDraft) : Option Expression := do
  let operator ← d.operator
  let left ← d.left
  let right ← d.right
  return binary operator left right

end BinaryDraft

structure UnaryDraft where
  operator : Option UnaryOperator
  operand : Option Expression

namespace UnaryDraft

def empty : UnaryDraft := ⟨none, none⟩

def fields (operand : Reader Expression) : List (RecordField UnaryDraft) :=
  [.of "kind" UnaryOperator.read UnaryDraft.operator fun a d => { d with operator := some a },
   .of "operand" operand UnaryDraft.operand fun a d => { d with operand := some a }]

def finish (d : UnaryDraft) : Option Expression := do
  let operator ← d.operator
  let operand ← d.operand
  return unary operator operand

end UnaryDraft

structure CallDraft where
  name : Option String
  arguments : Option (List Expression)

namespace CallDraft

def empty : CallDraft := ⟨none, none⟩

def fields (operand : Reader Expression) : List (RecordField CallDraft) :=
  [.of "name" readString CallDraft.name fun a d => { d with name := some a },
   .of "parameters" (readList operand) CallDraft.arguments fun a d =>
    { d with arguments := some a }]

def finish (d : CallDraft) : Option Expression := do
  let name ← d.name
  return call name (d.arguments.getD [])

end CallDraft

structure LambdaDraft where
  quantifier : Option Quantifier
  source : Option Expression
  parameter : Option String
  predicate : Option Expression

namespace LambdaDraft

def empty : LambdaDraft := ⟨none, none, none, none⟩

def fields (operand : Reader Expression) : List (RecordField LambdaDraft) :=
  [.of "kind" Quantifier.read LambdaDraft.quantifier fun a d => { d with quantifier := some a },
   .of "source" operand LambdaDraft.source fun a d => { d with source := some a },
   .of "variable" readString LambdaDraft.parameter fun a d => { d with parameter := some a },
   .of "predicate" operand LambdaDraft.predicate fun a d => { d with predicate := some a }]

def finish (d : LambdaDraft) : Option Expression := do
  let quantifier ← d.quantifier
  let source ← d.source
  let parameter ← d.parameter
  let predicate ← d.predicate
  return lambda quantifier source parameter predicate

end LambdaDraft

/-- The cases of an expression, given how to read the expressions within. -/
def caseOf (operand : Reader Expression) : String → Option (UnionCase Expression)
  | "convert" => some <| .carrying <|
    readRecord (ConvertDraft.fields operand) ConvertDraft.empty ConvertDraft.finish
  | "constant" => some <| .carrying fun level doc => constant <$> Value.read level doc
  | "binary_operator" => some <| .carrying <|
    readRecord (BinaryDraft.fields operand) BinaryDraft.empty BinaryDraft.finish
  | "unary_operator" => some <| .carrying <|
    readRecord (UnaryDraft.fields operand) UnaryDraft.empty UnaryDraft.finish
  | "property_access" => some <| .carrying fun level doc => property <$> Property.read level doc
  | "function_call" => some <| .carrying <|
    readRecord (CallDraft.fields operand) CallDraft.empty CallDraft.finish
  | "collection" => some <| .carrying fun level doc => collection <$> readList operand level doc
  | "lambda" => some <| .carrying <|
    readRecord (LambdaDraft.fields operand) LambdaDraft.empty LambdaDraft.finish
  | "range_variable" => some <| .carrying fun level doc => rangeVariable <$> readString level doc
  | _ => none

/-- An expression with at most `height` nodes on each path from the root. -/
def readBelow : Nat → Reader Expression
  | 0 => fun _ _ => .error .malformed
  | height + 1 => readUnion (caseOf (readBelow height))

/-- An expression. Each node but the last of a path opens two levels, so the number of levels bounds
the height. -/
def read : Reader Expression := fun level doc => readBelow (level + 1) level doc

end Expression

namespace QueryOptions

def toJson (o : QueryOptions) : Json :=
  .object (optionalMember "filter" (o.filter.map Expression.toJson))

structure Draft where
  filter : Option (Option Expression)

namespace Draft

def empty : Draft := ⟨none⟩

def fields : List (RecordField Draft) :=
  [.of "filter" (readOption Expression.read) Draft.filter fun a _ => { filter := some a }]

def finish (d : Draft) : Option QueryOptions := some ⟨d.filter.join⟩

end Draft

def read : Reader QueryOptions := readRecord Draft.fields Draft.empty Draft.finish

end QueryOptions

namespace Parameters

/-- The values bound, in order. -/
def toJson (p : Parameters) : Json := .array (p.values.map Value.toJson)

end Parameters

end FilterClause
