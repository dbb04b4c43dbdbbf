import FilterClause.Json.Value

/-!
# Documents: JSON texts as far as they are well formed

A `Document` is what a text shows of a JSON value up to the first place where it stops being one.
Whoever reads a value of a certain shape from it meets the faults of the text and the misfits of the
value in the order in which they stand in the text, and what nobody looks at may be odd in ways that
would otherwise be refused: a number out of every range, or half of a surrogate pair.
-/

namespace FilterClause.Json

/-- Why a text is no JSON value. -/
inductive Fault where
  /-- The text ends too early. -/
  | ended
  /-- No JSON value goes on like this. -/
  | malformed
  deriving DecidableEq, Repr

/-- The three words of JSON. -/
inductive Word where
  | null
  | true
  | false
  deriving DecidableEq, Repr

/-- A JSON value as far as its text is well formed. Where the text of an array or an object breaks
off, the list of its parts ends, and `fault` tells why. A comma promises another part and a key a
value: if these do not follow, a fault stands in their place. -/
inductive Document where
  /-- The text ended where the value should begin. -/
  | missing
  /-- The text goes on with a character that begins no value. -/
  | stray
  /-- A word, known by its first letter. -/
  | word (name : Word) (fault : Option Fault)
  /-- A number, or what is wrong with it. -/
  | number (numeral : Except Fault Numeral)
  /-- A string. The content is missing also when the text is well formed but escapes denote no
  character; `fault` is about the text alone. -/
  | string (content : Except Fault String) (fault : Option Fault)
  | array (items : List Document) (fault : Option Fault)
  /-- An object. A key that is no string is malformed and ends it; one whose escapes denote no
  character is malformed, but the object goes on. -/
  | object (members : List (Except Fault String × Document)) (fault : Option Fault)

namespace Document

/-- The first fault of the text, if nobody asks for the value. -/
def fault : Document → Option Fault
  | missing => some .ended
  | stray => some .malformed
  | word _ fault => fault
  | number (.ok _) => none
  | number (.error _) => some .malformed
  | string _ fault => fault
  | array _ fault => fault
  | object _ fault => fault

mutual

/-- The document of a value. -/
def ofJson : Json → Document
  | .null => word .null none
  | .bool true => word .true none
  | .bool false => word .false none
  | .number n => number (.ok n)
  | .string s => string (.ok s) none
  | .array items => array (ofItems items) none
  | .object members => object (ofMembers members) none

def ofItems : List Json → List Document
  | [] => []
  | item :: items => ofJson item :: ofItems items

def ofMembers : List (String × Json) → List (Except Fault String × Document)
  | [] => []
  | (name, value) :: members => (.ok name, ofJson value) :: ofMembers members

end

@[simp] theorem fault_ofJson (j : Json) : (ofJson j).fault = none := by
  cases j with
  | bool b => cases b <;> rfl
  | _ => rfl

end Document

end FilterClause.Json
