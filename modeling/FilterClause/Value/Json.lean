import FilterClause.Json.Reading
import FilterClause.Value

/-!
# Values in JSON

A value is a union: `"null"`, or an object that names the type of the value. A double that is not
finite is written as `null` and so does not read back.
-/

namespace FilterClause.Value

open FilterClause.Json

/-- An object with one member. -/
def tagged (tag : String) (content : Json) : Json := .object [(tag, content)]

/-- A double: a number if it is finite. -/
def floatJson (x : Binary64) : Json := if x.isFinite then .number (.ofBinary64 x) else .null

def toJson : Value → Json
  | null => .string "null"
  | bool value => tagged "bool" (.bool value)
  | int value => tagged "int" (.number (.ofInt value.toInt))
  | float value => tagged "float" (floatJson value)
  | text value => tagged "text" (.string value)
  | blob bytes => tagged "blob" (.array (bytes.map fun b => .number (.ofInt b.toNat)))
  | date value => tagged "date" (.string value.text)
  | timestamp value => tagged "date_time_offset" (.string (value.text .letter))

/-- A signed 64-bit integer. -/
def readInt : Reader Int64 := fun level doc =>
  (Int64.ofInt ·.val) <$> readInteger (-9223372036854775808) 9223372036854775807 level doc

def readByte : Reader UInt8 := fun level doc =>
  (UInt8.ofNat ·.val.toNat) <$> readInteger 0 255 level doc

/-- A case whose content is made into a value. -/
def carrying {α : Type} (read : Reader α) (make : α → Value) : UnionCase Value :=
  .carrying fun level doc => make <$> read level doc

def caseOf : String → Option (UnionCase Value)
  | "null" => some (.bare null)
  | "bool" => some (carrying readBool bool)
  | "int" => some (carrying readInt int)
  | "float" => some (carrying readFloat float)
  | "text" => some (carrying readString text)
  | "blob" => some (carrying (readList readByte) blob)
  | "date" => some (carrying (readDenoted Date.ofText?) date)
  | "date_time_offset" => some (carrying (readDenoted Timestamp.ofText?) timestamp)
  | _ => none

def read : Reader Value := readUnion caseOf

end FilterClause.Value
