import FilterClause.Calendar.Timestamp

/-!
# Values

The values that a filter compares with: SQL literals, which are bound as parameters. Beside being
bound, a value can be shown inline, as the literal that it stands for.
-/

namespace FilterClause

inductive Value where
  | null
  | bool (value : Bool)
  | int (value : Int64)
  | float (value : Binary64)
  | text (value : String)
  | blob (bytes : List UInt8)
  | date (value : Date)
  | timestamp (value : Timestamp)
  deriving DecidableEq

namespace Value

def isNull : Value → Bool
  | null => true
  | _ => false

/-- A decimal without an exponent, and without a point if it is whole. -/
def decimalChars (d : Decimal) : List Char :=
  d.whole.map Digit.char ++
    (if d.fraction.isEmpty then [] else '.' :: d.fraction.map Digit.char)

/-- A double as a plain decimal, however large or small; of two equally near ones the larger
magnitude. -/
def floatChars (x : Binary64) : List Char :=
  if x.isNaN then "NaN".toList
  else
    (if x.negative then ['-'] else []) ++
      if x.isFinite then decimalChars (Decimal.shortest .up x) else "inf".toList

def intChars (n : Int) : List Char :=
  (if n < 0 then ['-'] else []) ++ (Digit.ofNat n.natAbs).map Digit.char

/-- A text with every single quote written twice. -/
def doubleQuotes (s : List Char) : List Char :=
  s.flatMap fun c => if c = '\'' then ['\'', '\''] else [c]

def byteChars (b : UInt8) : List Char :=
  [Digit.hexChar 'A' (b.toNat / 16), Digit.hexChar 'A' (b.toNat % 16)]

def inlineChars : Value → List Char
  | null => "NULL".toList
  | bool value => if value then ['1'] else ['0']
  | int value => intChars value.toInt
  | float value => floatChars value
  | text value => 'N' :: '\'' :: doubleQuotes value.toList ++ ['\'']
  | blob bytes => '0' :: 'x' :: bytes.flatMap byteChars
  | date value => '\'' :: value.chars ++ ['\'']
  | timestamp value => '\'' :: value.chars .digits ++ ['\'']

/-- The literal that a value stands for. -/
def inline (v : Value) : String := String.ofList v.inlineChars

end Value

/-- The types whose members stand for values. -/
class ToValue (α : Type) where
  toValue : α → Value

export ToValue (toValue)

instance : ToValue Value := ⟨id⟩

instance : ToValue Bool := ⟨.bool⟩

instance : ToValue Int64 := ⟨.int⟩

instance : ToValue Int32 := ⟨fun n => .int n.toInt64⟩

instance : ToValue UInt32 := ⟨fun n => .int n.toUInt64.toInt64⟩

instance : ToValue Binary64 := ⟨.float⟩

instance : ToValue String := ⟨.text⟩

instance : ToValue (List UInt8) := ⟨.blob⟩

instance : ToValue Date := ⟨.date⟩

instance : ToValue Timestamp := ⟨.timestamp⟩

/-- Nothing stands for null. -/
instance {α : Type} [ToValue α] : ToValue (Option α) where
  toValue
    | some a => toValue a
    | none => .null

end FilterClause
