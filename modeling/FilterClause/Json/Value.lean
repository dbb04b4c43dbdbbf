import FilterClause.Numeric.Decimal

/-!
# JSON values and their compact text

A `Json` is a well-formed JSON value; an object keeps its members in order. The compact text has no
blanks, escapes in strings only what must be escaped, and writes everything else as it is.
-/

namespace FilterClause

/-- A number as it is written: digits before the point, digits after it (none without a point), and
an exponent. -/
structure Numeral where
  negative : Bool
  whole : List Digit
  fraction : List Digit
  exponent : Option (Bool × List Digit)
  deriving DecidableEq

inductive Json where
  | null
  | bool (value : Bool)
  | number (value : Numeral)
  | string (value : String)
  | array (items : List Json)
  | object (members : List (String × Json))

namespace Numeral

def ofInt (n : Int) : Numeral := ⟨decide (n < 0), Digit.ofNat n.natAbs, [], none⟩

/-- The exponent with its sign, which is always written. -/
def exponentChars : Option (Bool × List Digit) → List Char
  | none => []
  | some (negative, digits) => 'e' :: (if negative then '-' else '+') :: digits.map Digit.char

def chars (n : Numeral) : List Char :=
  (if n.negative then ['-'] else []) ++ n.whole.map Digit.char ++
    (if n.fraction.isEmpty then [] else '.' :: n.fraction.map Digit.char) ++
    exponentChars n.exponent

/-- The numeral of a finite double, from its shortest digits. From 0.00001 up to below ten to the
sixteenth the point is placed, with one zero after it in a whole number; otherwise the first digit
stands alone before the point and an exponent follows. -/
def ofBinary64 (x : Binary64) : Numeral :=
  let d := Decimal.shortest .toEven x
  let exponent := d.point - 1
  if d.digits.isEmpty || decide (-5 ≤ exponent ∧ exponent < 16) then
    let fraction := d.fraction
    ⟨x.negative, d.whole, if fraction.isEmpty then [Digit.zero] else fraction, none⟩
  else
    ⟨x.negative, d.digits.take 1, d.digits.drop 1,
      some (decide (exponent < 0), Digit.ofNat exponent.natAbs)⟩

end Numeral

namespace Json

/-- A character inside a string. The quote, the backslash and the control characters are escaped,
five of the latter by a letter. -/
def escape (c : Char) : List Char :=
  match c with
  | '"' => ['\\', '"']
  | '\\' => ['\\', '\\']
  | '\x08' => ['\\', 'b']
  | '\t' => ['\\', 't']
  | '\n' => ['\\', 'n']
  | '\x0c' => ['\\', 'f']
  | '\r' => ['\\', 'r']
  | c =>
    if c.toNat < 0x20 then
      ['\\', 'u', '0', '0', Digit.hexChar 'a' (c.toNat / 16), Digit.hexChar 'a' (c.toNat % 16)]
    else [c]

def stringChars (s : String) : List Char := '"' :: s.toList.flatMap escape ++ ['"']

/-- Parts with a comma between each two of them. -/
def commaSeparated : List (List Char) → List Char
  | [] => []
  | [part] => part
  | part :: parts => part ++ ',' :: commaSeparated parts

mutual

def chars : Json → List Char
  | .null => "null".toList
  | .bool true => "true".toList
  | .bool false => "false".toList
  | .number n => n.chars
  | .string s => stringChars s
  | .array items => '[' :: commaSeparated (itemChars items) ++ [']']
  | .object members => '{' :: commaSeparated (memberChars members) ++ ['}']

def itemChars : List Json → List (List Char)
  | [] => []
  | item :: items => item.chars :: itemChars items

def memberChars : List (String × Json) → List (List Char)
  | [] => []
  | (name, value) :: members =>
    (stringChars name ++ ':' :: value.chars) :: memberChars members

end

def compact (j : Json) : String := String.ofList j.chars

mutual

/-- How many arrays and objects are open at once at the deepest place of the text. -/
def depth : Json → Nat
  | .null | .bool _ | .number _ | .string _ => 0
  | .array items => itemDepth items + 1
  | .object members => memberDepth members + 1

def itemDepth : List Json → Nat
  | [] => 0
  | item :: items => max item.depth (itemDepth items)

def memberDepth : List (String × Json) → Nat
  | [] => 0
  | (_, value) :: members => max value.depth (memberDepth members)

end

end Json

end FilterClause
