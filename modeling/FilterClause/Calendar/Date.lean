import FilterClause.Numeric.Decimal
import FilterClause.Text.Blank

/-!
# Calendar dates

Days of the proleptic Gregorian calendar, in which the year 0 exists and is a leap year, from
-262143-01-01 to +262142-12-31.

A date is written as year, month and day with at least four, two and two digits; a year outside
0 to 9999 has a sign. Reading is more liberal: blanks may stand before each number, before each
hyphen and at the end, months and days may have one digit, and a year without a sign has one to four
digits, one with a sign any number.
-/

namespace FilterClause

/-- Divisible by 4, and by 400 if by 100. -/
def isLeapYear (year : Int) : Bool :=
  decide (year % 4 = 0 ∧ (year % 100 ≠ 0 ∨ year % 400 = 0))

/-- The number of days of a month; no month outside 1 to 12 has any. -/
def daysInMonth (year : Int) (month : Nat) : Nat :=
  match month with
  | 1 | 3 | 5 | 7 | 8 | 10 | 12 => 31
  | 4 | 6 | 9 | 11 => 30
  | 2 => if isLeapYear year then 29 else 28
  | _ => 0

structure Date where
  year : Int
  month : Nat
  day : Nat
  year_mem : -262143 ≤ year ∧ year ≤ 262142
  day_mem : 1 ≤ day ∧ day ≤ daysInMonth year month
  deriving DecidableEq

namespace Date

/-- The day with this year, month and day of the month, if there is one. -/
def ofParts? (year : Int) (month day : Nat) : Option Date :=
  if hy : -262143 ≤ year ∧ year ≤ 262142 then
    if hd : 1 ≤ day ∧ day ≤ daysInMonth year month then some ⟨year, month, day, hy, hd⟩ else none
  else none

def isFirst (d : Date) : Bool := decide (d.year = -262143 ∧ d.month = 1 ∧ d.day = 1)

def isLast (d : Date) : Bool := decide (d.year = 262142 ∧ d.month = 12 ∧ d.day = 31)

end Date

namespace Calendar

/-- A number with zeros in front, so that it has at least `width` digits. -/
def padded (width n : Nat) : List Char :=
  let digits := (Digit.ofNat n).map Digit.char
  List.replicate (width - digits.length) '0' ++ digits

/-- A number of one to `width` digits, after any blanks; a digit past the width is left over. -/
def readNumber (width : Nat) (s : List Char) : Option (Nat × List Char) :=
  let s := Text.skipBlanks s
  match (Digit.span (s.take width)).1 with
  | [] => none
  | digits => some (Digit.toNat digits, s.drop digits.length)

def readAllDigits (s : List Char) : Option (Nat × List Char) :=
  match Digit.span s with
  | ([], _) => none
  | (digits, rest) => some (Digit.toNat digits, rest)

/-- A year: with a sign any number of digits, without one at most four. -/
def readYear (s : List Char) : Option (Int × List Char) :=
  match Text.skipBlanks s with
  | '-' :: s => (readAllDigits s).map fun r => (-(r.1 : Int), r.2)
  | '+' :: s => (readAllDigits s).map fun r => ((r.1 : Int), r.2)
  | s => (readNumber 4 s).map fun r => ((r.1 : Int), r.2)

def readMark (mark : Char) : List Char → Option (List Char)
  | [] => none
  | c :: s => if c = mark then some s else none

def readDate (s : List Char) : Option (Date × List Char) := do
  let (year, s) ← readYear s
  let s ← readMark '-' (Text.skipBlanks s)
  let (month, s) ← readNumber 2 s
  let s ← readMark '-' (Text.skipBlanks s)
  let (day, s) ← readNumber 2 s
  let date ← Date.ofParts? year month day
  return (date, s)

end Calendar

namespace Date

/-- Four digits, or a sign and at least four digits. -/
def yearText (year : Int) : List Char :=
  if 0 ≤ year ∧ year ≤ 9999 then Calendar.padded 4 year.toNat
  else (if year < 0 then '-' else '+') :: Calendar.padded 4 year.natAbs

def chars (d : Date) : List Char :=
  yearText d.year ++ '-' :: Calendar.padded 2 d.month ++ '-' :: Calendar.padded 2 d.day

def text (d : Date) : String := String.ofList d.chars

def ofText? (s : String) : Option Date :=
  match Calendar.readDate s.toList with
  | some (date, rest) => if (Text.skipBlanks rest).isEmpty then some date else none
  | none => none

end Date

end FilterClause
