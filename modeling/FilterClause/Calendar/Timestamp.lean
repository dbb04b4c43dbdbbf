import FilterClause.Calendar.Date

/-!
# Timestamps with an offset

A local date and time of day together with the offset of local time from universal time. Offsets
are whole minutes below a day, which is all that a text can denote: clocks whose distance from
universal time has odd seconds are left out. A second of 60 is a leap second. The same moment in
universal time must be on a day of the calendar too.

A timestamp is written with an upper-case `T`, two digits for each part of the time, and a fraction
of the second that is absent or has three, six or nine digits. Reading admits one or two digits,
blanks before the numbers and the colons, any number of digits in the fraction (those after the
ninth are dropped), and offsets written with `Z`, `UTC` or any separator of hours and minutes.
-/

namespace FilterClause

/-- A time of day; the second 60 is a leap second. -/
structure TimeOfDay where
  hour : Nat
  minute : Nat
  second : Nat
  nanosecond : Nat
  hour_lt : hour < 24
  minute_lt : minute < 60
  second_le : second ≤ 60
  nanosecond_lt : nanosecond < 1000000000
  deriving DecidableEq

/-- The distance of local time from universal time in minutes, east counted positive. -/
structure Offset where
  minutes : Int
  minutes_mem : -1440 < minutes ∧ minutes < 1440
  deriving DecidableEq

namespace TimeOfDay

def ofParts? (hour minute second nanosecond : Nat) : Option TimeOfDay :=
  if h : hour < 24 ∧ minute < 60 ∧ second ≤ 60 ∧ nanosecond < 1000000000 then
    some ⟨hour, minute, second, nanosecond, h.1, h.2.1, h.2.2.1, h.2.2.2⟩
  else none

end TimeOfDay

namespace Offset

def ofMinutes? (minutes : Int) : Option Offset :=
  if h : -1440 < minutes ∧ minutes < 1440 then some ⟨minutes, h⟩ else none

end Offset

/-- The minutes from local midnight, less the offset: below 0 the moment lies on the day before in
universal time, from 1440 on the day after. -/
def universalMinute (time : TimeOfDay) (offset : Offset) : Int :=
  time.hour * 60 + time.minute - offset.minutes

/-- The moment is on a day of the calendar in universal time. -/
def InUniversalRange (date : Date) (time : TimeOfDay) (offset : Offset) : Prop :=
  (date.isFirst → 0 ≤ universalMinute time offset) ∧
    (date.isLast → universalMinute time offset < 1440)

instance (date : Date) (time : TimeOfDay) (offset : Offset) :
    Decidable (InUniversalRange date time offset) := by
  unfold InUniversalRange
  infer_instance

/-- A moment, as seen on a clock with an offset from universal time. -/
structure Timestamp where
  date : Date
  time : TimeOfDay
  offset : Offset
  inRange : InUniversalRange date time offset
  deriving DecidableEq

namespace Timestamp

def ofParts? (date : Date) (time : TimeOfDay) (offset : Offset) : Option Timestamp :=
  if h : InUniversalRange date time offset then some ⟨date, time, offset, h⟩ else none

/-- How an offset of zero is written. -/
inductive ZeroOffset where
  | letter
  | digits
  deriving DecidableEq

/-- The fraction of the second: none if it is zero, else the fewest of three, six and nine digits
that hold it. -/
def fractionChars (nanosecond : Nat) : List Char :=
  if nanosecond = 0 then []
  else if nanosecond % 1000000 = 0 then '.' :: Calendar.padded 3 (nanosecond / 1000000)
  else if nanosecond % 1000 = 0 then '.' :: Calendar.padded 6 (nanosecond / 1000)
  else '.' :: Calendar.padded 9 nanosecond

def timeChars (t : TimeOfDay) : List Char :=
  Calendar.padded 2 t.hour ++ ':' :: Calendar.padded 2 t.minute ++
    ':' :: Calendar.padded 2 t.second ++ fractionChars t.nanosecond

def offsetChars (zero : ZeroOffset) (o : Offset) : List Char :=
  if o.minutes = 0 ∧ zero = .letter then ['Z']
  else
    (if o.minutes < 0 then '-' else '+') ::
      Calendar.padded 2 (o.minutes.natAbs / 60) ++ ':' :: Calendar.padded 2 (o.minutes.natAbs % 60)

def chars (zero : ZeroOffset) (t : Timestamp) : List Char :=
  t.date.chars ++ 'T' :: timeChars t.time ++ offsetChars zero t.offset

def text (zero : ZeroOffset) (t : Timestamp) : String := String.ofList (t.chars zero)

def readSeparator : List Char → Option (List Char)
  | 'T' :: s | 't' :: s | ' ' :: s => some s
  | _ => none

/-- A point and one or more digits, in nanoseconds; nothing at all is zero. -/
def readFraction : List Char → Option (Nat × List Char)
  | '.' :: s =>
    match Digit.span s with
    | ([], _) => none
    | (digits, rest) => some (Digit.toNat ((digits ++ List.replicate 9 Digit.zero).take 9), rest)
  | s => some (0, s)

def readTime (s : List Char) : Option (TimeOfDay × List Char) := do
  let (hour, s) ← Calendar.readNumber 2 s
  let s ← Calendar.readMark ':' (Text.skipBlanks s)
  let (minute, s) ← Calendar.readNumber 2 s
  let s ← Calendar.readMark ':' (Text.skipBlanks s)
  let (second, s) ← Calendar.readNumber 2 s
  let (nanosecond, s) ← readFraction s
  let time ← TimeOfDay.ofParts? hour minute second nanosecond
  return (time, s)

def readTwoDigits : List Char → Option (Nat × List Char)
  | a :: b :: s => do
    let a ← Digit.ofChar? a
    let b ← Digit.ofChar? b
    return (Digit.toNat [a, b], s)
  | _ => none

/-- What may stand between the hours and the minutes of an offset. -/
def isOffsetSeparator (c : Char) : Bool := c = ':' || Text.isBlank c

/-- Hours and minutes after the sign of an offset, in minutes. -/
def readOffsetSize (s : List Char) : Option (Nat × List Char) := do
  let (hours, s) ← readTwoDigits s
  let (minutes, s) ← readTwoDigits (s.dropWhile isOffsetSeparator)
  if minutes < 60 then return (hours * 60 + minutes, s) else none

/-- The three letters that name universal time, in any case. -/
def isUniversalName (s : List Char) : Bool := s.map Char.toLower == ['u', 't', 'c']

/-- A letter, a name, or a sign followed by hours and minutes. -/
def readOffset (s : List Char) : Option (Int × List Char) :=
  if isUniversalName (s.take 3) then some (0, s.drop 3)
  else
    match s with
    | 'Z' :: s | 'z' :: s => some (0, s)
    | '+' :: s => (readOffsetSize s).map fun r => ((r.1 : Int), r.2)
    | '-' :: s | '\u2212' :: s => (readOffsetSize s).map fun r => (-(r.1 : Int), r.2)
    | _ => none

def ofText? (s : String) : Option Timestamp := do
  let (date, s) ← Calendar.readDate s.toList
  let s ← readSeparator s
  let (time, s) ← readTime s
  let (minutes, s) ← readOffset (Text.skipBlanks s)
  let offset ← Offset.ofMinutes? minutes
  if (Text.skipBlanks s).isEmpty then Timestamp.ofParts? date time offset else none

end Timestamp

end FilterClause
