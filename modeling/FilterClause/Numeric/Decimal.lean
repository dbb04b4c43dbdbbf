import FilterClause.Numeric.Binary64

/-!
# Shortest decimal digits

A finite double is written with the fewest decimal digits that lie within its rounding interval: the
numbers nearer to it than to any other double, with the ends when the significand is even. Among the
decimals of that many digits the nearest is taken; `Tie` says which one of two equally near ones.
Where the point stands and when an exponent is written is up to the writers.
-/

namespace FilterClause

def powTen (exponent : Nat) : Nat := Nat.pow 10 exponent

abbrev Digit := Fin 10

namespace Digit

def zero : Digit := ⟨0, by decide⟩

/-- The decimal digits of a natural number, the most significant first; zero has one digit. -/
def ofNat (n : Nat) : List Digit :=
  (Nat.toDigits 10 n).map fun c => Fin.ofNat 10 (c.toNat - '0'.toNat)

def toNat (digits : List Digit) : Nat := digits.foldl (fun n d => 10 * n + d.val) 0

def char (d : Digit) : Char := Char.ofNat ('0'.toNat + d.val)

/-- The hexadecimal digit of a number below sixteen; ten is written as the letter given. -/
def hexChar (letter : Char) (n : Nat) : Char :=
  if n < 10 then Char.ofNat ('0'.toNat + n) else Char.ofNat (letter.toNat + (n - 10))

def ofChar? (c : Char) : Option Digit :=
  if c.isDigit then some (Fin.ofNat 10 (c.toNat - '0'.toNat)) else none

def span : List Char → List Digit × List Char
  | [] => ([], [])
  | c :: s =>
    match ofChar? c with
    | some d => let r := span s; (d :: r.1, r.2)
    | none => ([], c :: s)

end Digit

/-- Which one of two equally near decimals is taken. -/
inductive Tie where
  | toEven
  | up
  deriving DecidableEq, Repr

/-- The decimal `0.d₁d₂… * 10 ^ point`. -/
structure Decimal where
  digits : List Digit
  point : Int
  deriving DecidableEq, Repr

namespace Decimal

/-- The exponent of the first digit of a positive quotient: `10 ^ e ≤ num / den < 10 ^ (e + 1)`. -/
def leadingExponent (num den : Nat) : Int :=
  if den ≤ num then (Nat.toDigits 10 (num / den)).length - 1
  else -((Nat.toDigits 10 ((den + num - 1) / num - 1)).length : Int)

/-- The reals that round to a double: `low ≤ x ≤ high`, all over one denominator, with the ends
counted only when `closed`. -/
structure Interval where
  low : Nat
  value : Nat
  high : Nat
  den : Nat
  closed : Bool

namespace Interval

/-- The rounding interval of a finite double. -/
def of (x : Binary64) : Interval :=
  let unit := powTwo x.scale.toNat
  { low := (4 * x.significand - if x.nearBelow then 1 else 2) * unit
    value := 4 * x.significand * unit
    high := (4 * x.significand + 2) * unit
    den := 4 * powTwo (-x.scale).toNat
    closed := x.significand % 2 = 0 }

/-- Whether the interval holds `n * 10 ^ e`. -/
def holds (i : Interval) (n : Nat) (e : Int) : Bool :=
  let point := n * powTen e.toNat * i.den
  let unit := powTen (-e).toNat
  if i.closed then decide (i.low * unit ≤ point ∧ point ≤ i.high * unit)
  else decide (i.low * unit < point ∧ point < i.high * unit)

/-- The member of the interval on the grid of multiples of `10 ^ e` that lies nearest to the value:
one of the value's two neighbours on that grid. -/
def nearest? (i : Interval) (tie : Tie) (e : Int) : Option Nat :=
  let num := i.value * powTen (-e).toNat
  let den := i.den * powTen e.toNat
  let below := num / den
  let twice := 2 * (num % den)
  match i.holds below e, i.holds (below + 1) e with
  | false, false => none
  | true, false => some below
  | false, true => some (below + 1)
  | true, true =>
    if twice < den then some below
    else if den < twice then some (below + 1)
    else match tie with
      | .up => some (below + 1)
      | .toEven => some (below + below % 2)

/-- The coarsest grid with a member of the interval, from `10 ^ e` down through `count` finer ones,
and the member nearest to the value on it. -/
def search (i : Interval) (tie : Tie) : Nat → Int → Nat × Int
  | 0, e => (i.value * powTen (-e).toNat / (i.den * powTen e.toNat), e)
  | count + 1, e =>
    match i.nearest? tie e with
    | some n => (n, e)
    | none => i.search tie count (e - 1)

end Interval

/-- `n * 10 ^ e`, without the zeros at the end of `n`. -/
def ofScaled (n : Nat) (e : Int) : Decimal :=
  let digits := Digit.ofNat n
  { digits := (digits.reverse.dropWhile (· = Digit.zero)).reverse
    point := e + digits.length }

/-- The shortest decimal that reads back to the magnitude of a finite double: seventeen digits
always do. -/
def shortest (tie : Tie) (x : Binary64) : Decimal :=
  if x.significand = 0 then ⟨[], 0⟩
  else
    let i := Interval.of x
    let n := i.search tie 17 (leadingExponent i.value i.den)
    ofScaled n.1 n.2

/-- The digits before the point; a number below one has the single digit zero there. -/
def whole (d : Decimal) : List Digit :=
  if d.point ≤ 0 then [Digit.zero]
  else d.digits.take d.point.toNat ++ List.replicate (d.point.toNat - d.digits.length) Digit.zero

/-- The digits after the point; a whole number has none. -/
def fraction (d : Decimal) : List Digit :=
  List.replicate (-d.point).toNat Digit.zero ++ d.digits.drop d.point.toNat

end Decimal

end FilterClause
