import FilterClause.Json.Document

/-!
# The value of a numeral

A numeral without point and exponent whose value fits 64 bits, unsigned or signed, is an integer;
every other numeral is a double, and so is `-0`. The double is found in two roundings: the leading
digits, as many as fit an unsigned 64-bit number, are taken as a double, which is then multiplied or
divided by a power of ten.
-/

namespace FilterClause.Json

/-- The value of a numeral. -/
inductive Number where
  | integer (n : Int)
  | float (x : Binary64)
  deriving DecidableEq

/-- The number of unsigned 64-bit numbers. -/
def wordCount : Nat := 0x10000000000000000

/-- Append digits to a number as long as it fits 64 bits; the digits left over come second. -/
def accumulate : Nat → List Digit → Nat × List Digit
  | n, [] => (n, [])
  | n, d :: ds =>
    if 10 * n + d.val < wordCount then accumulate (10 * n + d.val) ds else (n, d :: ds)

/-- The double nearest to a power of ten. -/
def powerOfTen (exponent : Nat) : Binary64 := Binary64.ofNat (powTen exponent)

/-- Divide by a power of ten, in steps of at most `10 ^ 308`, until nothing is left to divide. -/
def divideByPower (x : Binary64) (exponent : Nat) : Binary64 :=
  if exponent ≤ 308 then x.divMagnitude (powerOfTen exponent)
  else if x = Binary64.zero then x
  else divideByPower (x.divMagnitude (powerOfTen 308)) (exponent - 308)
termination_by exponent

/-- The double for `significand * 10 ^ exponent`, if it is within range. -/
def scaleByPower (significand : Nat) (exponent : Int) : Option Binary64 :=
  let x := Binary64.ofNat significand
  if exponent < 0 then some (divideByPower x exponent.natAbs)
  else if exponent ≤ 308 then
    let y := x.mulMagnitude (powerOfTen exponent.toNat)
    if y.isFinite then some y else none
  else if significand = 0 then some x
  else none

end FilterClause.Json

namespace FilterClause.Numeral

open Json

/-- The exponent as a number. -/
def exponentValue (n : Numeral) : Int :=
  match n.exponent with
  | none => 0
  | some (true, digits) => -(Digit.toNat digits : Int)
  | some (false, digits) => Digit.toNat digits

/-- The double that a numeral denotes, if it is within range. Whole digits that no longer fit are
made up for in the exponent; digits after the point that no longer fit are dropped. -/
def toBinary64 (n : Numeral) : Option Binary64 :=
  let (whole, excess) := accumulate 0 n.whole
  let (significand, dropped) := accumulate whole n.fraction
  let exponent : Int := excess.length - (n.fraction.length - dropped.length : Nat) + n.exponentValue
  (scaleByPower significand exponent).map (Binary64.withSign n.negative)

/-- The value of a numeral as an integer, if it has neither point nor exponent and fits. -/
def toInteger? (n : Numeral) : Option Int :=
  let magnitude := Digit.toNat n.whole
  if !n.fraction.isEmpty || n.exponent.isSome then none
  else if n.negative then
    if 0 < magnitude ∧ magnitude ≤ wordCount / 2 then some (-(magnitude : Int)) else none
  else if magnitude < wordCount then some magnitude else none

/-- The value of a numeral; there is none past the largest double. -/
def value? (n : Numeral) : Option Number :=
  match n.toInteger? with
  | some i => some (.integer i)
  | none => n.toBinary64.map .float

end FilterClause.Numeral
