/-!
# Binary floating-point numbers

A `Binary64` is the 64-bit pattern of a double-precision number. A finite pattern denotes
`significand * 2 ^ scale`, up to its sign. All arithmetic is exact on natural numbers and is rounded
once at the end, to the nearest representable number and to the even one of two equally near ones.
-/

namespace FilterClause

def powTwo (exponent : Nat) : Nat := Nat.pow 2 exponent

/-- A double-precision number, given by its bits. Two of them are equal when their bits are. -/
structure Binary64 where
  bits : UInt64
  deriving DecidableEq, Repr

namespace Binary64

/-- The pattern with these bits, of which the last 64 count. -/
def ofBits (n : Nat) : Binary64 := ⟨UInt64.ofNat n⟩

/-- The value of the sign bit, the first of the 64. -/
def signBit : Nat := 0x8000000000000000

/-- The number of fractions, which the last 52 bits hold; also what a leading bit that is not stored
is worth. -/
def fractionCount : Nat := 0x10000000000000

/-- Whether the sign bit is set. -/
def negative (x : Binary64) : Bool := decide (signBit ≤ x.bits.toNat)

/-- The eleven exponent bits. -/
def exponentField (x : Binary64) : Nat := x.bits.toNat / fractionCount % 2048

/-- The fifty-two fraction bits. -/
def fractionField (x : Binary64) : Nat := x.bits.toNat % fractionCount

/-- Neither an infinity nor a NaN. -/
def isFinite (x : Binary64) : Bool := decide (x.exponentField ≠ 2047)

def isNaN (x : Binary64) : Bool := decide (x.exponentField = 2047 ∧ x.fractionField ≠ 0)

/-- Of a finite number, the factor before the power of two; the leading bit of a normal number is
not stored. -/
def significand (x : Binary64) : Nat :=
  if x.exponentField = 0 then x.fractionField else fractionCount + x.fractionField

/-- Of a finite number, the power of two that the significand is multiplied by. -/
def scale (x : Binary64) : Int := (max x.exponentField 1 : Nat) - 1075

/-- Whether the number below lies half as far away as the number above: the significand is the
least of its binade, and the binade below is finer. -/
def nearBelow (x : Binary64) : Bool := decide (x.fractionField = 0 ∧ 1 < x.exponentField)

/-- The magnitude of a finite number as numerator and denominator. -/
def ratio (x : Binary64) : Nat × Nat :=
  (x.significand * powTwo x.scale.toNat, powTwo (-x.scale).toNat)

/-- The bits of positive infinity, which follow those of the largest finite number. -/
def infinityBits : Nat := 2047 * fractionCount

def zero : Binary64 := ofBits 0

/-- A quotient rounded to the nearest natural number, and to the even one of two. -/
def roundQuotient (num den : Nat) : Nat :=
  let whole := num / den
  let twice := 2 * (num % den)
  if twice < den then whole
  else if den < twice then whole + 1
  else whole + whole % 2

/-- The quotient scaled by a power of two and rounded. -/
def roundScaled (num den : Nat) (scale : Int) : Nat :=
  roundQuotient (num * powTwo (-scale).toNat) (den * powTwo scale.toNat)

/-- The largest scale at which a positive quotient keeps fifty-three significant bits, but none
below the scale of the subnormal numbers. -/
def scaleOf (num den : Nat) : Int :=
  let guess : Int := (num.log2 : Int) - den.log2 - 52
  let short := num * powTwo (-guess).toNat < fractionCount * (den * powTwo guess.toNat)
  max (if short then guess - 1 else guess) (-1074)

/-- The number nearest to `num / den`. Adding the rounded significand to the exponent bits carries
into them when rounding reaches the next power of two; a result past the largest finite number is
infinity. -/
def ofRatio (num den : Nat) : Binary64 :=
  if num = 0 then zero
  else
    let scale := scaleOf num den
    ofBits (min ((scale + 1074).toNat * fractionCount + roundScaled num den scale) infinityBits)

def ofNat (n : Nat) : Binary64 := ofRatio n 1

/-- The product of two magnitudes. -/
def mulMagnitude (x y : Binary64) : Binary64 :=
  ofRatio (x.ratio.1 * y.ratio.1) (x.ratio.2 * y.ratio.2)

/-- The quotient of two magnitudes. -/
def divMagnitude (x y : Binary64) : Binary64 :=
  ofRatio (x.ratio.1 * y.ratio.2) (x.ratio.2 * y.ratio.1)

/-- The number with the same magnitude and the given sign, for a number whose sign bit is clear. -/
def withSign (negative : Bool) (x : Binary64) : Binary64 :=
  if negative then ofBits (x.bits.toNat + signBit) else x

end Binary64

end FilterClause
