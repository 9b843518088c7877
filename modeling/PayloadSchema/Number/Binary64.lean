import PayloadSchema.Number.Decimal

/-! # Finite double-precision numbers

A finite double-precision number is an exact value, `± significand * 2 ^ exponent`,
held in the one form that its format gives it.  Reading a decimal rounds to the
nearest such number, a tie going to the even significand, in exact integer
arithmetic; a decimal beyond the largest number has no answer.  Products and
quotients are rounded in the same way.

Infinities and not-a-number are no values of this type. -/

namespace PayloadSchema

/-- The first of the 53 bits of a significand, two to the power of 52. -/
def Binary64.leadingBit : Nat := 4503599627370496

/-- A finite double-precision number, `± significand * 2 ^ exponent`.  Zero has a
    sign too. -/
structure Binary64 where
  negative : Bool
  significand : Nat
  exponent : Int
  /-- The significand has 53 bits, fewer only at the least exponent. -/
  canonical : significand < 2 * Binary64.leadingBit ∧ -1074 ≤ exponent ∧ exponent ≤ 971 ∧
    (Binary64.leadingBit ≤ significand ∨ exponent = -1074)
deriving DecidableEq

namespace Binary64

def zero (negative : Bool) : Binary64 := ⟨negative, 0, -1074, by decide⟩

/-- The number with these parts, if they are its form. -/
def ofParts? (negative : Bool) (significand : Nat) (exponent : Int) : Option Binary64 :=
  if canonical : significand < 2 * leadingBit ∧ -1074 ≤ exponent ∧ exponent ≤ 971 ∧
      (leadingBit ≤ significand ∨ exponent = -1074) then
    some ⟨negative, significand, exponent, canonical⟩
  else none

/-- The natural number nearest to `numerator / denominator`, a tie going to the
    even one. -/
def nearestEven (numerator denominator : Nat) : Nat :=
  let quotient := numerator / denominator
  let excess := 2 * (numerator % denominator)
  if excess < denominator then quotient
  else if denominator < excess then quotient + 1
  else if quotient % 2 = 0 then quotient else quotient + 1

/-- The two parts of `value * base ^ power` as a fraction of natural numbers. -/
def scale (base : Nat) (power : Int) : Nat × Nat :=
  (Nat.pow base power.toNat, Nat.pow base (-power).toNat)

/-- The number nearest to the positive fraction `numerator / denominator`.  The
    exponent is the one that leaves 53 bits before the point, or the least one;
    an estimate from the bit lengths is at most one too large. -/
def ofFraction? (negative : Bool) (numerator denominator : Nat) : Option Binary64 :=
  let estimate : Int := (numerator.log2 : Int) - denominator.log2 - 52
  let parts (exponent : Int) : Nat × Nat :=
    let (up, down) := scale 2 exponent
    (numerator * down, denominator * up)
  let exponent :=
    let (top, bottom) := parts estimate
    if top < leadingBit * bottom then estimate - 1 else estimate
  let exponent := max exponent (-1074)
  let (top, bottom) := parts exponent
  let significand := nearestEven top bottom
  if significand = 2 * leadingBit then ofParts? negative leadingBit (exponent + 1)
  else ofParts? negative significand exponent

/-- The number nearest to a decimal, or `none` where the decimal lies beyond the
    largest one.  A decimal below half the least positive number is zero.  Powers
    of ten that settle the question by their size alone are not computed. -/
def ofDecimal? (decimal : Decimal) : Option Binary64 :=
  let bits : Int := decimal.significand.log2 + 1
  if decimal.significand = 0 then some (zero decimal.negative)
  else if 400 ≤ decimal.exponent then none
  else if decimal.exponent < 0 ∧ bits + 3 * decimal.exponent < -1075 then
    some (zero decimal.negative)
  else
    let (up, down) := scale 10 decimal.exponent
    ofFraction? decimal.negative (decimal.significand * up) down

def isZero (x : Binary64) : Bool := x.significand = 0

/-- The number nearest to a product, or `none` where it lies beyond the largest one. -/
def mul? (x y : Binary64) : Option Binary64 :=
  let negative := x.negative != y.negative
  let (up, down) := scale 2 (x.exponent + y.exponent)
  if x.isZero || y.isZero then some (zero negative)
  else ofFraction? negative (x.significand * y.significand * up) down

/-- The number nearest to a quotient, or `none` where it lies beyond the largest one
    or the divisor is zero. -/
def div? (x y : Binary64) : Option Binary64 :=
  let negative := x.negative != y.negative
  let (up, down) := scale 2 (x.exponent - y.exponent)
  if y.isZero then none
  else if x.isZero then some (zero negative)
  else ofFraction? negative (x.significand * up) (y.significand * down)

/-- The number nearest to a power of ten, or `none` above the power 308. -/
def powerOfTen? (power : Nat) : Option Binary64 := ofDecimal? ⟨false, 1, power⟩

/-- Divides by a power of ten.  One above 308 is divided by in pieces, each quotient
    rounded, until nothing is left of the power or of the number. -/
def divPowerOfTen? (x : Binary64) (power : Nat) : Option Binary64 :=
  if x.isZero then some x
  else if power ≤ 308 then (powerOfTen? power).bind x.div?
  else ((powerOfTen? 308).bind x.div?).bind fun quotient =>
    quotient.divPowerOfTen? (power - 308)
termination_by power

/-- Whether the value is below zero.  A negative zero is not. -/
def isNegative (x : Binary64) : Bool := x.negative && !x.isZero

def isIntegral (x : Binary64) : Bool := x.significand % Nat.pow 2 (-x.exponent).toNat = 0

/-- Equality of values: the two zeros are equal. -/
def sameValue (x y : Binary64) : Bool := x = y || (x.isZero && y.isZero)

end Binary64

end PayloadSchema
