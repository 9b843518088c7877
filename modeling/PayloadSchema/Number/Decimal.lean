/-! # Written decimals

A decimal number as it is written: a sign, the digits before and after the
point read as one natural number, and the power of ten that scales them.  The
value is exact, so rounding happens in one place only, where a decimal becomes a
binary fraction. -/

namespace PayloadSchema

/-- The decimal `± significand * 10 ^ exponent`.  The sign is kept apart because
    a written zero may be negative. -/
structure Decimal where
  negative : Bool
  significand : Nat
  exponent : Int
deriving DecidableEq, Repr

namespace Decimal

/-- The number that a run of ASCII digits stands for. -/
def digitsValue (digits : List Char) : Nat :=
  digits.foldl (fun value digit => 10 * value + (digit.toNat - '0'.toNat)) 0

/-- The decimal written `whole.fraction e exponent`. -/
def ofDigits (negative : Bool) (whole fraction : List Char) (exponent : Int) : Decimal where
  negative := negative
  significand := digitsValue (whole ++ fraction)
  exponent := exponent - fraction.length

/-- Splits one leading sign off a text: whether it is negative, and the rest. -/
def splitSign : List Char → Bool × List Char
  | '-' :: rest => (true, rest)
  | '+' :: rest => (false, rest)
  | rest => (false, rest)

/-- The exponent written by an optional sign and at least one digit, and nothing
    else. -/
def exponent? (written : List Char) : Option Int :=
  let (negative, digits) := splitSign written
  if digits.isEmpty || !digits.all Char.isDigit then none
  else
    let magnitude : Int := digitsValue digits
    some (if negative then -magnitude else magnitude)

/-- An optional exponent part: nothing, or an `e` or `E` with its exponent. -/
def exponentPart? : List Char → Option Int
  | [] => some 0
  | mark :: written => if mark = 'e' ∨ mark = 'E' then exponent? written else none

end Decimal

end PayloadSchema
