import PayloadSchema.Json.Basic
import PayloadSchema.Number.Word

/-! # Numbers as JSON writes them

A numeral is what a JSON text says about a number before it is decided which kind
of number it is: its digits, its exponent, and whether it is plain, that is,
written without point and exponent.  A plain numeral in the range of 64 bits is an
integer.

Every other numeral is taken in double precision, and in few steps rather than to
the nearest number: as many of the leading digits as fit 64 bits are rounded, and
then scaled by one rounded power of ten.  So `4503599627370495.74` is read as
`4503599627370496`, although the nearest number is `4503599627370495.5`. -/

namespace PayloadSchema

structure Numeral where
  negative : Bool
  /-- The digits before the point. -/
  whole : List Char
  /-- The digits behind the point. -/
  fraction : List Char
  exponent : Int
  plain : Bool
deriving DecidableEq

namespace Numeral

/-- Reads a numeral after its sign: a whole part without a superfluous leading zero, an
    optional fraction of at least one digit, an optional exponent. -/
def ofUnsigned? (negative : Bool) (unsigned : List Char) : Option Numeral :=
  let whole := unsigned.takeWhile Char.isDigit
  let rest := unsigned.dropWhile Char.isDigit
  if whole.isEmpty || (whole.head? = some '0' && whole ≠ ['0']) then none
  else match rest with
    | [] => some ⟨negative, whole, [], 0, true⟩
    | '.' :: rest =>
      let fraction := rest.takeWhile Char.isDigit
      if fraction.isEmpty then none
      else do
        let exponent ← Decimal.exponentPart? (rest.dropWhile Char.isDigit)
        pure ⟨negative, whole, fraction, exponent, false⟩
    | rest => do
      let exponent ← Decimal.exponentPart? rest
      pure ⟨negative, whole, [], exponent, false⟩

/-- Reads a numeral, which may start with a minus. -/
def ofChars? : List Char → Option Numeral
  | '-' :: unsigned => ofUnsigned? true unsigned
  | unsigned => ofUnsigned? false unsigned

/-- The integer that a plain numeral stands for.  One written with a minus has to
    fit 64 bits with a sign, any other one 64 bits without.  A negative zero is no
    integer. -/
def int? (numeral : Numeral) : Option Int :=
  let magnitude : Int := Decimal.digitsValue numeral.whole
  if !numeral.plain then none
  else if numeral.negative then
    if magnitude ≠ 0 ∧ Word.isSigned (-magnitude) then some (-magnitude) else none
  else if Word.isUnsigned magnitude then some magnitude else none

/-- Appends digits to a number as long as it fits 64 bits: the number, and the digits
    that are left. -/
def takeDigits (value : Nat) : List Char → Nat × List Char
  | [] => (value, [])
  | digit :: rest =>
    let next := 10 * value + (digit.toNat - '0'.toNat)
    if Word.isUnsigned next then takeDigits next rest else (value, digit :: rest)

/-- The leading digits as a number, and the power of ten that scales them.  Digits that
    are left before the point count in the power, and those behind it are then
    tried all the same. -/
def leadingDigits (numeral : Numeral) : Nat × Int :=
  let (value, before) := takeDigits 0 numeral.whole
  let (value, behind) := takeDigits value numeral.fraction
  let taken : Int := numeral.fraction.length - behind.length
  (value, numeral.exponent + before.length - taken)

/-- The double-precision number that a numeral is read as, or `none` beyond the largest
    one. -/
def float? (numeral : Numeral) : Option Binary64 :=
  let (digits, power) := numeral.leadingDigits
  if digits = 0 then some (.zero numeral.negative)
  else do
    let value ← Binary64.ofDecimal? ⟨numeral.negative, digits, 0⟩
    if 0 ≤ power then value.mul? (← Binary64.powerOfTen? power.toNat)
    else value.divPowerOfTen? (-power).toNat

/-- The number that a numeral stands for, or `none` beyond the largest one. -/
def number? (numeral : Numeral) : Option Number :=
  match numeral.int? with
  | some n => some (.int n)
  | none => numeral.float?.map .float

end Numeral

end PayloadSchema
