import PayloadSchema.Json.Basic
import PayloadSchema.Number.Word
import PayloadSchema.Text.Blank

/-! # Default literals

A schema states the default of a field as a text.  How that text becomes a value
depends on the type of the field: as a truth value, a number, an integer in the
range of its sign, or the text itself.  White space around a number or a truth
value does not count. -/

namespace PayloadSchema

inductive LiteralKind where
  | truth
  | number
  | integer (unsigned : Bool)
  | text
deriving DecidableEq, Repr

namespace LiteralKind

def falseTexts : List String := ["", "0", "false", "FALSE", "False"]

/-- The truth value of a literal: true unless its text stands for false. -/
def isTrue (literal : String) : Bool :=
  !falseTexts.contains (String.ofList (Text.trim literal.toList))

/-- The integer written by digits after at most one sign.  The minus is for
    signed integers only, and the integer has to fit 64 bits. -/
def integer? (unsigned : Bool) (literal : String) : Option Int :=
  let written := Text.trim literal.toList
  let (negative, digits) := Decimal.splitSign written
  let magnitude : Int := Decimal.digitsValue digits
  if digits.isEmpty || !digits.all Char.isDigit then none
  else if unsigned then
    if written.head? ≠ some '-' ∧ Word.isUnsigned magnitude then some magnitude else none
  else
    let value := if negative then -magnitude else magnitude
    if Word.isSigned value then some value else none

/-- The decimal written by an optional sign, digits with an optional point among
    or beside them, and an optional exponent. -/
def decimal? (literal : String) : Option Decimal :=
  let (negative, unsigned) := Decimal.splitSign (Text.trim literal.toList)
  let whole := unsigned.takeWhile Char.isDigit
  let (fraction, rest) := match unsigned.dropWhile Char.isDigit with
    | '.' :: rest => (rest.takeWhile Char.isDigit, rest.dropWhile Char.isDigit)
    | rest => ([], rest)
  if whole.isEmpty && fraction.isEmpty then none
  else (Decimal.exponentPart? rest).map (.ofDigits negative whole fraction)

/-- The value of a literal, if it is of this kind.  A number beyond the largest
    one is not. -/
def read? (kind : LiteralKind) (literal : String) : Option Json :=
  match kind with
  | .truth => some (.bool (isTrue literal))
  | .number => do
    let decimal ← decimal? literal
    let value ← Binary64.ofDecimal? decimal
    pure (.num (.float value))
  | .integer unsigned => (integer? unsigned literal).map fun value => .num (.int value)
  | .text => some (.str literal)

end LiteralKind

end PayloadSchema
