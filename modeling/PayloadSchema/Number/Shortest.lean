import PayloadSchema.Number.Binary64

/-! # The shortest text of a number

A double-precision number is written with the fewest decimal digits that read
back to it, and among those with the digits nearest to its value.

The numbers that round to a given one form an interval, whose ends count when the
significand is even.  On each decimal grid, from coarse to fine, only the two
neighbours of the value can be the nearest point inside that interval, so the
search looks at those two and stops at the first grid with a hit.  All of it is
exact integer arithmetic. -/

namespace PayloadSchema.Binary64

/-! ## Choosing the digits -/

/-- Compares `a * 10 ^ p` with `b * 2 ^ q`. -/
def compareScaled (a : Nat) (p : Int) (b : Nat) (q : Int) : Ordering :=
  let (tensUp, tensDown) := scale 10 p
  let (twosUp, twosDown) := scale 2 q
  compare (a * tensUp * twosDown) (b * twosUp * tensDown)

/-- Whether the gap to the next number below is half the gap to the one above. -/
def narrowBelow (x : Binary64) : Bool := x.significand = leadingBit && x.exponent != -1074

/-- Whether `digits * 10 ^ power` rounds to the magnitude of `x`.  The two ends of
    the interval are counted in quarters of the last binary place. -/
def readsBack (x : Binary64) (digits : Nat) (power : Int) : Bool :=
  let lower := 4 * x.significand - (if x.narrowBelow then 1 else 2)
  let upper := 4 * x.significand + 2
  let closed := x.significand % 2 = 0
  let fromLower := compareScaled digits power lower (x.exponent - 2)
  let fromUpper := compareScaled digits power upper (x.exponent - 2)
  (fromLower == .gt || (closed && fromLower == .eq)) &&
    (fromUpper == .lt || (closed && fromUpper == .eq))

/-- The number of digits before the point of the magnitude of a nonzero `x`: the
    least `k` with `x < 10 ^ k`.  The bit length gives it up to one. -/
def decimalPoint (x : Binary64) : Int :=
  let estimate := (x.significand.log2 + x.exponent) * 30103 / 100000
  let reaches (k : Int) : Bool := compareScaled 1 k x.significand x.exponent == .gt
  if reaches estimate then estimate
  else if reaches (estimate + 1) then estimate + 1
  else estimate + 2

/-- The point of the grid `10 ^ power` that reads back to `x` and lies nearest to
    it, a tie going to the even digit. -/
def nearestOnGrid? (x : Binary64) (power : Int) : Option Nat :=
  let (tensUp, tensDown) := scale 10 power
  let (twosUp, twosDown) := scale 2 x.exponent
  let numerator := x.significand * twosUp * tensDown
  let denominator := twosDown * tensUp
  let below := numerator / denominator
  let above := below + 1
  match x.readsBack below power, x.readsBack above power with
  | false, false => none
  | true, false => some below
  | false, true => some above
  | true, true =>
    match compare (2 * numerator) ((2 * below + 1) * denominator) with
    | .lt => some below
    | .gt => some above
    | .eq => some (if below % 2 = 0 then below else above)

/-- Moves the trailing zeros of a number into the power of ten. -/
def dropTrailingZeros (digits : Nat) (power : Int) : Nat × Int :=
  if digits ≠ 0 ∧ digits % 10 = 0 then dropTrailingZeros (digits / 10) (power + 1)
  else (digits, power)
termination_by digits
decreasing_by omega

/-- The digits of a nonzero number and the power of ten that scales them.  Where
    no grid of up to seventeen digits had a hit, the exact value would be the
    answer. -/
def shortest (x : Binary64) : Nat × Int :=
  let point := x.decimalPoint
  let found := (List.range 17).findSome? fun (more : Nat) =>
    let power := point - more - 1
    (x.nearestOnGrid? power).map fun digits => (digits, power)
  let (digits, power) := found.getD <|
    if 0 ≤ x.exponent then (x.significand * Nat.pow 2 x.exponent.toNat, 0)
    else (x.significand * Nat.pow 5 (-x.exponent).toNat, x.exponent)
  dropTrailingZeros digits power

/-! ## Laying them out -/

/-- Writes digits with the decimal point after the first `point` of them.  From
    `0.00001` up to sixteen digits before the point the text is positional and
    always has a fraction; any other number is written with one digit before the
    point and a signed exponent. -/
def layOut (digits : String) (point : Int) : String :=
  let zeros (count : Int) : String := String.ofList (List.replicate count.toNat '0')
  let length : Int := digits.length
  let whole := digits.toList.take point.toNat |> String.ofList
  let fraction := digits.toList.drop point.toNat |> String.ofList
  if -5 < point ∧ point ≤ 0 then "0." ++ zeros (-point) ++ digits
  else if 0 < point ∧ point ≤ 16 then
    if length ≤ point then digits ++ zeros (point - length) ++ ".0"
    else whole ++ "." ++ fraction
  else
    let lead := digits.toList.take 1 |> String.ofList
    let others := digits.toList.drop 1 |> String.ofList
    let mantissa := if others.isEmpty then lead else lead ++ "." ++ others
    let exponent := point - 1
    mantissa ++ (if exponent < 0 then "e-" else "e+") ++ toString exponent.natAbs

def render (x : Binary64) : String :=
  let sign := if x.negative then "-" else ""
  if x.isZero then sign ++ "0.0"
  else
    let (digits, power) := x.shortest
    let written := toString digits
    sign ++ layOut written (written.length + power)

end PayloadSchema.Binary64
