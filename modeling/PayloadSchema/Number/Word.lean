/-! # Integers of 64 bits

The ranges of integers that fit 64 bits, without and with a sign. -/

namespace PayloadSchema.Word

/-- The number of values of 64 bits, two to the power of 64. -/
def count : Int := 18446744073709551616

/-- Half the number of values of 64 bits, two to the power of 63. -/
def half : Int := 9223372036854775808

/-- Whether an integer fits 64 bits without a sign. -/
def isUnsigned (n : Int) : Bool := 0 ≤ n && n < count

/-- Whether an integer fits 64 bits with a sign. -/
def isSigned (n : Int) : Bool := -half ≤ n && n < half

end PayloadSchema.Word
