import PayloadSchema.Number.Binary64

/-! # JSON values

Payloads, defaults and the JSON view of rules are all values of one type.  An
object is a list of members in written order, and a reader that meets a repeated
key keeps its first place and its last value, so that the keys of a value that
was read are distinct.

Two notions of equality matter.  Equality of values as data (`=`) sees the order
of keys; `Json.equal` is the equality of JSON, blind to that order. -/

namespace PayloadSchema

/-- A number: an integer, written without point and exponent, or a
    double-precision number.  The two kinds stay apart: `1` and `1.0` are
    different values. -/
inductive Number where
  | int (value : Int)
  | float (value : Binary64)
deriving DecidableEq

namespace Number

/-- Equality of numbers.  An integer never equals a double-precision number, and
    the two zeros of the latter are equal. -/
def equal : Number → Number → Bool
  | .int a, .int b => a = b
  | .float a, .float b => a.sameValue b
  | _, _ => false

def isIntegral : Number → Bool
  | .int _ => true
  | .float x => x.isIntegral

def isNegative : Number → Bool
  | .int n => n < 0
  | .float x => x.isNegative

end Number

inductive Json where
  | null
  | bool (value : Bool)
  | num (value : Number)
  | str (value : String)
  | arr (items : List Json)
  | obj (members : List (String × Json))
deriving Inhabited

/-- The members of an object, in written order. -/
abbrev Members := List (String × Json)

namespace Members

def get? (members : Members) (key : String) : Option Json := members.lookup key

/-- Gives a key a value: a key that is present keeps its place, a new one goes
    to the end. -/
def set : Members → String → Json → Members
  | [], key, value => [(key, value)]
  | (k, v) :: rest, key, value =>
    if k = key then (k, value) :: rest else (k, v) :: set rest key value

end Members

namespace Json

def kindName : Json → String
  | .null => "null"
  | .bool _ => "boolean"
  | .num _ => "number"
  | .str _ => "string"
  | .arr _ => "array"
  | .obj _ => "object"

/-! ## Equality as JSON values -/

mutual

/-- Equality as JSON values: items are compared in order, members by key. -/
def equal : Json → Json → Bool
  | .null, .null => true
  | .bool a, .bool b => a = b
  | .num a, .num b => a.equal b
  | .str a, .str b => a = b
  | .arr a, .arr b => equalItems a b
  | .obj a, .obj b => a.length = b.length && equalMembers a b
  | _, _ => false

def equalItems : List Json → List Json → Bool
  | [], [] => true
  | a :: as, b :: bs => equal a b && equalItems as bs
  | _, _ => false

/-- Whether each of the first members has an equal value in the second ones. -/
def equalMembers : Members → Members → Bool
  | [], _ => true
  | (key, a) :: rest, others =>
    (match Members.get? others key with
      | some b => equal a b
      | none => false) && equalMembers rest others

end

end Json

end PayloadSchema
