import PayloadSchema.Json.Basic

/-! # Violations

What is wrong with a payload: at which place, and how.  A place is the path of
keys and positions that leads to it from the root. -/

namespace PayloadSchema

/-! ## Paths -/

/-- One step from a value into one of its parts. -/
inductive Step where
  | field (name : String)
  | index (position : Nat)
deriving DecidableEq, Repr

/-- A place inside a payload.  The root is the empty path. -/
abbrev Path := List Step

namespace Path

def field (path : Path) (name : String) : Path := path ++ [.field name]

def index (path : Path) (position : Nat) : Path := path ++ [.index position]

/-- A step as it is written after others. -/
def follow : Step → String
  | .field name => s!".{name}"
  | .index position => s!"[{position}]"

/-- The text of a path: a point stands before each key but a first one. -/
def render : Path → String
  | [] => ""
  | .field name :: rest => name ++ String.join (rest.map follow)
  | .index position :: rest => follow (.index position) ++ String.join (rest.map follow)

end Path

/-! ## Faults -/

inductive Fault where
  /-- A value of another kind was expected. -/
  | mismatch (expected actual : String)
  /-- The number lies below a bound. -/
  | below (minimum : Int)
  /-- The text names no value of the enumeration. -/
  | unlisted (value : String) (allowed : List String)
  /-- A field that must be present is not. -/
  | missing
  /-- The key is none of the declared fields. -/
  | undeclared
  /-- No member of a group of alternatives is provided. -/
  | noneOf (group : String) (members : List String)
  /-- Several members of a group of alternatives are provided. -/
  | severalOf (group : String) (members : List String)
  /-- The rule of a message is nowhere defined. -/
  | undefined (message : String)
deriving DecidableEq, Repr

namespace Fault

/-- A short name of the kind of fault, for programs to read. -/
def code : Fault → String
  | .mismatch _ _ => "type_mismatch"
  | .below _ => "below_minimum"
  | .unlisted _ _ => "invalid_enum_value"
  | .missing => "required"
  | .undeclared => "unknown_field"
  | .noneOf _ _ => "oneof_none"
  | .severalOf _ _ => "oneof_multiple"
  | .undefined _ => "missing_rule"

def listing (names : List String) : String := "[" ++ ", ".intercalate names ++ "]"

def message : Fault → String
  | .mismatch expected actual => s!"expected {expected}, got {actual}"
  | .below minimum => s!"must be greater than or equal to {minimum}"
  | .unlisted value allowed => "\"" ++ value ++ "\" is not one of " ++ listing allowed
  | .missing => "is required"
  | .undeclared => "is not allowed"
  | .noneOf group members =>
    s!"oneof '{group}' requires exactly one of {listing members}, none provided"
  | .severalOf group members =>
    s!"oneof '{group}' allows exactly one of {listing members}, several provided"
  | .undefined message => s!"no compiled rule for message '{message}'"

end Fault

structure Violation where
  path : Path
  fault : Fault
deriving DecidableEq, Repr

namespace Violation

/-- The violation in words.  At the root there is no place to name. -/
def render (violation : Violation) : String :=
  if violation.path.isEmpty then violation.fault.message
  else s!"{violation.path.render}: {violation.fault.message}"

def json (violation : Violation) : Json :=
  .obj [("path", .str violation.path.render), ("code", .str violation.fault.code),
    ("message", .str violation.fault.message)]

end Violation

end PayloadSchema
