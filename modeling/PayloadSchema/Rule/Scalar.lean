import PayloadSchema.Rule.Basic
import PayloadSchema.Schema.Literal

/-! # Scalar types

The types that need no declaration.  Their names win over declared ones. -/

namespace PayloadSchema

/-- A type that needs no declaration. -/
inductive Scalar where
  | bool
  | float
  | double
  | uint32
  | uint64
  | int32
  | sint32
  | int64
  | sint64
  | bytes
  | string
  /-- A map.  Its entries are not checked. -/
  | map
deriving DecidableEq, Repr

namespace Scalar

/-- The scalar type of a name. -/
def ofName? : String → Option Scalar
  | "bool" => some .bool
  | "float" => some .float
  | "double" => some .double
  | "uint32" => some .uint32
  | "uint64" => some .uint64
  | "int32" => some .int32
  | "sint32" => some .sint32
  | "int64" => some .int64
  | "sint64" => some .sint64
  | "bytes" => some .bytes
  | "string" => some .string
  | "map" => some .map
  | _ => none

/-- The shape of the values of a scalar type.  Of an integer type only the sign
    matters, not the width. -/
def shape : Scalar → Shape
  | .bool => .boolean
  | .float | .double => .number
  | .uint32 | .uint64 => .integer true
  | .int32 | .sint32 | .int64 | .sint64 => .integer false
  | .bytes => .binary
  | .string => .string
  | .map => .any

/-- How the default of a field of a scalar type is written. -/
def literalKind : Scalar → LiteralKind
  | .bool => .truth
  | .float | .double => .number
  | .uint32 | .uint64 => .integer true
  | .int32 | .sint32 | .int64 | .sint64 => .integer false
  | .bytes | .string | .map => .text

end Scalar

end PayloadSchema
