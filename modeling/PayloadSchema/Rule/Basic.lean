import PayloadSchema.Schema.Catalog
import PayloadSchema.Schema.Group
import PayloadSchema.Json.Basic

/-! # Rules

A rule says which values a field may hold.  It is a shape with modifiers: a default
for an absent value, whether the field must be present, and values that count as
absent.

The rule of a message holds the rules of its fields.  Where messages refer to one
another in a cycle, a lazy shape stands for the rule of a message, which is looked
up among the definitions when a value is checked. -/

namespace PayloadSchema

mutual

inductive Shape where
  | boolean
  | number
  /-- A number without fractional part; unsigned ones are not below zero. -/
  | integer (unsigned : Bool)
  /-- A text, or an array of byte values. -/
  | binary
  | string
  | any
  /-- A text that is one of the members. -/
  | enum (name : String) (members : List String)
  | record (rule : RecordRule)
  | array (element : Rule)
  /-- What the definitions say about a message. -/
  | lazy (message : String) (id : MessageId)

/-- The rule of a field, or of the items of an array. -/
structure Rule where
  shape : Shape
  /-- Stands for an absent value that need not be present. -/
  default : Option Json := none
  required : Bool := false
  /-- Values that count as absent. -/
  empty : List Json := []

/-- The rule of a message. -/
structure RecordRule where
  message : String
  fields : List (String × Rule)
  /-- Of each group exactly one member has to be provided. -/
  groups : List Group := []
  /-- Whether keys that are no fields are let through. -/
  allowUnknown : Bool := false

end

instance : Inhabited Shape := ⟨.any⟩

abbrev Definitions := List (MessageId × RecordRule)

namespace Definitions

/-- The rule of a message. -/
def get? (definitions : Definitions) (id : MessageId) : Option RecordRule :=
  definitions.lookup id

end Definitions

/-- Whether a value counts as absent. -/
def Rule.isEmpty (rule : Rule) (value : Json) : Bool :=
  rule.empty.any fun empty => empty.equal value

namespace RecordRule

def field? (rule : RecordRule) (name : String) : Option Rule := rule.fields.lookup name

def declares (rule : RecordRule) (name : String) : Bool :=
  rule.fields.any fun field => field.1 = name

end RecordRule

/-! ## Lazy references -/

mutual

/-- The messages that a shape refers to lazily, inside records and arrays too. -/
def Shape.lazyIds : Shape → List MessageId
  | .lazy _ id => [id]
  | .record rule => rule.lazyIds
  | .array element => element.lazyIds
  | .boolean | .number | .integer _ | .binary | .string | .any | .enum _ _ => []

def Rule.lazyIds : Rule → List MessageId
  | ⟨shape, _, _, _⟩ => shape.lazyIds

def RecordRule.lazyIds : RecordRule → List MessageId
  | ⟨_, fields, _, _⟩ => fieldLazyIds fields

def fieldLazyIds : List (String × Rule) → List MessageId
  | [] => []
  | (_, rule) :: rest => rule.lazyIds ++ fieldLazyIds rest

end

end PayloadSchema
