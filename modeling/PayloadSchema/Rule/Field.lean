import PayloadSchema.Rule.Basic
import PayloadSchema.Schema.Error
import PayloadSchema.Schema.Literal

/-! # The rule of a field

A field gets its rule from its type and its modifiers.  The default is attached
before a repeated field becomes an array, so that it belongs to the items and
never stands for a missing array.  That a field is required, and what counts as
absent, concerns the field as a whole. -/

namespace PayloadSchema

/-- What a caller of the compiler may choose. -/
structure Options where
  /-- Values that count as absent in every field. -/
  empty : List Json := []
  /-- Whether keys that are no fields are let through. -/
  allowUnknown : Bool := false

/-- Which literals may stand as the default of a field. -/
inductive DefaultForm where
  | literal (kind : LiteralKind)
  | member (names : List String)
  | forbidden
deriving DecidableEq, Repr

/-- The value of a literal that may stand as a default. -/
def DefaultForm.read? : DefaultForm → String → Option Json
  | .literal kind, text => kind.read? text
  | .member names, text => if names.contains text then some (.str text) else none
  | .forbidden, _ => none

/-- What the type of a field says about it. -/
structure FieldType where
  shape : Shape
  defaultForm : DefaultForm

namespace Field

/-- The default of a field, or the report that its literal does not fit. -/
def defaultValue (field : Field) (message : String) (form : DefaultForm) :
    Except SchemaError (Option Json) :=
  match field.default with
  | none => .ok none
  | some literal =>
    match form.read? literal with
    | some value => .ok (some value)
    | none => .error (.unfitDefault message field.name literal field.typeName)

/-- The rule of a field whose default is known. -/
def ruleOf (field : Field) (shape : Shape) (default : Option Json) (options : Options) : Rule :=
  let bare : Rule := { shape, default }
  let whole : Rule := if field.repeated then { shape := .array bare } else bare
  { whole with required := field.required, empty := options.empty }

def rule (field : Field) (message : String) (type : FieldType) (options : Options) :
    Except SchemaError Rule :=
  (field.defaultValue message type.defaultForm).map fun default =>
    field.ruleOf type.shape default options

end Field

end PayloadSchema
