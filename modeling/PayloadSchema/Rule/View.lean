import PayloadSchema.Rule.Basic

/-! # The JSON view of rules

A rule is shown as an object: first its kind and what belongs to the kind, then its
modifiers.  A modifier that does nothing is left out. -/

namespace PayloadSchema

def Json.texts (texts : List String) : Json := .arr (texts.map .str)

def Group.view (group : Group) : Json :=
  .obj [("group", .str group.name), ("members", .texts group.members)]

/-- The modifiers of a rule that do something. -/
def Rule.modifiers (default : Option Json) (required : Bool) (empty : List Json) : Members :=
  (match default with
    | some value => [("default", value)]
    | none => []) ++
  (if required then [("required", .bool true)] else []) ++
  (if empty.isEmpty then [] else [("empty", .arr empty)])

mutual

/-- What a view says about a shape. -/
def Shape.members : Shape → Members
  | .boolean => [("type", .str "boolean")]
  | .number => [("type", .str "number")]
  | .integer unsigned => [("type", .str "integer"), ("unsigned", .bool unsigned)]
  | .binary => [("type", .str "binary")]
  | .string => [("type", .str "string")]
  | .any => [("type", .str "any")]
  | .enum name members => [("type", .str "enum"), ("name", .str name), ("members", .texts members)]
  | .record rule => ("type", .str "object") :: rule.members
  | .array element => [("type", .str "array"), ("element", .obj element.members)]
  | .lazy message id =>
    [("type", .str "lazy"), ("message", .str message), ("id", .num (.int id))]

def Rule.members : Rule → Members
  | ⟨shape, default, required, empty⟩ => shape.members ++ Rule.modifiers default required empty

def RecordRule.members : RecordRule → Members
  | ⟨message, fields, groups, allowUnknown⟩ =>
    [("message", .str message), ("fields", .arr (fieldViews fields))] ++
    (if groups.isEmpty then [] else [("oneofs", .arr (groups.map Group.view))]) ++
    [("allow_unknown", .bool allowUnknown)]

/-- The views of fields: pairs of name and rule. -/
def fieldViews : List (String × Rule) → List Json
  | [] => []
  | (name, rule) :: rest => .arr [.str name, .obj rule.members] :: fieldViews rest

end

def Rule.view (rule : Rule) : Json := .obj rule.members

def RecordRule.view (rule : RecordRule) : Json := .obj rule.members

end PayloadSchema
