import PayloadSchema.Schema.Basic
import PayloadSchema.Schema.Error

/-! # Distinct names

Before anything is compiled, the names of the fields of each message and of the
values of each enumeration are checked to be distinct, and so are the names of the
types of each scope.  The first clash in the order of the walk is reported. -/

namespace PayloadSchema

/-- The first name that stands again after itself, reading from the left. -/
def firstRepeated? (seen : List String) : List String → Option String
  | [] => none
  | name :: rest => if seen.contains name then some name else firstRepeated? (name :: seen) rest

/-! ## Fields and values -/

/-- Reports the first value name of an enumeration that repeats an earlier one. -/
def EnumType.checkNames (enum : EnumType) : Except SchemaError Unit :=
  match firstRepeated? [] enum.names with
  | some value => .error (.repeatedEntry enum.name value)
  | none => .ok ()

namespace Message

/-- The report of a field that has the name of an `earlier` one: a repeated member
    if both carry the same tag, else a repeated field. -/
def clash (message : String) (earlier field : Field) : SchemaError :=
  match field.group with
  | some group =>
    if earlier.group = some group then .repeatedMember message group field.name
    else .repeatedField message field.name
  | none => .repeatedField message field.name

/-- Reports the first field that has the name of one `before` it. -/
def checkFields (message : String) (before : List Field) : List Field → Except SchemaError Unit
  | [] => .ok ()
  | field :: rest =>
    match before.find? fun earlier => earlier.name = field.name with
    | some earlier => .error (clash message earlier field)
    | none => checkFields message (before ++ [field]) rest

mutual

/-- Checks the fields of a message, its enumerations, and its messages in turn. -/
def checkNames : Message → Except SchemaError Unit
  | ⟨name, fields, messages, enums⟩ => do
    checkFields name [] fields
    enums.forM EnumType.checkNames
    checkAllNames messages

def checkAllNames : List Message → Except SchemaError Unit
  | [] => .ok ()
  | message :: rest => do
    checkNames message
    checkAllNames rest

end

end Message

/-- Checks the enumerations of a schema, then its messages. -/
def Schema.checkNames (schema : Schema) : Except SchemaError Unit := do
  schema.enums.forM EnumType.checkNames
  Message.checkAllNames schema.messages

/-! ## Types -/

/-- Reports the first enumeration of a scope whose name repeats an earlier one. -/
def checkEnumScope (scope : Scope) (enums : List EnumType) : Except SchemaError Unit :=
  match firstRepeated? [] (enums.map (·.name)) with
  | some name => .error (.repeatedType scope name)
  | none => .ok ()

namespace Message

mutual

/-- Checks the scope that a message is: its enumerations, then its messages. -/
def checkScope : Message → Except SchemaError Unit
  | ⟨name, _, messages, enums⟩ => do
    checkEnumScope (.message name) enums
    checkScopes (.message name) [] messages

/-- Checks the messages of one scope in turn, each inside itself before its name
    is held against those `before` it. -/
def checkScopes (scope : Scope) (before : List String) : List Message → Except SchemaError Unit
  | [] => .ok ()
  | message :: rest => do
    checkScope message
    if before.contains message.name then .error (.repeatedType scope message.name)
    else checkScopes scope (before ++ [message.name]) rest

end

end Message

def Schema.checkScopes (schema : Schema) : Except SchemaError Unit := do
  checkEnumScope .schema schema.enums
  Message.checkScopes .schema [] schema.messages

end PayloadSchema
