/-! # Errors of a schema

The causes for which a schema does not compile.  Each cause carries what its message
names. -/

namespace PayloadSchema

/-- Where the name of a type is declared. -/
inductive Scope where
  | schema
  | message (name : String)
deriving DecidableEq, Repr

def Scope.render : Scope → String
  | .schema => "the schema"
  | .message name => s!"message '{name}'"

inductive SchemaError where
  /-- The type of a field is declared nowhere. -/
  | unknownType (message field typeName : String)
  /-- A message declares two fields of one name. -/
  | repeatedField (message field : String)
  /-- A group of alternatives has a member twice. -/
  | repeatedMember (message group field : String)
  /-- A scope declares two enumerations, or two messages, of one name. -/
  | repeatedType (scope : Scope) (name : String)
  /-- An enumeration has two values of one name. -/
  | repeatedEntry (enum value : String)
  /-- The literal of a default is no value of the type of its field. -/
  | unfitDefault (message field literal typeName : String)
deriving DecidableEq, Repr

namespace SchemaError

def message : SchemaError → String
  | .unknownType message field typeName =>
    s!"field '{message}.{field}' references unknown type '{typeName}'"
  | .repeatedField message field => s!"message '{message}' declares field '{field}' more than once"
  | .repeatedMember message group field =>
    s!"oneof '{group}' in message '{message}' lists '{field}' more than once"
  | .repeatedType scope name => s!"'{name}' is declared more than once in {scope.render}"
  | .repeatedEntry enum value => s!"enum '{enum}' declares value '{value}' more than once"
  | .unfitDefault message field literal typeName =>
    s!"default '{literal}' of field '{message}.{field}' is not a valid {typeName}"

/-- The exit status of a command that ends with a schema that does not compile. -/
def exitStatus : SchemaError → Nat := fun _ => 2

end SchemaError

end PayloadSchema
