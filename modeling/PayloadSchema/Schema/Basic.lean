/-! # Schemas

A schema declares enumerations and messages, and a message declares fields,
further enumerations and further messages.  The type of a field is a name: of a
scalar type, or of an enumeration or message that is looked up from where the
field stands.

Nothing is excluded here.  Whether names repeat, types exist or defaults fit is
for the compiler to say. -/

namespace PayloadSchema

structure EnumEntry where
  name : String
  number : Int
deriving DecidableEq, Repr

/-- An enumeration, its values in declared order. -/
structure EnumType where
  name : String
  entries : List EnumEntry := []
deriving DecidableEq, Repr

def EnumType.names (enum : EnumType) : List String := enum.entries.map (·.name)

structure Field where
  name : String
  typeName : String
  repeated : Bool := false
  required : Bool := false
  /-- The group of alternatives that the field belongs to. -/
  group : Option String := none
  /-- The literal of the default, as it is written. -/
  default : Option String := none
deriving DecidableEq, Repr

/-- A message: a record type, and the scope of the types declared inside it. -/
structure Message where
  name : String
  fields : List Field := []
  messages : List Message := []
  enums : List EnumType := []
deriving Inhabited

structure Schema where
  messages : List Message := []
  enums : List EnumType := []

/-! ## Building schemas -/

namespace Field

/-- The field, holding a list. -/
def asRepeated (field : Field) : Field := { field with repeated := true }

/-- The field, which must then be present. -/
def asRequired (field : Field) : Field := { field with required := true }

def inGroup (field : Field) (group : String) : Field := { field with group := some group }

def withDefault (field : Field) (literal : String) : Field :=
  { field with default := some literal }

end Field

end PayloadSchema
