import PayloadSchema.Schema.Basic

/-! # The catalog of a schema

The catalog lists every message of a schema, those declared inside others too, in
the order in which a reader comes upon them: a message, then the messages inside
it, then the next one.  The place of a message in that order identifies it.

A type name is looked up from inside a message.  Enumerations come before
messages, and the message's own declarations before those of the schema; types
declared inside other messages are not seen. -/

namespace PayloadSchema

/-- What identifies a message of a schema: its place in the catalog. -/
abbrev MessageId := Nat

/-- A message in the catalog, with the message that it is declared in, if any. -/
structure Entry where
  id : MessageId
  parent : Option MessageId
  message : Message

/-- Every message of a schema, and the enumerations that all of them see. -/
structure Catalog where
  enums : List EnumType
  entries : List Entry

namespace Catalog

mutual

/-- The entries of a message that gets the place `next`. -/
def entriesOf (parent : Option MessageId) (next : MessageId) : Message → List Entry
  | ⟨name, fields, messages, enums⟩ =>
    ⟨next, parent, ⟨name, fields, messages, enums⟩⟩ ::
      entriesOfAll (some next) (next + 1) messages

/-- The entries of messages declared in one scope, from the place `next` on. -/
def entriesOfAll (parent : Option MessageId) (next : MessageId) : List Message → List Entry
  | [] => []
  | message :: rest =>
    let first := entriesOf parent next message
    first ++ entriesOfAll parent (next + first.length) rest

end

def ofSchema (schema : Schema) : Catalog where
  enums := schema.enums
  entries := entriesOfAll none 0 schema.messages

/-- A message that is known to stand in the catalog. -/
abbrev Listed (catalog : Catalog) := { entry : Entry // entry ∈ catalog.entries }

def listed (catalog : Catalog) : List catalog.Listed := catalog.entries.attach

def get? (catalog : Catalog) (id : MessageId) : Option catalog.Listed :=
  catalog.listed.find? fun entry => entry.1.id = id

/-- The messages that are declared in no other one. -/
def topLevel (catalog : Catalog) : List catalog.Listed :=
  catalog.listed.filter fun entry => entry.1.parent = none

/-- The message of a name in one scope: inside a message, or at the top. -/
def messageIn? (catalog : Catalog) (scope : Option MessageId) (name : String) :
    Option catalog.Listed :=
  catalog.listed.find? fun entry => entry.1.parent = scope && entry.1.message.name = name

/-! ## Looking up types -/

inductive Referent (catalog : Catalog) where
  | enum (enum : EnumType)
  | message (target : catalog.Listed)
  | nothing

def enumIn? (enums : List EnumType) (name : String) : Option EnumType :=
  enums.find? fun enum => enum.name = name

/-- What a type name stands for inside a message: the first of its own
    enumeration, the schema's enumeration, its own message and the schema's message
    of that name. -/
def referent (catalog : Catalog) (scope : Entry) (name : String) : Referent catalog :=
  match enumIn? scope.message.enums name with
  | some enum => .enum enum
  | none =>
    match enumIn? catalog.enums name with
    | some enum => .enum enum
    | none =>
      match catalog.messageIn? (some scope.id) name with
      | some target => .message target
      | none =>
        match catalog.messageIn? none name with
        | some target => .message target
        | none => .nothing

end Catalog

end PayloadSchema
