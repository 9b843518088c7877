import PayloadSchema.Json.Value
import PayloadSchema.Json.Printer
import PayloadSchema.Schema.Basic

/-! # Reading schemas

A schema is read from a JSON document.  Each of its records may be written as an
object, or as an array that gives the parts in declared order and may leave out
parts at the end.  Keys that a record does not know are passed over with whatever
they hold; a key that it knows may stand once only.

Arrays and objects that are looked into may nest no deeper than the limit of
nesting, and what is passed over does not count. -/

namespace PayloadSchema

namespace Document

/-! ## Records -/

/-- The names under which the parts of a record are written, in declared order. -/
abbrev Keys := List (List String)

/-- The documents that entries hold under any of some names. -/
def holding (entries : Entries) (names : List String) : List Document :=
  entries.filterMap fun entry =>
    match entry.1 with
    | some key => if names.contains key then some entry.2 else none
    | none => none

/-- The one document in a list, if there is any.  More than one is an error. -/
def atMostOne? : List Document → Option (Option Document)
  | [] => some none
  | [document] => some (some document)
  | _ :: _ :: _ => none

/-- The parts of a record in declared order, each `none` where it is left out. -/
def parts? (keys : Keys) : Document → Option (List (Option Document))
  | .object entries =>
    if entries.all fun entry => entry.1.isSome then
      keys.mapM fun names => atMostOne? (holding entries names)
    else none
  | .array items =>
    if items.length ≤ keys.length then
      some (items.map some ++ List.replicate (keys.length - items.length) none)
    else none
  | _ => none

/-! ## Parts -/

/-- What a reader of parts that enters a container can do with the room left: give
    `read` one level less, or nothing. -/
def inside {α : Type} (room : Nat) (read : Nat → α) : Option α :=
  match room with
  | 0 => none
  | room + 1 => some (read room)

/-- A part that may not be left out. -/
def required? {α : Type} (read : Document → Option α) (part : Option Document) : Option α :=
  part.bind read

/-- A part that stands for a default where it is left out. -/
def optional? {α : Type} (read : Document → Option α) (default : α) :
    Option Document → Option α
  | none => some default
  | some document => read document

/-- A list, read item by item if there is room for it. -/
def list? {α : Type} (read : Option (Document → Option α)) : Document → Option (List α)
  | .array items => read.bind fun read => items.mapM read
  | _ => none

def text? : Document → Option String
  | .string text => text
  | _ => none

def flag? : Document → Option Bool
  | .bool value => some value
  | _ => none

/-- A part that `null` leaves out too. -/
def nullable? {α : Type} (read : Document → Option α) : Document → Option (Option α)
  | .null => some none
  | document => (read document).map some

/-- An integer that fits 64 bits with its sign. -/
def signed? : Document → Option Int
  | .number numeral => numeral.int?.filter Word.isSigned
  | _ => none

/-- The literal of a default: a text, or the text of a truth value or a number. -/
def literal? : Document → Option String
  | .string text => text
  | .bool true => some "true"
  | .bool false => some "false"
  | .number numeral => numeral.number?.map Number.render
  | _ => none

end Document

open Document

/-! ## Enumerations -/

namespace EnumType

/-- The number of an enumeration's value: an integer, or an object with one entry
    `value` that holds it.  The object is read as a value would be, so that what
    stands beside `value` has to be in range and within the limit of nesting. -/
def number? (room : Nat) : Document → Option Int
  | .object entries =>
    match Json.ofDocumentWithin? room (.object entries), holding entries ["value"] with
    | some _, [value] => signed? value
    | _, _ => none
  | document => signed? document

/-- The values of an enumeration: an object from names to numbers.  A repeated
    name is kept. -/
def entries? (room : Nat) : Document → Option (List EnumEntry)
  | .object entries =>
    (inside room number?).bind fun number? => entries.mapM fun entry =>
      match entry.1, number? entry.2 with
      | some name, some value => some ⟨name, value⟩
      | _, _ => none
  | _ => none

def keys : Keys := [["name"], ["values"]]

def ofDocumentWithin? (room : Nat) (document : Document) : Option EnumType :=
  match room, parts? keys document with
  | room + 1, some [name, values] => do
    let name ← required? text? name
    let entries ← optional? (entries? room) [] values
    pure { name, entries }
  | _, _ => none

end EnumType

/-! ## Fields -/

namespace Field

def keys : Keys := [["name"], ["type"], ["repeated"], ["required"], ["oneof"], ["options"]]

/-- The names of the options of a field that matter. -/
def optionKeys : Keys := [["default"]]

/-- Reads the options of a field: the literal of its default, if it has one. -/
def optionsWithin? (room : Nat) (document : Document) : Option (Option String) :=
  match room, parts? optionKeys document with
  | _ + 1, some [default] => optional? (nullable? literal?) none default
  | _, _ => none

def ofDocumentWithin? (room : Nat) (document : Document) : Option Field :=
  match room, parts? keys document with
  | room + 1, some [name, typeName, repeated, required, group, options] => do
    let name ← required? text? name
    let typeName ← required? text? typeName
    let repeated ← optional? flag? false repeated
    let required ← optional? flag? false required
    let group ← optional? (nullable? text?) none group
    let default ← optional? (optionsWithin? room) none options
    pure { name, typeName, repeated, required, group, default }
  | _, _ => none

def ofDocument? (document : Document) : Option Field := ofDocumentWithin? nestingLimit document

end Field

/-! ## Messages and schemas -/

namespace Message

/-- The names of the parts of a message.  The types declared inside it go by two
    names each. -/
def keys : Keys := [["name"], ["fields"], ["messages", "nestedMessages"], ["enums", "nestedEnums"]]

def ofDocumentWithin? (room : Nat) (document : Document) : Option Message :=
  match room, parts? keys document with
  | room + 1, some [name, fields, messages, enums] => do
    let name ← required? text? name
    let fields ← optional? (list? (inside room Field.ofDocumentWithin?)) [] fields
    let messages ← optional? (list? (match room with
      | 0 => none
      | room + 1 => some (ofDocumentWithin? room))) [] messages
    let enums ← optional? (list? (inside room EnumType.ofDocumentWithin?)) [] enums
    pure { name, fields, messages, enums }
  | _, _ => none

end Message

namespace Schema

def keys : Keys := [["messages"], ["enums"]]

def ofDocumentWithin? (room : Nat) (document : Document) : Option Schema :=
  match room, parts? keys document with
  | room + 1, some [messages, enums] => do
    let messages ← optional? (list? (inside room Message.ofDocumentWithin?)) [] messages
    let enums ← optional? (list? (inside room EnumType.ofDocumentWithin?)) [] enums
    pure { messages, enums }
  | _, _ => none

def ofDocument? (document : Document) : Option Schema := ofDocumentWithin? nestingLimit document

def parse? (text : String) : Option Schema := (Document.read? text).bind ofDocument?

end Schema

end PayloadSchema
