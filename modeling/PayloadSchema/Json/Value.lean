import PayloadSchema.Json.Document

/-! # The value of a JSON document

A document has a value if each of its numbers is in range, each of its strings
and keys has a text, and its arrays and objects nest no deeper than the reader
follows.  A repeated key keeps its first place and its last value. -/

namespace PayloadSchema

/-- How many arrays and objects a reader enters inside one another. -/
def Document.nestingLimit : Nat := 127

namespace Json

mutual

/-- The value of a document that may enter `room` further arrays and objects. -/
def ofDocumentWithin? (room : Nat) : Document → Option Json
  | .null => some .null
  | .bool value => some (.bool value)
  | .number numeral => numeral.number?.map .num
  | .string text => text.map .str
  | .array items => if room = 0 then none else (itemsWithin? (room - 1) items).map .arr
  | .object entries =>
    if room = 0 then none else (membersWithin? (room - 1) [] entries).map .obj

def itemsWithin? (room : Nat) : List Document → Option (List Json)
  | [] => some []
  | item :: rest =>
    match ofDocumentWithin? room item, itemsWithin? room rest with
    | some value, some values => some (value :: values)
    | _, _ => none

/-- The members that entries add to those `before` them. -/
def membersWithin? (room : Nat) (before : Members) : Document.Entries → Option Members
  | [] => some before
  | (key, document) :: rest =>
    match key, ofDocumentWithin? room document with
    | some key, some value => membersWithin? room (before.set key value) rest
    | _, _ => none

end

def ofDocument? (document : Document) : Option Json :=
  ofDocumentWithin? Document.nestingLimit document

def parse? (text : String) : Option Json := (Document.read? text).bind ofDocument?

end Json

end PayloadSchema
