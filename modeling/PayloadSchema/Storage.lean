import PayloadSchema.Schema.Reading

/-! # Stored documents

What a path leads to, and loading a schema or a payload from there.  A missing file
is told apart from one that is there but cannot be read as text. -/

namespace PayloadSchema

/-! ## Errors -/

inductive LoadError where
  | notFound (path : String)
  | unreadable (path : String)
  | malformed
deriving DecidableEq, Repr

namespace LoadError

def message : LoadError → String
  | .notFound path => s!"file not found: {path}"
  | .unreadable path => s!"cannot read {path}:"
  | .malformed => "invalid JSON:"

/-- The exit status of a command that ends with the error: three where the file is
    to blame, two where its content is. -/
def exitStatus : LoadError → Nat
  | .notFound _ | .unreadable _ => 3
  | .malformed => 2

end LoadError

/-! ## Loading -/

inductive Stored where
  | absent
  /-- Something that is no text: a folder, say, or bytes that encode none. -/
  | unreadable
  | text (content : String)
deriving DecidableEq, Repr

namespace Stored

/-- A file of some bytes.  It holds a text if the bytes are valid UTF-8. -/
def ofBytes (bytes : ByteArray) : Stored :=
  match String.fromUTF8? bytes with
  | some content => .text content
  | none => .unreadable

/-- Reads a document by `parse?` from what a path leads to. -/
def load {α : Type} (parse? : String → Option α) (path : String) :
    Stored → Except LoadError α
  | .absent => .error (.notFound path)
  | .unreadable => .error (.unreadable path)
  | .text content =>
    match parse? content with
    | some document => .ok document
    | none => .error .malformed

end Stored

abbrev Disk := String → Stored

def Schema.load (disk : Disk) (path : String) : Except LoadError Schema :=
  (disk path).load Schema.parse? path

def Json.load (disk : Disk) (path : String) : Except LoadError Json :=
  (disk path).load Json.parse? path

end PayloadSchema
