import PayloadSchema.Json.Token

/-! # JSON documents as written

A document is the tree that a JSON text writes down, before anything is decided
about its meaning: repeated keys are kept, numbers are numerals, and a string may
be without a text.  Readers that look at a part of it only, as the reader of
schemas does, need not care about the rest.

The tree is built from the tokens by a machine with an explicit list of the
enclosing arrays and objects, so that nesting has no limit here. -/

namespace PayloadSchema

inductive Document where
  | null
  | bool (value : Bool)
  | number (numeral : Numeral)
  | string (text : Option String)
  | array (items : List Document)
  | object (entries : List (Option String × Document))

namespace Document

/-- The entries of an object as written: a key may repeat, or have no text. -/
abbrev Entries := List (Option String × Document)

/-- An array or object that encloses the value being read, with what stands
    before that value in reverse. -/
inductive Enclosing where
  | array (before : List Document)
  | object (before : Entries) (key : Option String)

/-- What the next token may be. -/
inductive Expecting where
  | value (enclosing : List Enclosing)
  /-- The first item of an array, or its end. -/
  | firstItem (enclosing : List Enclosing)
  /-- The first key of an object, or its end. -/
  | firstKey (enclosing : List Enclosing)
  | key (before : Entries) (enclosing : List Enclosing)
  | colon (before : Entries) (key : Option String) (enclosing : List Enclosing)
  /-- What follows a finished value: a comma or the end of what encloses it. -/
  | after (value : Document) (enclosing : List Enclosing)

namespace Expecting

/-- Meets the first token of a value. -/
def begin (enclosing : List Enclosing) : Token → Option Expecting
  | .openArray => some (.firstItem enclosing)
  | .openObject => some (.firstKey enclosing)
  | .null => some (.after .null enclosing)
  | .bool b => some (.after (.bool b) enclosing)
  | .number numeral => some (.after (.number numeral) enclosing)
  | .string text => some (.after (.string text) enclosing)
  | .closeArray | .closeObject | .comma | .colon => none

def step : Expecting → Token → Option Expecting
  | .value enclosing, token => begin enclosing token
  | .firstItem enclosing, .closeArray => some (.after (.array []) enclosing)
  | .firstItem enclosing, token => begin (.array [] :: enclosing) token
  | .firstKey enclosing, .closeObject => some (.after (.object []) enclosing)
  | .firstKey enclosing, .string name => some (.colon [] name enclosing)
  | .key before enclosing, .string name => some (.colon before name enclosing)
  | .colon before name enclosing, .colon => some (.value (.object before name :: enclosing))
  | .after done (.array before :: enclosing), .comma =>
    some (.value (.array (done :: before) :: enclosing))
  | .after done (.array before :: enclosing), .closeArray =>
    some (.after (.array (done :: before).reverse) enclosing)
  | .after done (.object before name :: enclosing), .comma =>
    some (.key ((name, done) :: before) enclosing)
  | .after done (.object before name :: enclosing), .closeObject =>
    some (.after (.object ((name, done) :: before).reverse) enclosing)
  | _, _ => none

/-- The document, once a value is finished that nothing encloses. -/
def finish? : Expecting → Option Document
  | .after done [] => some done
  | _ => none

end Expecting

def ofTokens? (tokens : List Token) : Option Document :=
  (tokens.foldlM Expecting.step (.value [])).bind Expecting.finish?

def read? (text : String) : Option Document := (Token.scan? text).bind ofTokens?

end Document

end PayloadSchema
