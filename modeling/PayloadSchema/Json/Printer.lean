import PayloadSchema.Json.Basic
import PayloadSchema.Number.Shortest

/-! # Writing JSON

A value has two texts: a compact one without blanks, and one laid out over lines.
Inside a string only the quote, the backslash and the control characters are
escaped. -/

namespace PayloadSchema

def Number.render : Number → String
  | .int n => toString n
  | .float x => x.render

namespace Json

/-! ## Strings -/

/-- The lower-case hexadecimal digit of a number below sixteen. -/
def hexDigit (n : Nat) : Char := Nat.digitChar n

/-- A character as it stands inside a quoted string. -/
def escape (c : Char) : String :=
  if c = '"' then "\\\""
  else if c = '\\' then "\\\\"
  else if c = '\n' then "\\n"
  else if c = '\r' then "\\r"
  else if c = '\t' then "\\t"
  else if c = '\x08' then "\\b"
  else if c = '\x0c' then "\\f"
  else if c.toNat < 0x20 then
    "\\u00" ++ String.ofList [hexDigit (c.toNat / 16), hexDigit (c.toNat % 16)]
  else c.toString

def quote (text : String) : String :=
  "\"" ++ String.join (text.toList.map escape) ++ "\""

/-! ## Compact text -/

mutual

def compact : Json → String
  | .null => "null"
  | .bool true => "true"
  | .bool false => "false"
  | .num n => n.render
  | .str s => quote s
  | .arr items => "[" ++ ",".intercalate (compactItems items) ++ "]"
  | .obj members => "\x7b" ++ ",".intercalate (compactMembers members) ++ "\x7d"

def compactItems : List Json → List String
  | [] => []
  | item :: rest => compact item :: compactItems rest

def compactMembers : Members → List String
  | [] => []
  | (key, value) :: rest => (quote key ++ ":" ++ compact value) :: compactMembers rest

end

/-! ## Text over lines -/

/-- Encloses the texts of parts, each on a line of its own that is indented one
    level deeper than the closing bracket.  Without parts the brackets meet. -/
def enclose (opening closing : String) (depth : Nat) (parts : List String) : String :=
  let newline (depth : Nat) : String := "\n" ++ String.ofList (List.replicate (2 * depth) ' ')
  if parts.isEmpty then opening ++ closing
  else
    opening ++ newline (depth + 1) ++ ("," ++ newline (depth + 1)).intercalate parts ++
      newline depth ++ closing

mutual

/-- The text of a value over lines, two blanks for each level of `depth`. -/
def pretty (depth : Nat) : Json → String
  | .arr items => enclose "[" "]" depth (prettyItems (depth + 1) items)
  | .obj members => enclose "\x7b" "\x7d" depth (prettyMembers (depth + 1) members)
  | .null => "null"
  | .bool true => "true"
  | .bool false => "false"
  | .num n => n.render
  | .str s => quote s

def prettyItems (depth : Nat) : List Json → List String
  | [] => []
  | item :: rest => pretty depth item :: prettyItems depth rest

def prettyMembers (depth : Nat) : Members → List String
  | [] => []
  | (key, value) :: rest =>
    (quote key ++ ": " ++ pretty depth value) :: prettyMembers depth rest

end

end Json

end PayloadSchema
