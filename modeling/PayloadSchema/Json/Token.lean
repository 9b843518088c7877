import PayloadSchema.Json.Numeral

/-! # The tokens of a JSON text

A text is scanned from left to right by a machine whose state says inside which
lexeme it stands.  Words and numerals extend as far as their characters go, so
that a lexeme is judged as a whole when it ends.

A string may name a character outside the basic plane by two escaped surrogates.
A surrogate without its partner leaves the string without a text; whether that is
an error is for the reader of the tokens to say. -/

namespace PayloadSchema

/-- A token.  A string token has no text where its surrogates do not pair up. -/
inductive Token where
  | openArray
  | closeArray
  | openObject
  | closeObject
  | comma
  | colon
  | null
  | bool (value : Bool)
  | number (numeral : Numeral)
  | string (text : Option String)

namespace Token

/-! ## Characters of a string -/

/-- What a string is written with: characters, and escaped surrogates. -/
inductive Piece where
  | char (c : Char)
  | surrogate (unit : Nat)

/-- The piece that an escaped 16-bit unit stands for. -/
def Piece.ofUnit (unit : Nat) : Piece :=
  if 0xD800 ≤ unit ∧ unit ≤ 0xDFFF then .surrogate unit else .char (Char.ofNat unit)

/-- Joins each leading surrogate with the trailing one after it.  Any other
    surrogate has no character. -/
def Piece.join? : List Piece → Option (List Char)
  | [] => some []
  | .char c :: rest => (join? rest).map (c :: ·)
  | .surrogate lead :: .surrogate trail :: rest =>
    if lead < 0xDC00 ∧ 0xDC00 ≤ trail then
      let point := 0x10000 + (lead - 0xD800) * 0x400 + (trail - 0xDC00)
      (join? rest).map (Char.ofNat point :: ·)
    else none
  | .surrogate _ :: _ => none

def escaped? : Char → Option Char
  | '"' => some '"'
  | '\\' => some '\\'
  | '/' => some '/'
  | 'b' => some '\x08'
  | 'f' => some '\x0c'
  | 'n' => some '\n'
  | 'r' => some '\r'
  | 't' => some '\t'
  | _ => none

def hexValue? (c : Char) : Option Nat :=
  if c.isDigit then some (c.toNat - '0'.toNat)
  else if 'a' ≤ c ∧ c ≤ 'f' then some (c.toNat - 'a'.toNat + 10)
  else if 'A' ≤ c ∧ c ≤ 'F' then some (c.toNat - 'A'.toNat + 10)
  else none

/-! ## The scanner -/

/-- Inside which lexeme the scanner stands.  What has been read of it is kept in
    reverse. -/
inductive Lexeme where
  | none
  | word (letters : List Char)
  | numeral (written : List Char)
  | string (pieces : List Piece)
  | escape (pieces : List Piece)
  | unit (pieces : List Piece) (digits : Nat) (value : Nat)

/-- The state of the scanner: the lexeme it is in, and the finished tokens in
    reverse. -/
structure Scan where
  lexeme : Lexeme := .none
  tokens : List Token := []

namespace Scan

def emit (scan : Scan) (token : Token) : Scan := ⟨.none, token :: scan.tokens⟩

def stay (scan : Scan) (lexeme : Lexeme) : Scan := { scan with lexeme := lexeme }

/-- Meets a character outside every lexeme. -/
def start (scan : Scan) (c : Char) : Option Scan :=
  match c with
  | ' ' | '\t' | '\n' | '\r' => some (scan.stay .none)
  | '[' => some (scan.emit .openArray)
  | ']' => some (scan.emit .closeArray)
  | '\x7b' => some (scan.emit .openObject)
  | '\x7d' => some (scan.emit .closeObject)
  | ',' => some (scan.emit .comma)
  | ':' => some (scan.emit .colon)
  | '"' => some (scan.stay (.string []))
  | c =>
    if c.isAlpha then some (scan.stay (.word [c]))
    else if c.isDigit || c = '-' then some (scan.stay (.numeral [c]))
    else none

def wordToken? (letters : List Char) : Option Token :=
  if letters = "null".toList then some .null
  else if letters = "true".toList then some (.bool true)
  else if letters = "false".toList then some (.bool false)
  else none

/-- Ends a word or a numeral.  A string ends by its own quote only. -/
def close (scan : Scan) : Option Scan :=
  match scan.lexeme with
  | .none => some scan
  | .word letters => (wordToken? letters.reverse).map scan.emit
  | .numeral written =>
    (Numeral.ofChars? written.reverse).map fun numeral => scan.emit (.number numeral)
  | .string _ | .escape _ | .unit _ _ _ => none

/-- Whether a character belongs to a numeral that has begun. -/
def isNumeralChar (c : Char) : Bool :=
  c.isDigit || c = '.' || c = 'e' || c = 'E' || c = '+' || c = '-'

def step (scan : Scan) (c : Char) : Option Scan :=
  match scan.lexeme with
  | .none => scan.start c
  | .word letters =>
    if c.isAlpha then some (scan.stay (.word (c :: letters)))
    else scan.close.bind fun closed => closed.start c
  | .numeral written =>
    if isNumeralChar c then some (scan.stay (.numeral (c :: written)))
    else scan.close.bind fun closed => closed.start c
  | .string pieces =>
    if c = '"' then
      some (scan.emit (.string ((Piece.join? pieces.reverse).map String.ofList)))
    else if c = '\\' then some (scan.stay (.escape pieces))
    else if c.toNat < 0x20 then none
    else some (scan.stay (.string (.char c :: pieces)))
  | .escape pieces =>
    if c = 'u' then some (scan.stay (.unit pieces 0 0))
    else (escaped? c).map fun escaped => scan.stay (.string (.char escaped :: pieces))
  | .unit pieces digits value =>
    (hexValue? c).map fun digit =>
      let value := 16 * value + digit
      if digits = 3 then scan.stay (.string (.ofUnit value :: pieces))
      else scan.stay (.unit pieces (digits + 1) value)

end Scan

/-- The tokens of a text, or `none` where some lexeme is malformed. -/
def scan? (text : String) : Option (List Token) :=
  ((text.toList.foldlM Scan.step {}).bind Scan.close).map fun scan => scan.tokens.reverse

end Token

end PayloadSchema
