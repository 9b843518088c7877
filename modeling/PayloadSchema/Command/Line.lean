/-! # Command lines

A command line is a list of words.  Some are options, with or without a value, and
the others are its positional arguments.  A value stands behind its option, or is
attached to it; one that stands alone must not look like an option.  After a double
hyphen every word is positional. -/

namespace PayloadSchema.Command

structure OptionSpec where
  name : String
  short : Option Char := none
  takesValue : Bool := false
  repeatable : Bool := false
deriving DecidableEq, Repr

inductive Word where
  | terminator
  /-- The long name of an option, perhaps with a value behind an equals sign. -/
  | long (name : String) (attached : Option String)
  /-- The letter of an option, perhaps with a value right behind it. -/
  | short (letter : Char) (attached : Option String)
  | plain (text : String)

/-- How a word looks.  A single hyphen alone is plain. -/
def Word.ofString (word : String) : Word :=
  match word.toList with
  | ['-', '-'] => .terminator
  | '-' :: '-' :: rest =>
    let name := String.ofList (rest.takeWhile (· ≠ '='))
    match rest.dropWhile (· ≠ '=') with
    | [] => .long name none
    | _ :: value => .long name (some (String.ofList value))
  | ['-', letter] => .short letter none
  | '-' :: letter :: '=' :: value => .short letter (some (String.ofList value))
  | '-' :: letter :: value => .short letter (some (String.ofList value))
  | _ => .plain word

/-- A command line taken apart.  An option without a value is given the empty one. -/
structure Line where
  positionals : List String := []
  options : List (String × String) := []
deriving DecidableEq, Repr

namespace Line

/-- The option that a word names, with the value attached to it. -/
def option? (specs : List OptionSpec) : Word → Option (OptionSpec × Option String)
  | .long name attached => (specs.find? fun spec => spec.name = name).map (·, attached)
  | .short letter attached => (specs.find? fun spec => spec.short = some letter).map (·, attached)
  | .terminator | .plain _ => none

def withPositional (line : Line) (word : String) : Line :=
  { line with positionals := word :: line.positionals }

def withOption (line : Line) (name value : String) : Line :=
  { line with options := (name, value) :: line.options }

/-- Takes a command line apart, or finds a word that does not belong there. -/
def split? (specs : List OptionSpec) : List String → Option Line
  | [] => some {}
  | word :: rest =>
    match Word.ofString word with
    | .terminator => some { positionals := rest }
    | .plain text => (split? specs rest).map (·.withPositional text)
    | look =>
      match option? specs look with
      | none => none
      | some (spec, attached) =>
        match spec.takesValue, attached with
        | true, some value => (split? specs rest).map (·.withOption spec.name value)
        | false, none => (split? specs rest).map (·.withOption spec.name "")
        | false, some _ => none
        | true, none =>
          match rest with
          | [] => none
          | next :: rest =>
            match Word.ofString next with
            | .plain value => (split? specs rest).map (·.withOption spec.name value)
            | _ => none

def values (line : Line) (name : String) : List String :=
  line.options.filterMap fun option => if option.1 = name then some option.2 else none

def value? (line : Line) (name : String) : Option String := (line.values name).head?

def has (line : Line) (name : String) : Bool := !(line.values name).isEmpty

/-- Takes a command line apart and requires that no option repeats that may not. -/
def read? (specs : List OptionSpec) (words : List String) : Option Line :=
  (split? specs words).filter fun line =>
    specs.all fun spec => spec.repeatable || (line.values spec.name).length ≤ 1

end Line

end PayloadSchema.Command
