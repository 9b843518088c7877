import PayloadSchema.Command.Line

/-! # Commands

The tool compiles a schema and shows the rules of its messages, or validates a
payload against a message of a schema. -/

namespace PayloadSchema

/-- What to compile, and where to show it. -/
structure CompileCommand where
  schema : String
  /-- The one message to show, if not all of them. -/
  message : Option String := none
  /-- The file to write, if not the standard output. -/
  output : Option String := none
  pretty : Bool := false
deriving DecidableEq, Repr

/-- What to validate, and how to report. -/
structure ValidateCommand where
  payload : String
  schema : String
  message : String
  /-- Values that count as absent, as they are written. -/
  empty : List String := []
  allowUnknown : Bool := false
  json : Bool := false
deriving DecidableEq, Repr

inductive Command where
  | version
  | compile (command : CompileCommand)
  | validate (command : ValidateCommand)
deriving DecidableEq, Repr

namespace Command

def compileOptions : List OptionSpec :=
  [{ name := "message", short := some 'm', takesValue := true },
    { name := "output", takesValue := true }, { name := "pretty" }]

def validateOptions : List OptionSpec :=
  [{ name := "schema", takesValue := true },
    { name := "message", short := some 'm', takesValue := true },
    { name := "empty", takesValue := true, repeatable := true },
    { name := "allow-unknown" }, { name := "json" }]

/-- A path names something. -/
def path? (word : String) : Option String := if word.isEmpty then none else some word

/-- The one positional argument of a line, a path. -/
def Line.onlyPath? (line : Line) : Option String :=
  match line.positionals with
  | [word] => path? word
  | _ => none

def compile? (words : List String) : Option CompileCommand := do
  let line ← Line.read? compileOptions words
  let schema ← line.onlyPath?
  let output ← match line.value? "output" with
    | none => some none
    | some word => (path? word).map some
  pure { schema, message := line.value? "message", output, pretty := line.has "pretty" }

def validate? (words : List String) : Option ValidateCommand := do
  let line ← Line.read? validateOptions words
  let payload ← line.onlyPath?
  let schema ← (line.value? "schema").bind path?
  let message ← line.value? "message"
  pure
    { payload, schema, message
      empty := line.values "empty"
      allowUnknown := line.has "allow-unknown"
      json := line.has "json" }

def asksVersion (word : String) : Bool :=
  match Word.ofString word with
  | .long name none => name = "version"
  | .short letter _ => letter = 'V'
  | _ => false

/-- Reads a command line, without the name of the tool.  There is no command where
    it is written wrong. -/
def ofWords? : List String → Option Command
  | "compile" :: rest => (compile? rest).map .compile
  | "validate" :: rest => (validate? rest).map .validate
  | word :: _ => if asksVersion word then some .version else none
  | [] => none

end Command

end PayloadSchema
