import PayloadSchema.Command.Basic
import PayloadSchema.Json.Printer
import PayloadSchema.Registry

/-! # Running commands

A command reads the files it is given and ends in a report: what it writes to the
standard output and the standard error, and its exit status.  A command that has to
write a file says so instead, once nothing else can go wrong, and its report then
depends on whether the file could be written. -/

namespace PayloadSchema

namespace Command

structure Report where
  status : Nat
  output : String := ""
  errors : String := ""
deriving DecidableEq, Repr

/-- What is left to do for a command. -/
inductive Ending where
  | report (report : Report)
  /-- Write a text to a file, as the only one. -/
  | save (path text : String)
deriving DecidableEq, Repr

namespace Ending

/-- The report of a command, given whether the file it has to write was written. -/
def settle (ending : Ending) (written : Bool) : Report :=
  match ending with
  | .report settled => settled
  | .save path _ =>
    if written then { status := 0 }
    else { status := 3, errors := s!"Error writing to {path}:\n" }

end Ending

def plainError (message : String) (status : Nat) : Report :=
  { status, errors := s!"Error: {message}\n" }

def jsonLine (members : Members) (status : Nat) : Report :=
  { status, output := (Json.obj members).compact ++ "\n" }

/-! ## Compiling -/

def registry (disk : Disk) (schema : String) (options : Options) :
    Except ValidationError Registry :=
  match Schema.load disk schema with
  | .error error => .error (.load error)
  | .ok schema =>
    match schema.compile options with
    | .error error => .error (.schema error)
    | .ok registry => .ok registry

def described (registry : Registry) : Option String → Except ValidationError Json
  | none => .ok registry.describe
  | some name =>
    match registry.get? name with
    | some validator => .ok validator.describe
    | none => .error (.unknownMessage name)

end Command

open Command

def CompileCommand.run (command : CompileCommand) (disk : Disk) : Ending :=
  let shown := do described (← registry disk command.schema {}) command.message
  match shown with
  | .error error => .report (plainError error.message error.exitStatus)
  | .ok view =>
    let text := if command.pretty then view.pretty 0 else view.compact
    match command.output with
    | some path => .save path text
    | none => .report { status := 0, output := text ++ "\n" }

/-! ## Validating -/

namespace ValidateCommand

/-- A value that counts as absent: what its text says as JSON, else the text. -/
def emptyValue (word : String) : Json := (Json.parse? word).getD (.str word)

/-- The choices that the command makes for the compiler. -/
def options (command : ValidateCommand) : Options :=
  { empty := command.empty.map emptyValue, allowUnknown := command.allowUnknown }

/-- The report of an error other than a refused payload. -/
def failure (command : ValidateCommand) (message : String) (status : Nat) :
    Report :=
  if command.json then jsonLine [("valid", .bool false), ("error", .str message)] status
  else plainError message status

def accepted (command : ValidateCommand) (value : Json) : Report :=
  if command.json then jsonLine [("valid", .bool true), ("value", value)] 0
  else { status := 0, output := "Valid\n" }

def refused (command : ValidateCommand) (violations : List Violation) : Report :=
  if command.json then
    jsonLine [("valid", .bool false), ("errors", .arr (violations.map Violation.json))] 1
  else
    let lines := violations.map fun violation => s!"  {violation.render}\n"
    { status := 1, errors := "Validation failed:\n" ++ String.join lines }

/-- Runs the `validate` command.  The payload is loaded before the schema. -/
def run (command : ValidateCommand) (disk : Disk) : Report :=
  match Json.load disk command.payload with
  | .error error => command.failure s!"loading payload: {error.message}" error.exitStatus
  | .ok payload =>
    let result := do
      (← registry disk command.schema command.options).validate command.message payload
    match result with
    | .ok value => command.accepted value
    | .error (.invalid violations) => command.refused violations
    | .error error => command.failure error.message error.exitStatus

end ValidateCommand

/-! ## All commands -/

namespace Command

def inputs : Command → List String
  | .version => []
  | .compile command => [command.schema]
  | .validate command => [command.payload, command.schema]

def run (command : Command) (disk : Disk) : Ending :=
  match command with
  | .version => .report { status := 0, output := "proto-rules 0.1.0\n" }
  | .compile command => command.run disk
  | .validate command => .report (command.run disk)

end Command

end PayloadSchema
