import PayloadSchema.Command.Run

/-! # The tool

Reads the files of a command, runs it, and does what is left to do. -/

open PayloadSchema

namespace PayloadSchema.Main

def usage : String :=
  "Usage: proto-rules compile <SCHEMA> [-m <NAME>] [--output <FILE>] [--pretty]\n" ++
  "       proto-rules validate <PAYLOAD> --schema <FILE> -m <NAME> [--empty <VALUE>]... " ++
  "[--allow-unknown] [--json]\n" ++
  "       proto-rules --version\n"

/-- Finds what a path leads to.  A path that cannot be followed to its end, such as
    one that is too long, leads nowhere. -/
def lookAt (path : String) : IO Stored := do
  try
    return .ofBytes (← IO.FS.readBinFile path)
  catch
    | .noFileOrDirectory _ _ _ => return .absent
    | .inappropriateType (some _) _ _ => return .absent
    | .invalidArgument (some _) _ _ => return .absent
    | _ => return .unreadable

/-- Writes a text to a file, and tells whether that was possible. -/
def save (path text : String) : IO Bool := do
  try
    IO.FS.writeFile path text
    return true
  catch _ => return false

def execute (command : Command) : IO Command.Report := do
  let found ← command.inputs.mapM fun path => return (path, ← lookAt path)
  let ending := command.run fun path => (found.lookup path).getD .absent
  let written ← match ending with
    | .report _ => pure false
    | .save path text => save path text
  return ending.settle written

end PayloadSchema.Main

def main (words : List String) : IO UInt32 := do
  match Command.ofWords? words with
  | none =>
    IO.eprint Main.usage
    return 2
  | some command =>
    let report ← Main.execute command
    IO.print report.output
    IO.eprint report.errors
    return report.status.toUInt32
