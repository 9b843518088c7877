import PayloadSchema.Proofs.Command.Load
import PayloadSchema.Proofs.Completeness
import PayloadSchema.Proofs.Json.ReadBack

/-! # The `compile` command shows a schema in one place, or leaves no trace

The command loads and compiles the schema and looks for the message it is to show before it
writes anything.  If one of these fails, it says so on the standard error only.  Otherwise its
text goes to the standard output or to a file, and never to both.

What is shown of one message is what is shown of it among all messages.  The texts are compared
by the documents that are read from them, with their keys in order. -/

namespace PayloadSchema

open Command

namespace Command

/-- What the disk may hold once a command has ended, given whether the file that it has to write
    was written.  A file that could not be written may hold anything. -/
inductive Ending.Leaves (disk : Disk) : Ending → Bool → Disk → Prop where
  | report (report : Report) (written : Bool) : Leaves disk (.report report) written disk
  | saved (path text : String) :
      Leaves disk (.save path text) true (Function.update disk path (.text text))
  | unsaved {path : String} (text : String) {after : Disk}
      (others : ∀ other, other ≠ path → after other = disk other) :
      Leaves disk (.save path text) false after

/-- How a command may end: with its report, and what the disk holds then. -/
structure MayEnd (command : Command) (disk : Disk) (written : Bool) (report : Report)
    (after : Disk) : Prop where
  settles : (command.run disk).settle written = report
  leaves : (command.run disk).Leaves disk written after

namespace MayEnd

variable {command : Command} {disk after : Disk} {written : Bool} {report other : Report}
  {path text : String}

theorem of_report (ends : command.MayEnd disk written report after)
    (ran : command.run disk = .report other) : report = other ∧ after = disk := by
  obtain ⟨settles, leaves⟩ := ends
  rw [ran] at settles leaves
  cases leaves with
  | report => exact ⟨settles.symm, rfl⟩

theorem of_saved (ends : command.MayEnd disk true report after)
    (ran : command.run disk = .save path text) :
    report = { status := 0 } ∧ after = Function.update disk path (.text text) := by
  obtain ⟨settles, leaves⟩ := ends
  rw [ran] at settles leaves
  cases leaves with
  | saved => exact ⟨settles.symm, rfl⟩

theorem of_unsaved (ends : command.MayEnd disk false report after)
    (ran : command.run disk = .save path text) :
    report.status = 3 ∧ report.output = "" ∧ ∀ other, other ≠ path → after other = disk other := by
  obtain ⟨settles, leaves⟩ := ends
  rw [ran] at settles leaves
  subst settles
  cases leaves with
  | unsaved _ others => exact ⟨rfl, rfl, others⟩

end MayEnd

end Command

namespace CompileCommand

/-- A step of the command fails, before there is anything to write. -/
inductive Fails (command : CompileCommand) (disk : Disk) : Prop where
  | load (missing : ∀ schema, ¬ disk.Gives Schema.parse? command.schema schema)
  | compile {schema : Schema} {error : SchemaError}
      (given : disk.Gives Schema.parse? command.schema schema)
      (failed : schema.compile {} = .error error)
  | lookup {schema : Schema} {name : String}
      (given : disk.Gives Schema.parse? command.schema schema)
      (filtered : command.message = some name)
      (undeclared : name ∉ schema.messages.map Message.name)

/-- Whether a command leaves no trace: neither on the standard output nor on the disk. -/
def LeavesNoTrace (command : CompileCommand) (disk : Disk) : Prop :=
  ∀ written report after, (Command.compile command).MayEnd disk written report after →
    report.status ≠ 0 ∧ report.output = "" ∧ after = disk

/-- Whether a command writes a JSON text of a document, to one place only. -/
structure Prints (command : CompileCommand) (disk : Disk) (text : String) (document : Document) :
    Prop where
  read : Document.read? text = some document
  /-- Without a file to write, the text and a line break are put out and the disk stays. -/
  toOutput : command.output = none → ∀ written report after,
    (Command.compile command).MayEnd disk written report after →
    report = { status := 0, output := text ++ "\n" } ∧ after = disk
  /-- The text is all that the file holds, and nothing is put out. -/
  toFile : ∀ path, command.output = some path → ∀ report after,
    (Command.compile command).MayEnd disk true report after →
    report = { status := 0 } ∧ after = Function.update disk path (.text text)
  /-- A file that cannot be written makes the command fail, and no other file is touched. -/
  unwritten : ∀ path, command.output = some path → ∀ report after,
    (Command.compile command).MayEnd disk false report after →
    report.status ≠ 0 ∧ report.output = "" ∧ ∀ other, other ≠ path → after other = disk other

/-- Whether all that commands show of a schema are the entries of one object: one entry for each
    message at the top, which is what is shown of the message alone. -/
structure Entries (disk : Disk) (path : String) (schema : Schema) (entries : Document.Entries) :
    Prop where
  distinct : (entries.map Prod.fst).Nodup
  keys : ∀ key, key ∈ entries.map Prod.fst ↔ ∃ message ∈ schema.messages, key = some message.name
  all : ∀ command : CompileCommand, command.schema = path → command.message = none →
    ∃ text, command.Prints disk text (.object entries)
  one : ∀ name document, (some name, document) ∈ entries → ∀ command : CompileCommand,
    command.schema = path → command.message = some name →
    ∃ text, command.Prints disk text document

variable {command : CompileCommand} {disk : Disk} {schema : Schema} {registry : Registry}
  {view : Json}

/-! ## Running the command -/

def text (command : CompileCommand) (view : Json) : String :=
  if command.pretty then view.pretty 0 else view.compact

theorem read?_text (command : CompileCommand) (view : Json) :
    Document.read? (command.text view) = some view.document := by
  unfold text
  split
  · exact (view.pretty_writtenAs 0).read?
  · exact view.writtenAs.read?

theorem run_of_registry (given : disk.Gives Schema.parse? command.schema schema)
    (compiled : schema.compile {} = .ok registry) :
    command.run disk =
      match described registry command.message with
      | .error error => .report (plainError error.message error.exitStatus)
      | .ok view =>
        match command.output with
        | some path => .save path (command.text view)
        | none => .report { status := 0, output := command.text view ++ "\n" } := by
  rw [run, registry_eq_ok_iff.mpr ⟨schema, given, compiled⟩]
  rfl

theorem prints_of_described (given : disk.Gives Schema.parse? command.schema schema)
    (compiled : schema.compile {} = .ok registry)
    (shown : described registry command.message = .ok view) :
    command.Prints disk (command.text view) view.document := by
  have ran : (Command.compile command).run disk = _ := run_of_registry given compiled
  rw [shown] at ran
  refine {
    read := command.read?_text view
    toOutput := fun unnamed written report after ends => ?_
    toFile := fun path named report after ends => ?_
    unwritten := fun path named report after ends => ?_ }
  · rw [unnamed] at ran
    exact ends.of_report ran
  · rw [named] at ran
    exact ends.of_saved ran
  · rw [named] at ran
    obtain ⟨status, output, others⟩ := ends.of_unsaved ran
    exact ⟨by simp [status], output, others⟩

theorem leavesNoTrace_of_error {error : ValidationError}
    (ran : command.run disk = .report (plainError error.message error.exitStatus)) :
    command.LeavesNoTrace disk := by
  intro written report after ends
  obtain ⟨rfl, same⟩ := ends.of_report ran
  exact ⟨error.exitStatus_ne_zero, rfl, same⟩

theorem leavesNoTrace_of_registry {error : ValidationError}
    (failed : Command.registry disk command.schema {} = .error error) :
    command.LeavesNoTrace disk := by
  have ran : command.run disk = .report (plainError error.message error.exitStatus) := by
    rw [run, failed]
    rfl
  exact leavesNoTrace_of_error ran

theorem Fails.leavesNoTrace (fails : command.Fails disk) : command.LeavesNoTrace disk := by
  cases made : Command.registry disk command.schema {} with
  | error error => exact leavesNoTrace_of_registry made
  | ok registry =>
    obtain ⟨schema, given, compiled⟩ := registry_eq_ok_iff.mp made
    cases fails with
    | load missing => exact absurd given (missing schema)
    | compile given' failed =>
      cases given.unique given'
      cases compiled.symm.trans failed
    | lookup given' filtered undeclared =>
      cases given.unique given'
      have complete := Schema.compile_complete compiled
      have ran := run_of_registry given compiled
      rw [filtered, described, complete.get?_eq_none undeclared] at ran
      exact leavesNoTrace_of_error ran

theorem exists_described (succeeds : ¬ command.Fails disk) :
    ∃ schema registry view, disk.Gives Schema.parse? command.schema schema ∧
      schema.compile {} = .ok registry ∧ described registry command.message = .ok view := by
  obtain ⟨schema, given⟩ := not_forall_not.mp fun missing => succeeds (.load missing)
  cases compiled : schema.compile {} with
  | error error => exact absurd (.compile given compiled) succeeds
  | ok registry =>
    cases filtered : command.message with
    | none => exact ⟨schema, registry, _, given, compiled, rfl⟩
    | some name =>
      have declared : name ∈ schema.messages.map Message.name := by
        by_contra undeclared
        exact succeeds (.lookup given filtered undeclared)
      have found := ((Schema.compile_complete compiled).found name).mpr declared
      obtain ⟨validator, found⟩ := Option.isSome_iff_exists.mp found
      refine ⟨schema, registry, validator.describe, given, compiled, ?_⟩
      rw [described, found]

def registryEntries (registry : Registry) : Document.Entries :=
  registry.validators.map fun validator => (some validator.name, validator.describe.document)

theorem document_describe (registry : Registry) :
    registry.describe.document = .object (registryEntries registry) := by
  rw [Registry.describe, Json.document, Json.entries_eq, List.map_map]
  rfl

theorem registryEntries_keys (registry : Registry) :
    (registryEntries registry).map Prod.fst = registry.names.map some := by
  rw [registryEntries, Registry.names, List.map_map, List.map_map]
  rfl

theorem entries_of_compile {path : String} (given : disk.Gives Schema.parse? path schema)
    (compiled : schema.compile {} = .ok registry) :
    Entries disk path schema (registryEntries registry) := by
  have complete := Schema.compile_complete compiled
  have distinct := Registry.nodup_of_pairwise complete.ordered
  refine { distinct := ?_, keys := fun key => ?_, all := ?_, one := ?_ }
  · rw [registryEntries_keys]
    exact distinct.map fun _ _ same => Option.some.inj same
  · simp [registryEntries_keys, complete.names.mem_iff, eq_comm]
  · rintro command rfl unfiltered
    rw [← document_describe]
    exact ⟨_, prints_of_described given compiled (by rw [unfiltered, described])⟩
  · rintro name document listed command rfl filtered
    obtain ⟨validator, member, same⟩ := List.mem_map.mp listed
    cases same
    refine ⟨_, prints_of_described given compiled ?_⟩
    rw [filtered, described, Registry.get?_of_mem distinct member]

end CompileCommand

namespace Command

/-- A `compile` command leaves no trace if a step of it fails, and prints one document otherwise.
    What commands print of a schema that compiles are an object with one entry for each message
    at the top, and these entries. -/
theorem run_compile_prints (disk : Disk) :
    (∀ command : CompileCommand, command.Fails disk → command.LeavesNoTrace disk) ∧
    (∀ command : CompileCommand, ¬ command.Fails disk →
      ∃ text document, command.Prints disk text document) ∧
    ∀ path schema registry, disk.Gives Schema.parse? path schema →
      schema.compile {} = .ok registry →
      ∃ entries, CompileCommand.Entries disk path schema entries := by
  refine ⟨fun command fails => fails.leavesNoTrace, fun command succeeds => ?_, ?_⟩
  · obtain ⟨schema, registry, view, given, compiled, shown⟩ :=
      CompileCommand.exists_described succeeds
    exact ⟨_, _, CompileCommand.prints_of_described given compiled shown⟩
  · exact fun path schema registry given compiled =>
      ⟨_, CompileCommand.entries_of_compile given compiled⟩

def labels : String :=
  "\x7b\"messages\": [\x7b\"name\": \"Label\"," ++
    "\"fields\": [\x7b\"name\": \"text\", \"type\": \"string\"\x7d]\x7d]\x7d"

def shelf : Disk := fun path => if path = "labels.json" then .text labels else .absent

theorem shelf_prints :
    ∃ schema registry, shelf.Gives Schema.parse? "labels.json" schema ∧
      schema.compile {} = .ok registry ∧
      (∃ entries, CompileCommand.Entries shelf "labels.json" schema entries) ∧
      CompileCommand.LeavesNoTrace { schema := "lists.json", output := some "out.json" } shelf := by
  obtain ⟨failing, _, printed⟩ := run_compile_prints shelf
  have evaluated : ((Schema.parse? labels).bind fun schema =>
      (schema.compile {}).toOption).isSome = true := by decide +kernel
  obtain ⟨registry, compiles⟩ := Option.isSome_iff_exists.mp evaluated
  obtain ⟨schema, read, compiled⟩ := Option.bind_eq_some_iff.mp compiles
  have given : shelf.Gives Schema.parse? "labels.json" schema := ⟨labels, if_pos rfl, read⟩
  have compiled := toOption_eq_some_iff.mp compiled
  refine ⟨schema, registry, given, compiled, printed _ _ _ given compiled, failing _ (.load ?_)⟩
  rintro other ⟨content, stored, _⟩
  rw [shelf, if_neg (by decide)] at stored
  cases stored

/-- A message that the schema does not declare is told on the standard error only. -/
example :
    let command := CompileCommand.mk "labels.json" (some "List") (some "out.json") true
    (Command.compile command).run shelf = .report
      { status := 2, errors := "Error: schema has no top-level message named 'List'\n" } := by
  decide +kernel

end Command

end PayloadSchema
