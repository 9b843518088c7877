import PayloadSchema.Proofs.Command.Load
import PayloadSchema.Proofs.Completeness
import PayloadSchema.Proofs.Json.ReadBack

/-! # The `validate` command says what the library says

The command loads the payload and then the schema, compiles the schema and validates the
payload.  Its report is that of the library: the exit status tells a payload that is
accepted from one that is refused, and both from files that cannot be read and from
everything else.  How the command reports has no part in it. -/

namespace PayloadSchema

open Command

/-- The value that a word states as one that counts as absent: what it says as JSON, or the
    word itself where it is no JSON. -/
inductive StatesEmpty (word : String) : Json → Prop where
  | json {value : Json} (read : Json.parse? word = some value) : StatesEmpty word value
  | bare (unreadable : Json.parse? word = none) : StatesEmpty word (.str word)

namespace ValidateCommand

variable {command : ValidateCommand} {disk : Disk}

/-- The options that a command states: the values of its words in order, and its flag. -/
structure States (command : ValidateCommand) (options : Options) : Prop where
  empty : List.Forall₂ StatesEmpty command.empty options.empty
  allowUnknown : options.allowUnknown = command.allowUnknown

theorem statesEmpty_iff {word : String} {value : Json} :
    StatesEmpty word value ↔ emptyValue word = value := by
  unfold emptyValue
  constructor
  · rintro (read | unreadable)
    · rw [read, Option.getD_some]
    · rw [unreadable, Option.getD_none]
  · rintro rfl
    cases read : Json.parse? word with
    | none => exact .bare read
    | some value => exact .json read

/-- The options that are made for a command are the ones that it states. -/
theorem states_iff {options : Options} : command.States options ↔ options = command.options := by
  have words (values : List Json) :
      List.Forall₂ StatesEmpty command.empty values ↔ command.empty.map emptyValue = values := by
    rw [← List.forall₂_eq_eq_eq, List.forall₂_map_left_iff]
    exact ⟨fun each => each.imp fun _ _ => statesEmpty_iff.mp,
      fun each => each.imp fun _ _ => statesEmpty_iff.mpr⟩
  obtain ⟨empty, allowUnknown⟩ := options
  rw [ValidateCommand.options, Options.mk.injEq]
  constructor
  · rintro ⟨empty, flag⟩
    exact ⟨((words _).mp empty).symm, flag⟩
  · rintro ⟨same, flag⟩
    exact ⟨(words _).mpr same.symm, flag⟩

/-- The answer of the library to a command whose files can be used: both are loaded, the
    schema compiles under the options that the command states, and the message is declared
    at the top of the schema. -/
inductive Answered (command : ValidateCommand) (disk : Disk) :
    Except ValidationError Json → Prop where
  | intro {payload : Json} {schema : Schema} {options : Options} {registry : Registry}
      (payloadGiven : disk.Gives Json.parse? command.payload payload)
      (schemaGiven : disk.Gives Schema.parse? command.schema schema)
      (stated : command.States options)
      (compiled : schema.compile options = .ok registry)
      (declared : command.message ∈ schema.messages.map Message.name) :
      Answered command disk (registry.validate command.message payload)

def Accepts (command : ValidateCommand) (disk : Disk) (value : Json) : Prop :=
  command.Answered disk (.ok value)

def Refuses (command : ValidateCommand) (disk : Disk) (violations : List Violation) : Prop :=
  command.Answered disk (.error (.invalid violations))

/-- A file is lacking where it is to be loaded, the payload before the schema. -/
def Unloaded (command : ValidateCommand) (disk : Disk) : Prop :=
  disk.Lacks command.payload ∨
    (∃ payload, disk.Gives Json.parse? command.payload payload) ∧ disk.Lacks command.schema

theorem Answered.unique {answer other : Except ValidationError Json}
    (answered : command.Answered disk answer) (answered' : command.Answered disk other) :
    answer = other := by
  obtain ⟨payloadGiven, schemaGiven, stated, compiled, _⟩ := answered
  obtain ⟨payloadGiven', schemaGiven', stated', compiled', _⟩ := answered'
  cases payloadGiven.unique payloadGiven'
  cases schemaGiven.unique schemaGiven'
  cases states_iff.mp stated
  cases states_iff.mp stated'
  cases compiled.symm.trans compiled'
  rfl

theorem not_unloaded_of_given {payload : Json}
    (given : disk.Gives Json.parse? command.payload payload)
    (stored : ¬ disk.Lacks command.schema) : ¬ command.Unloaded disk := by
  rintro (lacks | ⟨_, lacks⟩)
  · exact given.not_lacks lacks
  · exact stored lacks

theorem Answered.not_unloaded {answer : Except ValidationError Json}
    (answered : command.Answered disk answer) : ¬ command.Unloaded disk := by
  obtain ⟨payloadGiven, schemaGiven, _, _, _⟩ := answered
  exact not_unloaded_of_given payloadGiven schemaGiven.not_lacks

@[simp]
theorem status_accepted (value : Json) : (command.accepted value).status = 0 := by
  unfold accepted
  split <;> rfl

@[simp]
theorem status_refused (violations : List Violation) :
    (command.refused violations).status = 1 := by
  unfold refused
  split <;> rfl

@[simp]
theorem status_failure (message : String) (status : Nat) :
    (command.failure message status).status = status := by
  unfold failure
  split <;> rfl

/-! ## Running the command -/

def conclude (command : ValidateCommand) : Except ValidationError Json → Report
  | .ok value => command.accepted value
  | .error (.invalid violations) => command.refused violations
  | .error error => command.failure error.message error.exitStatus

theorem conclude_error {error : ValidationError} (status : error.exitStatus ≠ 1) :
    command.conclude (.error error) = command.failure error.message error.exitStatus := by
  cases error with
  | invalid violations => exact absurd rfl status
  | _ => rfl

theorem status_conclude (result : Except ValidationError Json) :
    (command.conclude result).status =
      match result with
      | .ok _ => 0
      | .error error => error.exitStatus := by
  cases result with
  | ok value => exact status_accepted value
  | error error =>
    cases error with
    | invalid violations => exact status_refused violations
    | _ => exact status_failure _ _

theorem run_of_given {payload : Json}
    (given : disk.Gives Json.parse? command.payload payload) :
    command.run disk = command.conclude (do
      (← registry disk command.schema command.options).validate command.message payload) := by
  rw [run, Json.load, Disk.load_eq_ok_iff.mpr given]
  rfl

inductive Ends (command : ValidateCommand) (disk : Disk) : Report → Prop where
  | accepted {value : Json} (accepts : command.Accepts disk value) :
      Ends command disk (command.accepted value)
  | refused {violations : List Violation} (refuses : command.Refuses disk violations) :
      Ends command disk (command.refused violations)
  | unloaded (unloaded : command.Unloaded disk) (message : String) :
      Ends command disk (command.failure message 3)
  | unanswered (unanswered : ∀ answer, ¬ command.Answered disk answer)
      (loaded : ¬ command.Unloaded disk) (message : String) :
      Ends command disk (command.failure message 2)

theorem ends_of_payload {error : LoadError}
    (failed : (disk command.payload).load Json.parse? command.payload = .error error)
    (message : String) : command.Ends disk (command.failure message error.exitStatus) := by
  have absent : ∀ payload, ¬ disk.Gives Json.parse? command.payload payload := by
    simp [← Disk.load_eq_ok_iff, failed]
  -- The payload is loaded first, so what the schema's path holds has no part in it.
  rcases Disk.load_eq_error failed with ⟨lacks, status⟩ | ⟨stored, status⟩
  · rw [status]
    exact .unloaded (.inl lacks) message
  · rw [status]
    refine .unanswered ?_ ?_ message
    · rintro _ ⟨given, _, _, _, _⟩
      exact absent _ given
    · rintro (lacks | ⟨⟨payload, given⟩, _⟩)
      · exact stored lacks
      · exact absent payload given

theorem ends_of_schema {payload : Json} {error : ValidationError}
    (given : disk.Gives Json.parse? command.payload payload)
    (failed : registry disk command.schema command.options = .error error) :
    command.Ends disk (command.conclude (.error error)) := by
  rcases registry_eq_error failed with ⟨lacks, status⟩ | ⟨stored, status⟩
  · rw [conclude_error (by simp [status]), status]
    exact .unloaded (.inr ⟨⟨payload, given⟩, lacks⟩) _
  · rw [conclude_error (by simp [status]), status]
    refine .unanswered ?_ (not_unloaded_of_given given stored) _
    rintro _ ⟨_, schemaGiven, stated, compiled, _⟩
    cases states_iff.mp stated
    cases failed.symm.trans (registry_eq_ok_iff.mpr ⟨_, schemaGiven, compiled⟩)

theorem ends_of_registry {payload : Json} {schema : Schema} {registry : Registry}
    (payloadGiven : disk.Gives Json.parse? command.payload payload)
    (schemaGiven : disk.Gives Schema.parse? command.schema schema)
    (compiled : schema.compile command.options = .ok registry) :
    command.Ends disk (command.conclude (registry.validate command.message payload)) := by
  -- A registry has a validator for a name just where the schema declares it at the top.
  by_cases declared : command.message ∈ schema.messages.map Message.name
  · have answered : command.Answered disk (registry.validate command.message payload) :=
      .intro payloadGiven schemaGiven (states_iff.mpr rfl) compiled declared
    have found : (registry.get? command.message).isSome = true :=
      Registry.get?_isSome_iff.mpr (((Schema.compile_names compiled).2 _).mpr declared)
    obtain ⟨validator, found⟩ := Option.isSome_iff_exists.mp found
    cases checked : validator.validate payload with
    | error violations =>
      simp only [Registry.validate, found, checked] at answered ⊢
      exact .refused answered
    | ok value =>
      simp only [Registry.validate, found, checked] at answered ⊢
      exact .accepted answered
  · have unknown : registry.validate command.message payload =
        .error (.unknownMessage command.message) :=
      Registry.validate_eq_unknownMessage_iff.mpr
        ⟨rfl, fun listed => declared (((Schema.compile_names compiled).2 _).mp listed)⟩
    rw [unknown]
    refine .unanswered ?_ (not_unloaded_of_given payloadGiven schemaGiven.not_lacks) _
    rintro _ ⟨_, schemaGiven', _, _, declared'⟩
    cases schemaGiven.unique schemaGiven'
    exact declared declared'

theorem run_ends (command : ValidateCommand) (disk : Disk) :
    command.Ends disk (command.run disk) := by
  cases loaded : (disk command.payload).load Json.parse? command.payload with
  | error error =>
    rw [run, Json.load, loaded]
    exact ends_of_payload loaded _
  | ok payload =>
    have given := Disk.load_eq_ok_iff.mp loaded
    rw [run_of_given given]
    cases made : registry disk command.schema command.options with
    | error error => exact ends_of_schema given made
    | ok registry =>
      obtain ⟨schema, schemaGiven, compiled⟩ := registry_eq_ok_iff.mp made
      exact ends_of_registry given schemaGiven compiled

/-! ## What a report says -/

end ValidateCommand

namespace Violation

/-- Whether an entry of a report tells of a violation where it is, of which kind, and what is
    wrong. -/
def ToldAs (violation : Violation) (entry : Json) : Prop :=
  entry = .obj [("path", .str violation.path.render), ("code", .str violation.fault.code),
    ("message", .str violation.fault.message)]

/-- Whether a line of a report tells of a violation what is wrong, behind the place where it
    is unless that is the root. -/
inductive ToldIn (violation : Violation) : String → Prop where
  | root (whole : violation.path = []) : ToldIn violation s!"  {violation.fault.message}\n"
  | inside (part : violation.path ≠ []) :
      ToldIn violation s!"  {violation.path.render}: {violation.fault.message}\n"

theorem toldIn_render (violation : Violation) :
    violation.ToldIn s!"  {violation.render}\n" := by
  obtain ⟨path, fault⟩ := violation
  cases path with
  | nil => exact .root rfl
  | cons step rest =>
    have told : ToldIn ⟨step :: rest, fault⟩ _ := .inside (List.cons_ne_nil step rest)
    simpa [render, toString, String.append_assoc] using told

end Violation

namespace ValidateCommand

variable {command : ValidateCommand} {disk : Disk}

/-- Whether a report is one object on one line, and says what the library answers. -/
structure SaysJson (command : ValidateCommand) (disk : Disk) (report : Report)
    (members : Members) : Prop where
  output : report.output = (Json.obj members).compact ++ "\n"
  singleLine : '\n' ∉ (Json.obj members).compact.toList
  /-- The output is read as one object, with the members in this order. -/
  oneObject : Document.read? report.output = some (.object (Json.entries members))
  quiet : report.errors = ""
  valid : members.get? "valid" = some (.bool (report.status = 0))
  value : ∀ value, command.Accepts disk value → members.get? "value" = some value
  errors : ∀ violations, command.Refuses disk violations → ∃ entries,
    members.get? "errors" = some (.arr entries) ∧
      List.Forall₂ Violation.ToldAs violations entries

/-- Whether a report in words says what the library answers. -/
structure SaysPlain (command : ValidateCommand) (disk : Disk) (report : Report) : Prop where
  output : report.output = if report.status = 0 then "Valid\n" else ""
  errors : ∀ violations, command.Refuses disk violations → ∃ lines,
    report.errors = "Validation failed:\n" ++ String.join lines ∧
      List.Forall₂ Violation.ToldIn violations lines

/-- Whether the report of a command agrees with the library. -/
structure Agrees (command : ValidateCommand) (disk : Disk) (report : Report) : Prop where
  accepted : report.status = 0 ↔ ∃ value, command.Accepts disk value
  refused : report.status = 1 ↔ ∃ violations, command.Refuses disk violations
  unloaded : report.status = 3 ↔ command.Unloaded disk
  otherwise : report.status = 2 ↔ report.status ≠ 0 ∧ report.status ≠ 1 ∧ report.status ≠ 3
  sameStatus : ∀ json, ({ command with json := json }.run disk).status = report.status
  json : command.json = true → ∃ members, command.SaysJson disk report members
  plain : command.json = false → command.SaysPlain disk report

theorem saysJson_jsonLine {members : Members} {status : Nat}
    (valid : members.get? "valid" = some (.bool (status = 0)))
    (value : ∀ value, command.Accepts disk value → members.get? "value" = some value)
    (errors : ∀ violations, command.Refuses disk violations → ∃ entries,
      members.get? "errors" = some (.arr entries) ∧
        List.Forall₂ Violation.ToldAs violations entries) :
    command.SaysJson disk (jsonLine members status) members where
  output := rfl
  singleLine := (Json.inline_compact _).newline_not_mem
  oneObject := (Json.read?_compact (.obj members)).trans (by rw [Json.document])
  quiet := rfl
  valid := valid
  value := value
  errors := errors

theorem saysJson_failure (unanswered : ∀ answer, ¬ command.Answered disk answer)
    (json : command.json = true) (message : String) (status : Nat) :
    ∃ members, command.SaysJson disk (command.failure message (status + 1)) members := by
  rw [failure, if_pos json]
  exact ⟨_, saysJson_jsonLine (by simp [Members.get?])
    (fun _ accepts => absurd accepts (unanswered _))
    (fun _ refuses => absurd refuses (unanswered _))⟩

theorem saysPlain_failure (unanswered : ∀ answer, ¬ command.Answered disk answer)
    (plain : command.json = false) (message : String) (status : Nat) :
    command.SaysPlain disk (command.failure message (status + 1)) := by
  rw [failure, if_neg (by simp [plain])]
  exact ⟨by simp [plainError], fun _ refuses => absurd refuses (unanswered _)⟩

variable {report : Report}

theorem Ends.saysJson (ends : command.Ends disk report) (json : command.json = true) :
    ∃ members, command.SaysJson disk report members := by
  cases ends with
  | @accepted value accepts =>
    rw [ValidateCommand.accepted, if_pos json]
    refine ⟨_, saysJson_jsonLine rfl (fun other accepts' => ?_) (fun _ refuses => ?_)⟩
    · cases accepts.unique accepts'
      rfl
    · cases accepts.unique refuses
  | @refused violations refuses =>
    rw [ValidateCommand.refused, if_pos json]
    refine ⟨_, saysJson_jsonLine rfl (fun _ accepts => ?_) (fun other refuses' => ?_)⟩
    · cases refuses.unique accepts
    · cases refuses.unique refuses'
      refine ⟨_, rfl, ?_⟩
      simp [List.forall₂_map_right_iff, List.forall₂_same, Violation.ToldAs, Violation.json]
  | unloaded unloaded message =>
    exact saysJson_failure (fun _ answered => answered.not_unloaded unloaded) json message 2
  | unanswered unanswered _ message => exact saysJson_failure unanswered json message 1

theorem Ends.saysPlain (ends : command.Ends disk report) (plain : command.json = false) :
    command.SaysPlain disk report := by
  have words : ¬ command.json = true := by simp [plain]
  cases ends with
  | accepted accepts =>
    rw [ValidateCommand.accepted, if_neg words]
    exact ⟨rfl, fun _ refuses => by cases accepts.unique refuses⟩
  | refused refuses =>
    rw [ValidateCommand.refused, if_neg words]
    refine ⟨rfl, fun _ refuses' => ?_⟩
    cases refuses.unique refuses'
    refine ⟨_, rfl, ?_⟩
    simp [List.forall₂_map_right_iff, List.forall₂_same, Violation.toldIn_render]
  | unloaded unloaded message =>
    exact saysPlain_failure (fun _ answered => answered.not_unloaded unloaded) plain message 2
  | unanswered unanswered _ message => exact saysPlain_failure unanswered plain message 1

theorem Ends.status_eq_zero_iff (ends : command.Ends disk report) :
    report.status = 0 ↔ ∃ value, command.Accepts disk value := by
  cases ends with
  | accepted accepts => simpa using ⟨_, accepts⟩
  | refused refuses => simpa using fun value accepts => by cases refuses.unique accepts
  | unloaded unloaded _ => simpa using fun value accepts => accepts.not_unloaded unloaded
  | unanswered unanswered _ _ =>
    have unaccepted : ¬ ∃ value, command.Accepts disk value := fun ⟨_, accepts⟩ =>
      unanswered _ accepts
    simpa using unaccepted

theorem Ends.status_eq_one_iff (ends : command.Ends disk report) :
    report.status = 1 ↔ ∃ violations, command.Refuses disk violations := by
  cases ends with
  | accepted accepts => simpa using fun violations refuses => by cases accepts.unique refuses
  | refused refuses => simpa using ⟨_, refuses⟩
  | unloaded unloaded _ => simpa using fun violations refuses => refuses.not_unloaded unloaded
  | unanswered unanswered _ _ =>
    have unrefused : ¬ ∃ violations, command.Refuses disk violations := fun ⟨_, refuses⟩ =>
      unanswered _ refuses
    simpa using unrefused

theorem Ends.status_eq_three_iff (ends : command.Ends disk report) :
    report.status = 3 ↔ command.Unloaded disk := by
  cases ends with
  | accepted accepts => simpa using accepts.not_unloaded
  | refused refuses => simpa using refuses.not_unloaded
  | unloaded unloaded _ => simpa using unloaded
  | unanswered _ loaded _ => simpa using loaded

theorem Ends.status_le (ends : command.Ends disk report) : report.status ≤ 3 := by
  cases ends <;> simp

theorem status_run_json (json : Bool) :
    ({ command with json := json }.run disk).status = (command.run disk).status := by
  cases loaded : (disk command.payload).load Json.parse? command.payload with
  | error error => simp [run, Json.load, loaded]
  | ok payload =>
    have given := Disk.load_eq_ok_iff.mp loaded
    have reported := run_of_given given
    have reported' : { command with json := json }.run disk = _ := run_of_given given
    rw [reported, reported', status_conclude, status_conclude]
    rfl

end ValidateCommand

namespace Command

/-- A `validate` command ends in one report, whose status and texts say what the library answers
    under the options that the command states. -/
theorem run_validate_agrees (command : ValidateCommand) (disk : Disk) :
    ∃ report, (Command.validate command).run disk = .report report ∧
      command.Agrees disk report := by
  have ends := command.run_ends disk
  refine ⟨command.run disk, rfl, ?_⟩
  exact {
    accepted := ends.status_eq_zero_iff
    refused := ends.status_eq_one_iff
    unloaded := ends.status_eq_three_iff
    otherwise := by
      have bound := ends.status_le
      omega
    sameStatus := fun json => ValidateCommand.status_run_json json
    json := ends.saysJson
    plain := ends.saysPlain }

/-- The empty text and the word `none` are stated as values that count as absent, the one in
    JSON and the other as itself, so that two required fields of an order are missing.  The
    third key is let through.  All of it is told on one line. -/
theorem run_validate_order :
    let files : Disk := fun path =>
      if path = "order.json" then
        .text "\x7b\"label\": \"\", \"note\": \"none\", \"extra\": true\x7d"
      else if path = "schema.json" then
        .text ("\x7b\"messages\": [\x7b\"name\": \"Order\", \"fields\": [" ++
          "\x7b\"name\": \"label\", \"type\": \"string\", \"required\": true\x7d, " ++
          "\x7b\"name\": \"note\", \"type\": \"string\", \"required\": true\x7d]\x7d]\x7d")
      else .absent
    let words := ["validate", "order.json", "--schema", "schema.json", "-m", "Order",
      "--empty", "\"\"", "--empty", "none", "--allow-unknown", "--json"]
    let told :=
      "\x7b\"valid\":false,\"errors\":[" ++
      "\x7b\"path\":\"label\",\"code\":\"required\",\"message\":\"is required\"\x7d," ++
      "\x7b\"path\":\"note\",\"code\":\"required\",\"message\":\"is required\"\x7d]\x7d\n"
    ∃ command, ofWords? words = some (.validate command) ∧
      command.States { empty := [.str "", .str "none"], allowUnknown := true } ∧
      (Command.validate command).run files = .report { status := 1, output := told } ∧
      command.Agrees files { status := 1, output := told } := by
  intro files words told
  let command : ValidateCommand :=
    { payload := "order.json", schema := "schema.json", message := "Order",
      empty := ["\"\"", "none"], allowUnknown := true, json := true }
  have ran : (Command.validate command).run files = .report { status := 1, output := told } := by
    decide +kernel
  have stated : command.States { empty := [.str "", .str "none"], allowUnknown := true } :=
    ⟨.cons (.json rfl) (.cons (.bare rfl) .nil), rfl⟩
  obtain ⟨report, reported, agrees⟩ := run_validate_agrees command files
  cases ran.symm.trans reported
  exact ⟨command, by decide +kernel, stated, ran, agrees⟩

end Command

end PayloadSchema
