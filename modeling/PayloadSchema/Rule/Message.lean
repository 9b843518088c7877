import PayloadSchema.Remaining
import PayloadSchema.Rule.Field
import PayloadSchema.Rule.Scalar
import PayloadSchema.Schema.Distinct

/-! # The rule of a message

The rule of a message holds the rules of its fields, and the rule of a field whose
type is a message holds the rule of that message in turn.  A reference to a message
that is being compiled already would never end; it becomes a lazy shape, and the
rule of that message is kept among the definitions when it is finished.

A message may be compiled several times, once for each way that leads to it.  The
first of its rules that is finished after a lazy reference was made is the one that
is kept. -/

namespace PayloadSchema

structure Progress where
  /-- The messages that some lazy shape refers to. -/
  deferred : List MessageId := []
  /-- The finished rules of deferred messages. -/
  definitions : Definitions := []

namespace Progress

def defer (progress : Progress) (id : MessageId) : Progress :=
  { progress with deferred := id :: progress.deferred }

/-- Notes that the rule of a message is finished.  It is kept if the message is
    deferred and has no rule yet. -/
def finish (progress : Progress) (id : MessageId) (rule : RecordRule) : Progress :=
  if progress.deferred.contains id && (progress.definitions.get? id).isNone then
    { progress with definitions := (id, rule) :: progress.definitions }
  else progress

end Progress

/-! ## Fields -/

/-- How a reference to a message is compiled. -/
abbrev Reference (catalog : Catalog) :=
  catalog.Listed → Progress → Except SchemaError (Shape × Progress)

/-- What the type of a field of a message says about it.  A scalar type wins over a
    declared one. -/
def fieldType (catalog : Catalog) (reference : Reference catalog) (scope : Entry) (field : Field)
    (progress : Progress) : Except SchemaError (FieldType × Progress) :=
  match Scalar.ofName? field.typeName with
  | some scalar => .ok (⟨scalar.shape, .literal scalar.literalKind⟩, progress)
  | none =>
    match catalog.referent scope field.typeName with
    | .enum enum => .ok (⟨.enum enum.name enum.names, .member enum.names⟩, progress)
    | .message target =>
      match reference target progress with
      | .ok (shape, progress) => .ok (⟨shape, .forbidden⟩, progress)
      | .error error => .error error
    | .nothing => .error (.unknownType scope.message.name field.name field.typeName)

def compileFields (catalog : Catalog) (options : Options) (reference : Reference catalog)
    (scope : Entry) : List Field → Progress →
      Except SchemaError (List (String × Rule) × Progress)
  | [], progress => .ok ([], progress)
  | field :: rest, progress =>
    match fieldType catalog reference scope field progress with
    | .error error => .error error
    | .ok (type, progress) =>
      match field.rule scope.message.name type options with
      | .error error => .error error
      | .ok rule =>
        match compileFields catalog options reference scope rest progress with
        | .error error => .error error
        | .ok (rules, progress) => .ok ((field.name, rule) :: rules, progress)

/-! ## Messages -/

/-- The number of messages that are not being compiled. -/
def Catalog.remaining (catalog : Catalog) (active : List MessageId) : Nat :=
  PayloadSchema.remaining Entry.id catalog.entries active

/-- Compiles a message, while the messages in `active` are being compiled around it. -/
def compileMessage (catalog : Catalog) (options : Options) (active : List MessageId)
    (target : catalog.Listed) (_fresh : active.contains target.1.id = false) (progress : Progress) :
    Except SchemaError (RecordRule × Progress) :=
  let inside := target.1.id :: active
  let reference : Reference catalog := fun next progress =>
    if known : inside.contains next.1.id = false then
      match compileMessage catalog options inside next known progress with
      | .ok (rule, progress) => .ok (.record rule, progress)
      | .error error => .error error
    else .ok (.lazy next.1.message.name next.1.id, progress.defer next.1.id)
  match compileFields catalog options reference target.1 target.1.message.fields progress with
  | .error error => .error error
  | .ok (fields, progress) =>
    let rule : RecordRule :=
      { message := target.1.message.name
        fields
        groups := target.1.message.groups
        allowUnknown := options.allowUnknown }
    .ok (rule, progress.finish target.1.id rule)
termination_by catalog.remaining active
decreasing_by exact remaining_cons_lt Entry.id catalog.entries active target.1 target.2 _fresh

def compileRoots (catalog : Catalog) (options : Options) : List catalog.Listed → Progress →
    Except SchemaError (List RecordRule × Progress)
  | [], progress => .ok ([], progress)
  | root :: rest, progress =>
    match compileMessage catalog options [] root rfl progress with
    | .error error => .error error
    | .ok (rule, progress) =>
      match compileRoots catalog options rest progress with
      | .error error => .error error
      | .ok (rules, progress) => .ok (rule :: rules, progress)

/-- The rules of the messages of a catalog that no other one encloses, in declared
    order, with the definitions that they share. -/
def Catalog.compile (catalog : Catalog) (options : Options) :
    Except SchemaError (List RecordRule × Definitions) :=
  match compileRoots catalog options catalog.topLevel {} with
  | .error error => .error error
  | .ok (rules, progress) => .ok (rules, progress.definitions)

end PayloadSchema
