import PayloadSchema.Proofs.Json.Induction
import PayloadSchema.Proofs.Schema.Group
import PayloadSchema.Registry

/-! # Interpreting a schema

A payload can be read with the schema itself at hand.  The type of a field is looked up
where the field stands, a default is read when a value is absent, and a reference to a
message leads to that message.  No rule is built and nothing is cut: the reading ends
because the payload does.

This is what a compiled schema has to agree with. -/

namespace PayloadSchema

def Scalar.isUnsigned : Scalar → Bool
  | .uint32 | .uint64 => true
  | _ => false

def Scalar.fault? (scalar : Scalar) (value : Json) : Option Fault :=
  match scalar, value with
  | .bool, .bool _ | .float, .num _ | .double, .num _ | .bytes, .str _ | .string, .str _
  | .map, _ => none
  | .bool, other => expect "boolean" other
  | .float, other | .double, other => expect "number" other
  | .bytes, .arr items => if items.all Json.isByte then none else expect "bytes" (.arr items)
  | .bytes, other => expect "bytes" other
  | .string, other => expect "string" other
  | _, .num n =>
    if !n.isIntegral then expect "integer" (.num n)
    else if scalar.isUnsigned && n.isNegative then some (.below 0)
    else none
  | _, other => expect "integer" other

def EnumType.fault? (enum : EnumType) : Json → Option Fault
  | .str name => if name ∈ enum.names then none else some (.unlisted name enum.names)
  | other => expect "string" other

/-- The value itself, or its fault. -/
def accuse (path : Path) (value : Json) : Option Fault → Except (List Violation) Json
  | some fault => .error [⟨path, fault⟩]
  | none => .ok value

def Options.countsAbsent (options : Options) (value : Json) : Bool :=
  options.empty.any fun empty => empty.equal value

/-- What an object gives a field: the value of its name, unless that counts as absent. -/
def Members.given? (members : Members) (options : Options) (name : String) : Option Json :=
  (members.get? name).filter fun value => !options.countsAbsent value

theorem Members.sizeOf_given? {members : Members} {options : Options} {name : String}
    {value : Json} (given : members.given? options name = some value) :
    sizeOf value < sizeOf members := by
  have found := (Option.filter_eq_some_iff.mp given).1
  have smaller := List.sizeOf_lt_of_mem (Members.mem_of_get? found)
  simp only [Prod.mk.sizeOf_spec] at smaller
  omega

/-- The default of a field of a message, read as the type of the field asks. -/
def Catalog.default? (catalog : Catalog) (scope : Entry) (field : Field) : Option Json :=
  field.default.bind fun literal =>
    match Scalar.ofName? field.typeName with
    | some scalar => scalar.literalKind.read? literal
    | none =>
      match catalog.referent scope field.typeName with
      | .enum enum => if literal ∈ enum.names then some (.str literal) else none
      -- A message has no literals.
      | .message _ | .nothing => none

/-- What reading a field of an object gives. -/
structure Reading where
  field : Field
  /-- Whether the object gives the field a value. -/
  given : Bool
  result : Except (List Violation) (Option Json)

namespace Reading

/-- Whether the object or a default provides a value, valid or not. -/
def provided (reading : Reading) : Bool :=
  reading.given || reading.result matches .ok (some _)

def violations (reading : Reading) : List Violation :=
  match reading.result with
  | .error violations => violations
  | .ok _ => []

def member? (reading : Reading) : Option (String × Json) :=
  match reading.result with
  | .ok (some value) => some (reading.field.name, value)
  | _ => none

end Reading

/-- What stands for a field that an object gives no value.  The default of a repeated
    field concerns its items. -/
def Field.absent (field : Field) (default : Option Json) (path : Path) :
    Except (List Violation) (Option Json) :=
  if field.required then .error [⟨path, .missing⟩]
  else if field.repeated then .ok none
  else .ok default

namespace Message

/-- The members of an object that are no fields of the message. -/
def strangers (message : Message) (members : Members) : Members :=
  members.filter fun member => !message.fields.any fun field => field.name = member.1

/-- What is wrong with the alternatives of a tag, of which one has to be provided. -/
def alternativesFault? (message : Message) (readings : List Reading) (tag : String) :
    Option Fault :=
  match readings.countP fun reading => reading.field.group = some tag && reading.provided with
  | 0 => some (.noneOf tag (taggedWith tag message.fields))
  | 1 => none
  | _ => some (.severalOf tag (taggedWith tag message.fields))

/-- The result for an object, given the readings of its fields. -/
def conclude (message : Message) (options : Options) (path : Path) (members : Members)
    (readings : List Reading) : Except (List Violation) Json :=
  let strangers := message.strangers members
  -- First what the fields found, then the keys that are no fields, then the alternatives.
  let violations := readings.flatMap Reading.violations ++
    (if options.allowUnknown then []
      else strangers.map fun member => ⟨path.field member.1, .undeclared⟩) ++
    ((tagsOf message.fields).filterMap (message.alternativesFault? readings)).map (⟨path, ·⟩)
  if violations = [] then
    .ok (.obj (readings.filterMap Reading.member? ++ if options.allowUnknown then strangers else []))
  else .error violations

end Message

namespace Catalog

variable (catalog : Catalog) (options : Options)

mutual

/-- Interprets a value of a type that is named inside a message.  Scalar types win over
    declared ones. -/
def interpret (scope : Entry) (typeName : String) (path : Path) (value : Json) :
    Except (List Violation) Json :=
  match Scalar.ofName? typeName with
  | some scalar => accuse path value (scalar.fault? value)
  | none =>
    match catalog.referent scope typeName with
    | .enum enum => accuse path value (enum.fault? value)
    -- The value stays the same, but a message asks for its members only.
    | .message target => interpretMessage target.1 path value
    | .nothing => .error [⟨path, .undefined typeName⟩]
termination_by (sizeOf value, 1)

/-- Interprets a value as a message. -/
def interpretMessage (target : Entry) (path : Path) (value : Json) :
    Except (List Violation) Json :=
  match value with
  | .obj members =>
    target.message.conclude options path members <| target.message.fields.map fun field =>
      interpretField target field (path.field field.name) members
  | other => .error [⟨path, .mismatch "object" other.kindName⟩]
termination_by (sizeOf value, 0)

def interpretField (scope : Entry) (field : Field) (path : Path) (members : Members) : Reading :=
  match _given : members.given? options field.name with
  | some value =>
    let result :=
      if field.repeated then interpretList scope field.typeName path value
      else interpret scope field.typeName path value
    ⟨field, true, result.map some⟩
  | none => ⟨field, false, field.absent (catalog.default? scope field) path⟩
termination_by (sizeOf members, 0)
decreasing_by all_goals exact .left _ _ (Members.sizeOf_given? _given)

def interpretList (scope : Entry) (typeName : String) (path : Path) (value : Json) :
    Except (List Violation) Json :=
  match value with
  | .arr items => (interpretItems scope typeName path 0 items).map .arr
  | other => .error [⟨path, .mismatch "array" other.kindName⟩]
termination_by (sizeOf value, 0)

/-- Interprets the items of a list, from a position on, up to the first that is wrong. -/
def interpretItems (scope : Entry) (typeName : String) (path : Path) (position : Nat)
    (items : List Json) : Except (List Violation) (List Json) :=
  match items with
  | [] => .ok []
  | item :: rest => do
    let value ← interpret scope typeName (path.index position) item
    let values ← interpretItems scope typeName path (position + 1) rest
    pure (value :: values)
termination_by (sizeOf items, 0)

end

end Catalog

/-- Interprets a payload as the top-level message of a name. -/
def Schema.interpret (schema : Schema) (options : Options) (name : String) (payload : Json) :
    Except ValidationError Json :=
  let catalog := Catalog.ofSchema schema
  match catalog.messageIn? none name with
  | none => .error (.unknownMessage name)
  | some root => (catalog.interpretMessage options root.1 [] payload).mapError .invalid

end PayloadSchema
