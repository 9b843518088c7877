import PayloadSchema.Rule.Basic
import PayloadSchema.Violation

/-! # Checking a value

A value is checked against a shape at a place.  The outcome is the normalized value,
with defaults filled in and empty values left out, and the violations that were
found.  The fields of an object are all checked, whereas an array stops at the first
item with a violation.

The recursion is on the value alone.  A lazy shape is followed only where a value
stands, and the rule it leads to is asked about the members of that value, so that a
cycle of definitions cannot keep a check from ending. -/

namespace PayloadSchema

/-- What checking a value gives.  There is no value where the value stays absent or
    is refused. -/
structure Outcome where
  value : Option Json
  violations : List Violation

namespace Outcome

def accept (value : Json) : Outcome := ⟨some value, []⟩

def refuse (path : Path) (fault : Fault) : Outcome := ⟨none, [⟨path, fault⟩]⟩

end Outcome

structure FieldOutcome where
  name : String
  /-- Whether the payload or a default provides a value, valid or not. -/
  provided : Bool
  outcome : Outcome

/-! ## Faults of a value as a whole -/

/-- Whether a value is a byte: an integer from 0 to 255. -/
def Json.isByte : Json → Bool
  | .num (.int n) => 0 ≤ n && n ≤ 255
  | _ => false

def expect (expected : String) (value : Json) : Option Fault :=
  some (.mismatch expected value.kindName)

/-- What is wrong with a value, as far as it can be said without looking into the
    fields of a record or the items of an array. -/
def Shape.fault? (definitions : Definitions) : Shape → Json → Option Fault
  | .boolean, .bool _ => none
  | .boolean, value => expect "boolean" value
  | .number, .num _ => none
  | .number, value => expect "number" value
  | .integer unsigned, .num n =>
    if !n.isIntegral then expect "integer" (.num n)
    else if unsigned && n.isNegative then some (.below 0)
    else none
  | .integer _, value => expect "integer" value
  | .binary, .str _ => none
  | .binary, .arr items => if items.all Json.isByte then none else expect "bytes" (.arr items)
  | .binary, value => expect "bytes" value
  | .string, .str _ => none
  | .string, value => expect "string" value
  | .any, _ => none
  | .enum _ members, .str name =>
    if members.contains name then none else some (.unlisted name members)
  | .enum _ _, value => expect "string" value
  | .record _, .obj _ => none
  | .record _, value => expect "object" value
  | .array _, .arr _ => none
  | .array _, value => expect "array" value
  | .lazy message id, value =>
    match definitions.get? id, value with
    | none, _ => some (.undefined message)
    | some _, .obj _ => none
    | some _, value => expect "object" value

/-- The rule that a shape has for the members of an object. -/
def Shape.record? (definitions : Definitions) : Shape → Option RecordRule
  | .record rule => some rule
  | .lazy _ id => definitions.get? id
  | _ => none

/-! ## Absent values -/

def Rule.absent (rule : Rule) (path : Path) : Outcome :=
  if rule.required then .refuse path .missing else ⟨rule.default, []⟩

/-! ## Records -/

/-- The fault of a group, given the names of the provided fields. -/
def Group.fault? (group : Group) (provided : List String) : Option Fault :=
  match (group.members.filter fun member => provided.contains member).length with
  | 0 => some (.noneOf group.name group.members)
  | 1 => none
  | _ => some (.severalOf group.name group.members)

namespace RecordRule

/-- The members of a payload that are no fields. -/
def undeclared (rule : RecordRule) (members : Members) : Members :=
  members.filter fun member => !rule.declares member.1

/-- The violations of an object: those of its fields in declared order, then the
    keys that are no fields in written order, then the groups. -/
def violations (rule : RecordRule) (path : Path) (members : Members)
    (fields : List FieldOutcome) : List Violation :=
  let unknown := if rule.allowUnknown then [] else rule.undeclared members
  let provided := (fields.filter (·.provided)).map (·.name)
  fields.flatMap (·.outcome.violations) ++
    unknown.map (fun member => ⟨path.field member.1, .undeclared⟩) ++
    (rule.groups.filterMap (·.fault? provided)).map (⟨path, ·⟩)

/-- The members of the normalized object: the fields that have a value in declared
    order, then the keys that are let through in written order. -/
def normalized (rule : RecordRule) (members : Members) (fields : List FieldOutcome) : Members :=
  fields.filterMap (fun field => field.outcome.value.map (field.name, ·)) ++
    if rule.allowUnknown then rule.undeclared members else []

/-- The outcome of an object, given those of its fields. -/
def conclude (rule : RecordRule) (path : Path) (members : Members)
    (fields : List FieldOutcome) : Outcome :=
  match rule.violations path members fields with
  | [] => .accept (.obj (rule.normalized members fields))
  | found => ⟨none, found⟩

end RecordRule

/-! ## The check -/

mutual

def check (definitions : Definitions) (shape : Shape) (path : Path) (value : Json) : Outcome :=
  match shape.fault? definitions value with
  | some fault => .refuse path fault
  | none =>
    match value with
    | .arr items =>
      match shape with
      | .array element =>
        match checkItems definitions element path 0 items with
        | .ok values => .accept (.arr values)
        | .error violations => ⟨none, violations⟩
      | _ => .accept (.arr items)
    | .obj members =>
      match shape.record? definitions with
      | some rule =>
        rule.conclude path members <| rule.fields.map fun field =>
          checkField definitions field.1 field.2 (path.field field.1) members
      | none => .accept (.obj members)
    | .null => .accept .null
    | .bool b => .accept (.bool b)
    | .num n => .accept (.num n)
    | .str s => .accept (.str s)

/-- Checks the items of an array from a position on: their values, or the
    violations of the first item that has any. -/
def checkItems (definitions : Definitions) (element : Rule) (path : Path) (position : Nat) :
    List Json → Except (List Violation) (List Json)
  | [] => .ok []
  | item :: rest =>
    let outcome :=
      if element.isEmpty item then element.absent (path.index position)
      else check definitions element.shape (path.index position) item
    match outcome.violations with
    | [] => (checkItems definitions element path (position + 1) rest).map
        (outcome.value.getD .null :: ·)
    | found => .error found

/-- Checks the field of a name among the members of an object. -/
def checkField (definitions : Definitions) (name : String) (rule : Rule) (path : Path) :
    Members → FieldOutcome
  | [] =>
    let outcome := rule.absent path
    ⟨name, outcome.value.isSome, outcome⟩
  | (key, value) :: rest =>
    if key = name then
      if rule.isEmpty value then
        let outcome := rule.absent path
        ⟨name, outcome.value.isSome, outcome⟩
      else ⟨name, true, check definitions rule.shape path value⟩
    else checkField definitions name rule path rest

end

/-- Checks a payload against the rule of a message: the normalized value, or every
    violation. -/
def RecordRule.checkPayload (rule : RecordRule) (definitions : Definitions) (payload : Json) :
    Except (List Violation) Json :=
  match check definitions (.record rule) [] payload with
  | ⟨some value, []⟩ => .ok value
  | ⟨_, violations⟩ => .error violations

end PayloadSchema
