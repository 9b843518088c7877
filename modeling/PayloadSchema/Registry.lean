import PayloadSchema.Rule.Check
import PayloadSchema.Rule.Message
import PayloadSchema.Rule.View
import PayloadSchema.Storage

/-! # Registries

A compiled schema is a registry with one validator for each message that is declared
in no other one.  The validators of a registry share their definitions. -/

namespace PayloadSchema

/-! ## Definitions that a rule can reach -/

namespace Definitions

/-- The messages that lazy references lead to, from those in `pending` on and beside
    those `found` before. -/
def reach (definitions : Definitions) (pending found : List MessageId) : List MessageId :=
  match pending with
  | [] => found
  | id :: rest =>
    match _found : definitions.get? id with
    | none => reach definitions rest found
    | some rule =>
      if _new : found.contains id = false then
        reach definitions (rule.lazyIds ++ rest) (id :: found)
      else reach definitions rest found
termination_by (remaining Prod.fst definitions found, pending.length)
decreasing_by
  · exact Prod.Lex.right _ (Nat.lt_succ_self _)
  · refine Prod.Lex.left _ _ ?_
    obtain ⟨before, after, split, _⟩ := List.lookup_eq_some_iff.mp _found
    exact remaining_cons_lt Prod.fst definitions found (id, rule) (by simp [split]) _new
  · exact Prod.Lex.right _ (Nat.lt_succ_self _)

/-- Puts a definition before the first one with a greater identity. -/
def insertSorted (definition : MessageId × RecordRule) : Definitions → Definitions
  | [] => [definition]
  | first :: rest =>
    if definition.1 < first.1 then definition :: first :: rest
    else first :: insertSorted definition rest

def sorted (definitions : Definitions) : Definitions := definitions.foldr insertSorted []

end Definitions

/-! ## Validators -/

/-- The rule of a message with the definitions that it may refer to. -/
structure Validator where
  name : String
  rule : RecordRule
  definitions : Definitions

namespace Validator

/-- Validates a payload: the normalized value, or every violation. -/
def validate (validator : Validator) (payload : Json) : Except (List Violation) Json :=
  validator.rule.checkPayload validator.definitions payload

/-- The definitions that the rule can reach by lazy references, in the order of
    their identities. -/
def recursive (validator : Validator) : Definitions :=
  let reached := validator.definitions.reach validator.rule.lazyIds []
  Definitions.sorted (validator.definitions.filter fun definition => reached.contains definition.1)

def describe (validator : Validator) : Json :=
  .obj [("message", .str validator.name), ("rule", validator.rule.view),
    ("recursive", .obj (validator.recursive.map fun definition =>
      (toString definition.1, definition.2.view)))]

end Validator

/-! ## Errors -/

inductive ValidationError where
  | schema (error : SchemaError)
  | load (error : LoadError)
  | unknownMessage (name : String)
  | invalid (violations : List Violation)
deriving DecidableEq, Repr

namespace ValidationError

def message : ValidationError → String
  | .schema error => error.message
  | .load error => error.message
  | .unknownMessage name => s!"schema has no top-level message named '{name}'"
  | .invalid violations => s!"validation failed with {violations.length} error(s)"

/-- The exit status of a command that ends with the error: one for a payload that
    breaks its rules, otherwise that of the cause. -/
def exitStatus : ValidationError → Nat
  | .schema error => error.exitStatus
  | .load error => error.exitStatus
  | .unknownMessage _ => 2
  | .invalid _ => 1

end ValidationError

/-! ## Registries -/

/-- Validators in the order of their names. -/
structure Registry where
  validators : List Validator

namespace Registry

/-- Puts a validator in its place by name.  One of the same name is replaced. -/
def insertSorted (validator : Validator) : List Validator → List Validator
  | [] => [validator]
  | first :: rest =>
    if validator.name < first.name then validator :: first :: rest
    else if validator.name = first.name then validator :: rest
    else first :: insertSorted validator rest

def ofList (validators : List Validator) : Registry :=
  ⟨validators.foldl (fun sorted validator => insertSorted validator sorted) []⟩

def names (registry : Registry) : List String := registry.validators.map (·.name)

def get? (registry : Registry) (name : String) : Option Validator :=
  registry.validators.find? fun validator => validator.name = name

def validate (registry : Registry) (name : String) (payload : Json) :
    Except ValidationError Json :=
  match registry.get? name with
  | none => .error (.unknownMessage name)
  | some validator =>
    match validator.validate payload with
    | .ok value => .ok value
    | .error violations => .error (.invalid violations)

def describe (registry : Registry) : Json :=
  .obj (registry.validators.map fun validator => (validator.name, validator.describe))

end Registry

/-! ## Schemas -/

namespace Schema

/-- Compiles a schema, once its names are checked to be distinct. -/
def compile (schema : Schema) (options : Options) : Except SchemaError Registry := do
  schema.checkNames
  schema.checkScopes
  let (rules, definitions) ← (Catalog.ofSchema schema).compile options
  pure (.ofList (rules.map fun rule => ⟨rule.message, rule, definitions⟩))

def validate (schema : Schema) (message : String) (payload : Json) (options : Options) :
    Except ValidationError Json :=
  match schema.compile options with
  | .error error => .error (.schema error)
  | .ok registry => registry.validate message payload

end Schema

end PayloadSchema
