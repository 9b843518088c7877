import PayloadSchema.Proofs.Interpretation.Steps
import PayloadSchema.Proofs.Registry
import PayloadSchema.Proofs.Rule.Check

/-! # Compiled schemas and interpretation agree

Checking a value against an image of a message is interpreting the message, whichever
image it is: where the cycles were cut matters no more than which of several images stands
among the definitions.  The induction is on the value.  A lazy shape costs no step of it,
since a message only ever asks for the members of an object. -/

namespace PayloadSchema

/-- The outcome that says what a result says. -/
def Outcome.of : Except (List Violation) (Option Json) → Outcome
  | .ok value => ⟨value, []⟩
  | .error violations => ⟨none, violations⟩

def Reading.outcome (reading : Reading) : FieldOutcome :=
  ⟨reading.field.name, reading.provided, .of reading.result⟩

theorem Scalar.fault?_shape (scalar : Scalar) (definitions : Definitions) (value : Json) :
    scalar.shape.fault? definitions value = scalar.fault? value := by
  cases scalar <;> cases value <;> rfl

theorem EnumType.fault?_shape (enum : EnumType) (definitions : Definitions) (value : Json) :
    (Shape.enum enum.name enum.names).fault? definitions value = enum.fault? value := by
  cases value <;> simp [Shape.fault?, EnumType.fault?]

theorem Outcome.judge_eq_accuse (path : Path) (value : Json) (fault : Option Fault) :
    Outcome.judge path value fault = .of ((accuse path value fault).map some) := by
  cases fault <;> rfl

section

variable {message : Message} {readings : List Reading}

theorem fault?_eq_alternativesFault? (distinct : message.FieldsDistinct)
    (complete : readings.map Reading.field = message.fields) (tag : String) :
    (Group.mk tag (taggedWith tag message.fields)).fault?
        (((readings.map Reading.outcome).filter (·.provided)).map (·.name)) =
      message.alternativesFault? readings tag := by
  have names : ((readings.map Reading.outcome).map (·.name)).Nodup := by
    rw [Message.FieldsDistinct, ← complete, List.map_map] at distinct
    rw [List.map_map]
    exact distinct
  have tagged : taggedWith tag message.fields =
      (readings.filter fun reading => reading.field.group = some tag).map
        fun reading => reading.field.name := by
    rw [taggedWith, ← complete, List.filter_map, List.map_map]
    rfl
  have counted : ((taggedWith tag message.fields).filter fun member =>
      (((readings.map Reading.outcome).filter (·.provided)).map (·.name)).contains member).length =
      readings.countP fun reading => reading.field.group = some tag && reading.provided := by
    rw [tagged, List.filter_map, List.length_map, List.filter_filter,
      ← List.countP_eq_length_filter]
    refine List.countP_congr fun reading listed => ?_
    have known := provided_contains names (List.mem_map_of_mem listed)
    simp only [Function.comp_apply, Bool.and_eq_true, decide_eq_true_eq]
    rw [show reading.field.name = reading.outcome.name from rfl, known]
    exact and_comm
  rw [Group.fault?, counted]
  rfl

theorem outcome_violations (reading : Reading) :
    reading.outcome.outcome.violations = reading.violations := by
  obtain ⟨field, given, result⟩ := reading
  cases result <;> rfl

theorem outcome_member? (reading : Reading) :
    reading.outcome.outcome.value.map (reading.outcome.name, ·) = reading.member? := by
  obtain ⟨field, given, result⟩ := reading
  cases result with
  | error violations => rfl
  | ok value => cases value <;> rfl

theorem undeclared_eq_strangers (options : Options) {fields : List (String × Rule)}
    (names : fields.map Prod.fst = message.fields.map Field.name) (members : Members) :
    (message.ruleOf options fields).undeclared members = message.strangers members := by
  refine List.filter_congr fun member _ => ?_
  have declared : (message.ruleOf options fields).declares member.1 =
      message.fields.any fun field => field.name = member.1 := by
    calc (message.ruleOf options fields).declares member.1
        = (fields.map Prod.fst).any fun name => name = member.1 := by rw [List.any_map]; rfl
      _ = message.fields.any fun field => field.name = member.1 := by
        rw [names, List.any_map]; rfl
  rw [declared]

theorem conclude_eq {options : Options} {fields : List (String × Rule)}
    (distinct : message.FieldsDistinct)
    (names : fields.map Prod.fst = message.fields.map Field.name)
    (complete : readings.map Reading.field = message.fields) (path : Path) (members : Members) :
    (message.ruleOf options fields).conclude path members (readings.map Reading.outcome) =
      .of ((message.conclude options path members readings).map some) := by
  have groups : (message.groups.filterMap
      (·.fault? (((readings.map Reading.outcome).filter (·.provided)).map (·.name)))) =
      (tagsOf message.fields).filterMap (message.alternativesFault? readings) := by
    rw [Message.groups_eq, groupsOf, List.filterMap_map]
    exact List.filterMap_congr fun tag _ => fault?_eq_alternativesFault? distinct complete tag
  have own : (readings.map Reading.outcome).flatMap (·.outcome.violations) =
      readings.flatMap Reading.violations := by
    rw [List.flatMap_map]
    exact List.flatMap_congr fun reading _ => outcome_violations reading
  have values : (readings.map Reading.outcome).filterMap
      (fun field => field.outcome.value.map (field.name, ·)) =
      readings.filterMap Reading.member? := by
    rw [List.filterMap_map]
    exact List.filterMap_congr fun reading _ => outcome_member? reading
  have strangers := undeclared_eq_strangers options names members
  have found : (message.ruleOf options fields).violations path members
      (readings.map Reading.outcome) =
      readings.flatMap Reading.violations ++
        (if options.allowUnknown then []
          else (message.strangers members).map fun member =>
            Violation.mk (path.field member.1) .undeclared) ++
        ((tagsOf message.fields).filterMap (message.alternativesFault? readings)).map
          (Violation.mk path) := by
    rw [RecordRule.violations, own, strangers]
    change _ ++ _ ++ (message.groups.filterMap _).map _ = _
    rw [groups]
    cases allowed : options.allowUnknown <;> simp [Message.ruleOf, allowed]
  rw [RecordRule.conclude, found, Message.conclude]
  split
  next clean =>
    simp only [RecordRule.normalized, values, strangers, clean, if_true]
    rfl
  next faulty =>
    rw [if_neg faulty]
    rfl

end

/-! ## Parts of a value -/

section

variable {catalog : Catalog} {options : Options} {definitions : Definitions} {scope : Entry}

theorem TypeImage.rule_eq {known : List MessageId} {field : Field} {type : FieldType} {rule : Rule}
    (typed : TypeImage catalog options known scope field.typeName type)
    (composed : field.rule scope.message.name type options = .ok rule) :
    rule = field.ruleOf type.shape (catalog.default? scope field) options := by
  obtain ⟨default, valued, rfl⟩ := Field.rule_eq_ok_iff.mp composed
  have same : default = catalog.default? scope field := by
    rw [(Field.defaultValue_eq_ok_iff.mp valued).1, Catalog.default?]
    refine congrArg field.default.bind (funext fun literal => ?_)
    cases typed with
    | scalar named => simp only [named, DefaultForm.read?]
    | enum declared found =>
      simp only [declared, found, DefaultForm.read?, List.contains_iff_mem]
    | message declared found image => simp only [declared, found, DefaultForm.read?]
  rw [same]

/-- Whether checking a value against an image of a type is interpreting it, as a value of
    the type and as a list of such values. -/
structure Agrees (catalog : Catalog) (options : Options) (definitions : Definitions)
    (value : Json) : Prop where
  single : ∀ scope name type,
    TypeImage catalog options (definitions.map Prod.fst) scope name type → ∀ path,
    check definitions type.shape path value =
      .of ((catalog.interpret options scope name path value).map some)
  list : ∀ scope name type,
    TypeImage catalog options (definitions.map Prod.fst) scope name type → ∀ default path,
    check definitions (.array { shape := type.shape, default }) path value =
      .of ((catalog.interpretList options scope name path value).map some)

theorem checkField_eq_interpretField {field : Field} {type : FieldType} {rule : Rule}
    {members : Members} (agree : ∀ member ∈ members, Agrees catalog options definitions member.2)
    (typed : TypeImage catalog options (definitions.map Prod.fst) scope field.typeName type)
    (composed : field.rule scope.message.name type options = .ok rule) (path : Path) :
    checkField definitions field.name rule path members =
      (catalog.interpretField options scope field path members).outcome := by
  rw [checkField_eq, typed.rule_eq composed, Catalog.interpretField]
  have same : (field.ruleOf type.shape (catalog.default? scope field) options).given?
      (members.get? field.name) = members.given? options field.name := rfl
  rw [same]
  split
  next value given =>
    have found := Members.mem_of_get? (Option.filter_eq_some_iff.mp given).1
    have inner := agree _ found
    rw [given]
    simp only [Reading.outcome, Reading.provided, Rule.checkGiven, Field.ruleOf_shape]
    cases field.repeated with
    | false => simp [inner.single _ _ _ typed]
    | true => simp [inner.list _ _ _ typed]
  next given =>
    rw [given]
    simp only [Reading.outcome, Reading.provided, Rule.checkGiven, Rule.absent, Rule.fills,
      Field.absent, Field.ruleOf_required, Field.ruleOf_default]
    cases field.required <;> cases field.repeated <;> cases catalog.default? scope field <;> rfl

theorem checkItems_eq_interpretItems {name : String} {type : FieldType} {items : List Json}
    (agree : ∀ item ∈ items, Agrees catalog options definitions item)
    (typed : TypeImage catalog options (definitions.map Prod.fst) scope name type)
    (default : Option Json) (path : Path) (position : Nat) :
    checkItems definitions { shape := type.shape, default } path position items =
      catalog.interpretItems options scope name path position items := by
  induction items generalizing position with
  | nil => rw [checkItems, Catalog.interpretItems]
  | cons item rest inductionHypothesis =>
    have first := (agree item List.mem_cons_self).single scope name type typed
      (path.index position)
    have settled := check_value_isSome_iff definitions type.shape (path.index position) item
    have later := inductionHypothesis (fun other listed => agree other (.tail item listed))
      (position + 1)
    rw [checkItems_cons, later, Catalog.interpretItems]
    have given : Rule.given? { shape := type.shape, default } (some item) = some item := rfl
    rw [given, Rule.checkGiven, first]
    rw [first] at settled
    cases result : catalog.interpret options scope name (path.index position) item with
    | ok value =>
      cases catalog.interpretItems options scope name path (position + 1) rest <;> rfl
    | error violations =>
      cases violations with
      -- A check that gives no value has a violation, so the items end here on both sides.
      | nil => simp [result, Outcome.of, Except.map] at settled
      | cons violation others => rfl

theorem fields_eq_readings {fields : List Field} {rules : List (String × Rule)}
    {members : Members} (agree : ∀ member ∈ members, Agrees catalog options definitions member.2)
    (images : FieldImages catalog options (definitions.map Prod.fst) scope fields rules)
    (path : Path) :
    (rules.map fun field => checkField definitions field.1 field.2 (path.field field.1) members) =
      (fields.map fun field => catalog.interpretField options scope field (path.field field.name)
        members).map Reading.outcome := by
  induction fields generalizing rules with
  | nil => cases images; rfl
  | cons field rest inductionHypothesis =>
    cases images with
    | cons typed composed images =>
      simp only [List.map_cons, inductionHypothesis images,
        checkField_eq_interpretField agree typed composed]

end

section

variable {catalog : Catalog} {options : Options} {definitions : Definitions}

/-- Checking a value against a rule of a message is interpreting the message, if what is
    inside the value agrees. -/
theorem check_eq_interpretMessage {target : catalog.Listed}
    (distinct : target.1.message.FieldsDistinct) {shape : Shape} {rule : RecordRule}
    (meaning : shape.record? definitions = some rule)
    (image : RecordImage catalog options (definitions.map Prod.fst) rule target) {value : Json}
    (agree : ∀ part, part.Inside value → Agrees catalog options definitions part) (path : Path) :
    check definitions shape path value =
      .of ((catalog.interpretMessage options target.1 path value).map some) := by
  rcases value.object_cases with ⟨members, rfl⟩ | other
  · have inner : ∀ member ∈ members, Agrees catalog options definitions member.2 :=
      fun member listed => agree member.2 (.member listed)
    cases image with
    | intro images =>
      rw [check_members meaning, Catalog.interpretMessage, fields_eq_readings inner images]
      refine conclude_eq distinct images.names ?_ path members
      simp [Function.comp_def]
  · rw [check_not_object meaning other]
    cases value with
    | obj members => exact absurd rfl (other members)
    | _ => rw [Catalog.interpretMessage] <;> simp [Outcome.of, Outcome.refuse, Except.map]

theorem check_eq_interpret (sound : definitions.Sound catalog options)
    (identified : catalog.Identified)
    (distinct : ∀ entry ∈ catalog.entries, entry.message.FieldsDistinct) {scope : Entry}
    {name : String} {type : FieldType}
    (typed : TypeImage catalog options (definitions.map Prod.fst) scope name type) {value : Json}
    (agree : ∀ part, part.Inside value → Agrees catalog options definitions part) (path : Path) :
    check definitions type.shape path value =
      .of ((catalog.interpret options scope name path value).map some) := by
  rw [Catalog.interpret]
  cases typed with
  | scalar named =>
    simp only [named, check_flat definitions (Scalar.shape_isFlat _), Scalar.fault?_shape,
      Outcome.judge_eq_accuse]
  | @enum _ _ enum declared found =>
    have flat : (Shape.enum enum.name enum.names).isFlat = true := rfl
    simp only [declared, found, check_flat definitions flat, EnumType.fault?_shape,
      Outcome.judge_eq_accuse]
  | message declared found image =>
    -- A lazy shape is looked up here, for the same value: the message asks for its members.
    obtain ⟨rule, meaning, image⟩ := image.meaning sound identified
    simp only [declared, found]
    exact check_eq_interpretMessage (distinct _ (Subtype.property _)) meaning image agree path

theorem check_eq_interpretList {scope : Entry} {name : String} {type : FieldType}
    (typed : TypeImage catalog options (definitions.map Prod.fst) scope name type) {value : Json}
    (agree : ∀ part, part.Inside value → Agrees catalog options definitions part)
    (default : Option Json) (path : Path) :
    check definitions (.array { shape := type.shape, default }) path value =
      .of ((catalog.interpretList options scope name path value).map some) := by
  rcases value.array_cases with ⟨items, rfl⟩ | other
  · have inner : ∀ item ∈ items, Agrees catalog options definitions item :=
      fun item listed => agree item (.item listed)
    rw [check_array, checkItems_eq_interpretItems inner typed, Catalog.interpretList]
    cases catalog.interpretItems options scope name path 0 items <;> rfl
  · rw [check_not_array definitions _ other]
    cases value with
    | arr items => exact absurd rfl (other items)
    | _ => rw [Catalog.interpretList] <;> simp [Outcome.of, Outcome.refuse, Except.map]

theorem agrees (sound : definitions.Sound catalog options) (identified : catalog.Identified)
    (distinct : ∀ entry ∈ catalog.entries, entry.message.FieldsDistinct) (value : Json) :
    Agrees catalog options definitions value := by
  induction value using Json.inside_induction with
  | step value inductionHypothesis =>
    constructor
    · intro scope name type typed path
      exact check_eq_interpret sound identified distinct typed inductionHypothesis path
    · intro scope name type typed default path
      exact check_eq_interpretList typed inductionHypothesis default path

theorem checkPayload_eq_interpretMessage (sound : definitions.Sound catalog options)
    (identified : catalog.Identified)
    (distinct : ∀ entry ∈ catalog.entries, entry.message.FieldsDistinct) {target : catalog.Listed}
    {rule : RecordRule} (image : RecordImage catalog options (definitions.map Prod.fst) rule target)
    (payload : Json) :
    rule.checkPayload definitions payload = catalog.interpretMessage options target.1 [] payload := by
  have meaning : (Shape.record rule).record? definitions = some rule := rfl
  rw [RecordRule.checkPayload, check_eq_interpretMessage (distinct _ target.2) meaning image
    fun part _ => agrees sound identified distinct part]
  cases catalog.interpretMessage options target.1 [] payload <;> rfl

end

/-! ## Compiled schemas -/

namespace Schema

variable {schema : Schema} {options : Options} {registry : Registry}

theorem validate_of_serves (compiled : schema.compile options = .ok registry)
    {validator : Validator} {root : (Catalog.ofSchema schema).Listed}
    (serves : validator.Serves (Catalog.ofSchema schema) options root) (payload : Json) :
    validator.validate payload =
      (Catalog.ofSchema schema).interpretMessage options root.1 [] payload :=
  checkPayload_eq_interpretMessage serves.sound (Catalog.ofSchema_identified schema)
    (fieldsDistinct_of_checkNames (compile_eq_ok_iff.mp compiled).1) serves.image payload

theorem validate_of_root (compiled : schema.compile options = .ok registry)
    {root : (Catalog.ofSchema schema).Listed} (top : root ∈ (Catalog.ofSchema schema).topLevel)
    (payload : Json) :
    registry.validate root.1.message.name payload =
      ((Catalog.ofSchema schema).interpretMessage options root.1 [] payload).mapError .invalid := by
  obtain ⟨validator, lookup, serves⟩ := serves_of_root compiled top
  simp only [Registry.validate, lookup, validate_of_serves compiled serves payload]
  cases (Catalog.ofSchema schema).interpretMessage options root.1 [] payload <;> rfl

theorem validate_eq_ok_iff (compiled : schema.compile options = .ok registry) {name : String}
    {payload value : Json} :
    registry.validate name payload = .ok value ↔
      ∃ root ∈ (Catalog.ofSchema schema).topLevel, root.1.message.name = name ∧
        (Catalog.ofSchema schema).interpretMessage options root.1 [] payload = .ok value := by
  constructor
  · intro accepted
    rw [Registry.validate] at accepted
    cases lookup : registry.get? name with
    | none => simp [lookup] at accepted
    | some validator =>
      have listed := List.mem_of_find?_eq_some lookup
      have named : validator.name = name := by simpa using List.find?_some lookup
      obtain ⟨root, top, serves⟩ := serves_of_mem compiled listed
      refine ⟨root, top, serves.name.symm.trans named, ?_⟩
      rw [← validate_of_serves compiled serves payload]
      simp only [lookup] at accepted
      split at accepted
      next result valid =>
        cases accepted
        exact valid
      next => cases accepted
  · rintro ⟨root, top, rfl, accepted⟩
    rw [validate_of_root compiled top payload, accepted]
    rfl

/-- A compiled schema validates a payload as the schema interprets it. -/
theorem validate_eq_interpret (compiled : schema.compile options = .ok registry) (name : String)
    (payload : Json) :
    registry.validate name payload = schema.interpret options name payload := by
  have checked := compile_eq_ok_iff.mp compiled
  rw [Schema.interpret]
  cases named : (Catalog.ofSchema schema).messageIn? none name with
  | none =>
    -- Every validator serves a top-level message, and none has this name.
    have absent : registry.get? name = none := by
      rw [Registry.get?, List.find?_eq_none]
      intro validator listed same
      obtain ⟨root, top, serves⟩ := serves_of_mem compiled listed
      rw [Catalog.topLevel, List.mem_filter] at top
      have other := List.find?_eq_none.mp named root top.1
      simp_all [serves.name]
    rw [Registry.validate, absent]
  | some root =>
    have found := List.find?_some named
    simp only [Bool.and_eq_true, decide_eq_true_eq] at found
    have top : root ∈ (Catalog.ofSchema schema).topLevel := by
      simp [Catalog.topLevel, List.mem_of_find?_eq_some named, found.1]
    obtain ⟨validator, lookup, serves⟩ := serves_of_root compiled top
    rw [found.2] at lookup
    simp only [Registry.validate, lookup, Validator.validate]
    rw [checkPayload_eq_interpretMessage serves.sound (Catalog.ofSchema_identified schema)
      (fieldsDistinct_of_checkNames checked.1) serves.image payload]
    cases (Catalog.ofSchema schema).interpretMessage options root.1 [] payload <;> rfl

theorem validate_ownerless :
    ∃ registry, accounts.compile {} = .ok registry ∧
      registry.validate "Account" ownerless = accounts.interpret {} "Account" ownerless ∧
      accounts.interpret {} "Account" ownerless = .error (.invalid ownerlessFaults) := by
  obtain ⟨registry, compiled⟩ := accounts_compile
  have agree := validate_eq_interpret compiled "Account" ownerless
  have evaluated : (accounts.compile {}).toOption.map (fun registry =>
      (registry.validate "Account" ownerless).map fun _ => ()) =
      some (.error (.invalid ownerlessFaults)) := by decide +kernel
  rw [compiled] at evaluated
  refine ⟨registry, compiled, agree, ?_⟩
  rw [← agree]
  exact map_eq_error_iff.mp (Option.some.inj evaluated)

end Schema

end PayloadSchema
