import PayloadSchema.Proofs.Compile.Success
import PayloadSchema.Proofs.Interpretation.Agreement
import PayloadSchema.Proofs.Interpretation.Default
import PayloadSchema.Proofs.Json.Equality
import PayloadSchema.Proofs.Rule.Conforms

/-! # What comes out of a validation

A relation says what a value that comes out is, beside the value that went in: at each
message, which keys it has and in which order, and of each key where its value comes from.
It is read off the schema, knows nothing of violations, and holds at every depth, since a
message inside a message stands in the relation too. -/

namespace PayloadSchema

mutual

/-- What comes out for a value of a type that is named inside a message. -/
inductive TypeOutput (catalog : Catalog) (options : Options) : Entry → String → Json → Json → Prop
    where
  | scalar {scope : Entry} {name : String} {scalar : Scalar} {value : Json}
      (named : Scalar.ofName? name = some scalar)
      -- A scalar shape asks for no definitions.
      (typed : Conforms [] scalar.shape value) : TypeOutput catalog options scope name value value
  | enum {scope : Entry} {name : String} {enum : EnumType} {text : String}
      (declared : Scalar.ofName? name = none) (found : catalog.referent scope name = .enum enum)
      (listed : text ∈ enum.names) : TypeOutput catalog options scope name (.str text) (.str text)
  | message {scope : Entry} {name : String} {target : catalog.Listed} {value output : Json}
      (declared : Scalar.ofName? name = none)
      (found : catalog.referent scope name = .message target)
      (inner : MessageOutput catalog options target.1 value output) :
      TypeOutput catalog options scope name value output

/-- What comes out for a message. -/
inductive MessageOutput (catalog : Catalog) (options : Options) : Entry → Json → Json → Prop where
  | object {target : Entry} {members output : Members}
      -- First declared keys in declared order, then the others, if they are let through.
      (order : ∃ declared, output = declared ++ target.message.passed options members ∧
        (declared.map Prod.fst).Sublist (target.message.fields.map Field.name))
      (required : ∀ field ∈ target.message.fields, field.required = true →
        field.name ∈ output.map Prod.fst)
      (defaulted : ∀ field ∈ target.message.fields, field.required = false →
        field.repeated = false → field.default.isSome = true → field.name ∈ output.map Prod.fst)
      (alternatives : ∀ group ∈ target.message.groups,
        ∃! member, member ∈ group.members ∧ member ∈ output.map Prod.fst)
      (values : ∀ field ∈ target.message.fields, ∀ value, (field.name, value) ∈ output →
        FieldOutput catalog options target field members value) :
      MessageOutput catalog options target (.obj members) (.obj output)

/-- Where the value of a declared key comes from. -/
inductive FieldOutput (catalog : Catalog) (options : Options) :
    Entry → Field → Members → Json → Prop where
  | single {scope : Entry} {field : Field} {members : Members} {value output : Json}
      (given : members.given? options field.name = some value) (once : field.repeated = false)
      (inner : TypeOutput catalog options scope field.typeName value output) :
      FieldOutput catalog options scope field members output
  | list {scope : Entry} {field : Field} {members : Members} {items outputs : List Json}
      (given : members.given? options field.name = some (.arr items))
      (many : field.repeated = true)
      (inner : ItemOutputs catalog options scope field.typeName items outputs) :
      FieldOutput catalog options scope field members (.arr outputs)
  | default {scope : Entry} {field : Field} {members : Members} {value : Json}
      (absent : members.given? options field.name = none) (optional : field.required = false)
      (once : field.repeated = false) (stated : catalog.default? scope field = some value)
      (typed : TypeOutput catalog options scope field.typeName value value) :
      FieldOutput catalog options scope field members value

/-- What comes out for the items of a list, one for each. -/
inductive ItemOutputs (catalog : Catalog) (options : Options) :
    Entry → String → List Json → List Json → Prop where
  | nil {scope : Entry} {name : String} : ItemOutputs catalog options scope name [] []
  | cons {scope : Entry} {name : String} {item output : Json} {items outputs : List Json}
      (first : TypeOutput catalog options scope name item output)
      (rest : ItemOutputs catalog options scope name items outputs) :
      ItemOutputs catalog options scope name (item :: items) (output :: outputs)

end

/-- Whether reading a field came to an end well, with a value or without one. -/
structure Reading.Settled (reading : Reading) (output : Option Json) : Prop where
  result : reading.result = .ok output
  provided : reading.provided = output.isSome

theorem Reading.Settled.member? {reading : Reading} {output : Option Json}
    (settled : reading.Settled output) :
    reading.member? = output.map (reading.field.name, ·) := by
  rw [Reading.member?, settled.result]
  cases output <;> rfl

theorem Reading.Settled.violations {reading : Reading} {output : Option Json}
    (settled : reading.Settled output) : reading.violations = [] := by
  rw [Reading.violations, settled.result]

theorem members_names {readings : List Reading}
    (settled : ∀ reading ∈ readings, ∃ output, reading.Settled output) :
    (readings.filterMap Reading.member?).map Prod.fst =
      (readings.filter Reading.provided).map fun reading => reading.field.name := by
  induction readings with
  | nil => rfl
  | cons reading rest inductionHypothesis =>
    obtain ⟨output, first⟩ := settled reading List.mem_cons_self
    have later := inductionHypothesis fun other listed => settled other (.tail reading listed)
    rw [List.filterMap_cons, List.filter_cons, first.member?, first.provided]
    cases output with
    | none => simpa using later
    | some value => simpa using later

section

variable {message : Message} {options : Options} {path : Path} {members : Members}
  {readings : List Reading}

theorem alternativesFault?_eq_none_iff (distinct : message.FieldsDistinct)
    (complete : readings.map Reading.field = message.fields)
    (settled : ∀ reading ∈ readings, ∃ output, reading.Settled output) (tag : String) :
    message.alternativesFault? readings tag = none ↔
      ∃! member, member ∈ taggedWith tag message.fields ∧
        member ∈ (readings.filterMap Reading.member?).map Prod.fst := by
  have provided : ((readings.map Reading.outcome).filter (·.provided)).map (·.name) =
      (readings.filterMap Reading.member?).map Prod.fst := by
    rw [members_names settled, List.filter_map, List.map_map]
    rfl
  have members : (taggedWith tag message.fields).Nodup :=
    distinct.sublist (taggedWith_sublist tag message.fields)
  rw [← fault?_eq_alternativesFault? distinct complete, provided, Group.fault?_eq_none_iff members]
  simp only [List.contains_iff_mem]

/-- Once its fields are settled, an object is accepted if it has no key that it must not have,
    and of each group exactly one member comes out. -/
theorem conclude_settled_iff (distinct : message.FieldsDistinct)
    (complete : readings.map Reading.field = message.fields)
    (settled : ∀ reading ∈ readings, ∃ output, reading.Settled output) {value : Json} :
    message.conclude options path members readings = .ok value ↔
      (options.allowUnknown = false → message.strangers members = []) ∧
      ∃ output, output = readings.filterMap Reading.member? ++ message.passed options members ∧
        (∀ group ∈ message.groups,
          ∃! member, member ∈ group.members ∧ member ∈ output.map Prod.fst) ∧
        value = .obj output := by
  have clean : ∀ reading ∈ readings, reading.violations = [] := fun reading listed =>
    (settled reading listed).elim fun _ settled => settled.violations
  have groups : (∀ group ∈ message.groups, ∃! member, member ∈ group.members ∧
      member ∈ (readings.filterMap Reading.member? ++ message.passed options members).map
        Prod.fst) ↔
      ∀ tag ∈ tagsOf message.fields, message.alternativesFault? readings tag = none := by
    -- A member of a group is a field, and no field is among the keys that are let through.
    have own : ∀ group ∈ message.groups, ∀ member, (member ∈ group.members ∧
        member ∈ (readings.filterMap Reading.member? ++ message.passed options members).map
          Prod.fst) ↔
        (member ∈ group.members ∧ member ∈ (readings.filterMap Reading.member?).map Prod.fst) := by
      refine fun group listed member => and_congr_right fun belongs => ?_
      obtain ⟨field, declared, rfl⟩ := Message.exists_field_of_member listed belongs
      exact Message.mem_append_passed_iff declared _
    rw [forall₂_congr fun group listed => existsUnique_congr (own group listed)]
    rw [Message.groups_eq, groupsOf, List.forall_mem_map]
    exact forall₂_congr fun tag _ =>
      (alternativesFault?_eq_none_iff distinct complete settled tag).symm
  rw [Message.conclude_eq_ok_iff, ← groups]
  constructor
  · rintro ⟨_, known, alternatives, rfl⟩
    exact ⟨known, _, rfl, alternatives, rfl⟩
  · rintro ⟨known, _, rfl, alternatives, rfl⟩
    exact ⟨clean, known, alternatives, rfl⟩

end

/-! ## Every value that comes out -/

section

variable {catalog : Catalog} {options : Options} {scope : Entry}

theorem EnumType.fault?_eq_none {enum : EnumType} {value : Json}
    (passes : enum.fault? value = none) : ∃ text, value = .str text ∧ text ∈ enum.names := by
  cases value with
  | str text =>
    rw [fault?] at passes
    split at passes
    next listed => exact ⟨text, rfl, listed⟩
    next => cases passes
  | _ => cases passes

theorem TypeOutput.of_interpret {name : String} {path : Path} {value output : Json}
    (accepted : catalog.interpret options scope name path value = .ok output)
    (message : ∀ target, Scalar.ofName? name = none →
      catalog.referent scope name = .message target →
      catalog.interpretMessage options target.1 path value = .ok output →
      MessageOutput catalog options target.1 value output) :
    TypeOutput catalog options scope name value output := by
  rcases Catalog.interpret_eq_ok_iff.mp accepted with
    ⟨scalar, named, passes, rfl⟩ | ⟨declared, ⟨enum, found, passes, rfl⟩ | ⟨target, found, inner⟩⟩
  · rw [← Scalar.fault?_shape scalar []] at passes
    exact .scalar named (conforms_of_fault? scalar.shape_isFlat passes)
  · obtain ⟨text, rfl, listed⟩ := EnumType.fault?_eq_none passes
    exact .enum declared found listed
  · exact .message declared found (message target declared found inner)

theorem TypeOutput.of_default {field : Field} {value : Json}
    (stated : catalog.default? scope field = some value) :
    TypeOutput catalog options scope field.typeName value value := by
  refine .of_interpret (Catalog.interpret_default stated options [])
    fun target declared found _ => ?_
  -- A field that leads to a message has no default.
  simp [Catalog.default?, declared, found] at stated

theorem Field.Fits.default?_isSome {field : Field} (fits : field.Fits catalog scope)
    (stated : field.default.isSome = true) : (catalog.default? scope field).isSome = true := by
  obtain ⟨literal, stated⟩ := Option.isSome_iff_exists.mp stated
  rw [Catalog.default?, stated, Option.bind_some]
  cases fits with
  | scalar named fits =>
    obtain ⟨value, read⟩ := fits literal stated
    simp [named, read]
  | enum declared found fits => simp [declared, found, fits literal stated]
  | message declared found plain =>
    rw [plain] at stated
    cases stated

/-- Whether all that an interpretation makes of a value stands in the relation, for the types
    of fields that are reached. -/
structure Yields (catalog : Catalog) (options : Options) (value : Json) : Prop where
  single : ∀ scope : catalog.Listed, Reachable catalog scope →
    ∀ field ∈ scope.1.message.fields, ∀ path output,
    catalog.interpret options scope.1 field.typeName path value = .ok output →
    TypeOutput catalog options scope.1 field.typeName value output
  list : ∀ scope : catalog.Listed, Reachable catalog scope →
    ∀ field ∈ scope.1.message.fields, ∀ path output,
    catalog.interpretList options scope.1 field.typeName path value = .ok output →
    ∃ items outputs, value = .arr items ∧ output = .arr outputs ∧
      ItemOutputs catalog options scope.1 field.typeName items outputs

theorem interpretField_settled {field : Field} {path : Path} {members : Members}
    (clean : (catalog.interpretField options scope field path members).violations = []) :
    ∃ output, (catalog.interpretField options scope field path members).Settled output := by
  obtain ⟨output, result⟩ := Catalog.interpretField_accepted clean
  refine ⟨output, result, ?_⟩
  rw [Reading.provided, result]
  cases given : members.given? options field.name with
  | some value =>
    -- A value that is given always gives a value.
    rw [Catalog.interpretField_of_given given] at result ⊢
    obtain ⟨single, _, rfl⟩ := map_eq_ok_iff.mp result
    rfl
  | none =>
    rw [Catalog.interpretField_of_absent given]
    cases output <;> rfl

theorem FieldOutput.of_settled {scope : catalog.Listed} (reached : Reachable catalog scope)
    {field : Field} (declared : field ∈ scope.1.message.fields) {path : Path} {members : Members}
    {output : Json} (yields : ∀ member ∈ members, Yields catalog options member.2)
    (settled : (catalog.interpretField options scope.1 field path members).Settled
      (some output)) : FieldOutput catalog options scope.1 field members output := by
  rcases Catalog.interpretField_eq_ok settled.result with
    ⟨value, single, given, read, same⟩ | ⟨absent, optional, same⟩
  · cases same
    have found := Members.mem_of_get? (Option.filter_eq_some_iff.mp given).1
    cases repeated : field.repeated with
    | false =>
      simp only [repeated, Bool.false_eq_true, if_false] at read
      exact .single given repeated ((yields _ found).single scope reached field declared _ _ read)
    | true =>
      simp only [repeated, if_true] at read
      obtain ⟨items, outputs, rfl, rfl, inner⟩ :=
        (yields _ found).list scope reached field declared _ _ read
      exact .list given repeated inner
  · cases repeated : field.repeated with
    | true => simp [repeated] at same
    | false =>
      simp only [repeated, Bool.false_eq_true, if_false] at same
      exact .default absent optional repeated same.symm (.of_default same.symm)

theorem mem_members_iff {fields : List Field} (distinct : (fields.map Field.name).Nodup)
    {members : Members} {path : Field → Path} {outputs : Field → Option Json}
    (settled : ∀ field ∈ fields,
      (catalog.interpretField options scope field (path field) members).Settled (outputs field))
    {field : Field} (declared : field ∈ fields) (value : Json) :
    (field.name, value) ∈ (fields.map fun field =>
      catalog.interpretField options scope field (path field) members).filterMap Reading.member? ↔
      outputs field = some value := by
  rw [List.filterMap_map, List.mem_filterMap]
  have own : ∀ field ∈ fields, Reading.member? (catalog.interpretField options scope field
      (path field) members) = (outputs field).map (field.name, ·) := by
    intro field listed
    rw [(settled field listed).member?, Catalog.interpretField_field]
  constructor
  · rintro ⟨other, listed, member⟩
    rw [Function.comp_apply, own other listed] at member
    obtain ⟨found, present, same⟩ := Option.map_eq_some_iff.mp member
    rw [Prod.mk.injEq] at same
    -- The names are distinct, so the member is that of the field itself.
    rw [← List.inj_on_of_nodup_map distinct listed declared same.1, present, same.2]
  · intro present
    exact ⟨field, declared, by rw [Function.comp_apply, own field declared, present]; rfl⟩

theorem MessageOutput.of_interpret {target : catalog.Listed} (reached : Reachable catalog target)
    (distinct : target.1.message.FieldsDistinct)
    (fits : ∀ field ∈ target.1.message.fields, field.Fits catalog target.1) {value output : Json}
    {path : Path} (yields : ∀ part, part.Inside value → Yields catalog options part)
    (accepted : catalog.interpretMessage options target.1 path value = .ok output) :
    MessageOutput catalog options target.1 value output := by
  obtain ⟨members, rfl, concluded⟩ := Catalog.interpretMessage_eq_ok accepted
  have clean := (Message.conclude_eq_ok_iff.mp concluded).1
  rw [Catalog.readings, List.forall_mem_map] at clean
  choose! outputs settled using fun field listed => interpretField_settled (clean field listed)
  have each : ∀ reading ∈ catalog.readings options target.1 path members,
      ∃ output, reading.Settled output :=
    List.forall_mem_map.mpr fun field listed => ⟨_, settled field listed⟩
  obtain ⟨-, output, rfl, alternatives, rfl⟩ :=
    (conclude_settled_iff distinct (Catalog.readings_field target.1) each).mp concluded
  have named : ∀ field ∈ target.1.message.fields, ∀ value, outputs field = some value →
      field.name ∈ ((catalog.readings options target.1 path members).filterMap Reading.member? ++
        target.1.message.passed options members).map Prod.fst := by
    intro field declared value present
    have member := (mem_members_iff distinct settled declared value).mpr present
    exact List.mem_map_of_mem (List.mem_append_left _ member)
  have order := Reading.members_sublist (catalog.readings options target.1 path members)
  rw [Catalog.readings_field] at order
  refine .object ⟨_, rfl, order⟩ ?_ ?_ alternatives ?_
  · intro field declared required
    rcases Catalog.interpretField_eq_ok (settled field declared).result with
      ⟨_, single, _, _, same⟩ | ⟨_, optional, _⟩
    · exact named field declared single same
    · rw [required] at optional
      cases optional
  · intro field declared optional once stated
    have readable := (fits field declared).default?_isSome stated
    obtain ⟨default, stated⟩ := Option.isSome_iff_exists.mp readable
    rcases Catalog.interpretField_eq_ok (settled field declared).result with
      ⟨_, single, _, _, same⟩ | ⟨_, _, same⟩
    · exact named field declared single same
    · rw [once, stated] at same
      exact named field declared default same
  · intro field declared value listed
    rw [List.mem_append] at listed
    have member := listed.resolve_right fun passed =>
      Message.passed_names declared (List.mem_map_of_mem passed)
    have present := (mem_members_iff distinct settled declared value).mp member
    exact .of_settled reached declared (fun member listed => yields _ (.member listed))
      (present ▸ settled field declared)

theorem ItemOutputs.of_read {scope : catalog.Listed} (reached : Reachable catalog scope)
    {field : Field} (declared : field ∈ scope.1.message.fields) {items outputs : List Json}
    (yields : ∀ item ∈ items, Yields catalog options item)
    (read : List.Forall₂ (fun item output => ∃ path,
      catalog.interpret options scope.1 field.typeName path item = .ok output) items outputs) :
    ItemOutputs catalog options scope.1 field.typeName items outputs := by
  induction read with
  | nil => exact .nil
  | @cons item output items outputs first _ inductionHypothesis =>
    obtain ⟨path, accepted⟩ := first
    exact .cons ((yields item List.mem_cons_self).single scope reached field declared _ _ accepted)
      (inductionHypothesis fun other listed => yields other (.tail item listed))

/-- Whatever is accepted comes out as the relation says. -/
theorem yields (distinct : ∀ entry ∈ catalog.entries, entry.message.FieldsDistinct)
    (fits : ∀ scope, Reachable catalog scope →
      ∀ field ∈ scope.1.message.fields, field.Fits catalog scope.1) (value : Json) :
    Yields catalog options value := by
  induction value using Json.inside_induction with
  | step value inductionHypothesis =>
    constructor
    · intro scope reached field listed path output accepted
      refine .of_interpret accepted fun target declared found accepted => ?_
      have next := reached.field listed declared found
      exact .of_interpret next (distinct _ target.2) (fits target next) inductionHypothesis accepted
    · intro scope reached field listed path output accepted
      obtain ⟨items, outputs, rfl, rfl, read⟩ := Catalog.interpretList_eq_ok accepted
      refine ⟨items, outputs, rfl, rfl, ?_⟩
      exact .of_read reached listed (fun item inside => inductionHypothesis item (.item inside))
        (Catalog.interpretItems_eq_ok read)

end

/-! ## Compiled schemas -/

namespace Schema

variable {schema : Schema} {options : Options} {registry : Registry}

theorem messageOutput_of_root (compiled : schema.compile options = .ok registry)
    {root : (Catalog.ofSchema schema).Listed} (top : root ∈ (Catalog.ofSchema schema).topLevel)
    {path : Path} {payload value : Json} (accepted :
      (Catalog.ofSchema schema).interpretMessage options root.1 path payload = .ok value) :
    MessageOutput (Catalog.ofSchema schema) options root.1 payload value := by
  have distinct := fieldsDistinct_of_checkNames (compile_eq_ok_iff.mp compiled).1
  have fits := fits_of_compile compiled
  exact .of_interpret (.root top) (distinct _ root.2) (fits root (.root top))
    (fun part _ => yields distinct fits part) accepted

/-- What a validator of a compiled schema gives for a payload is what its message lets come out
    for it. -/
theorem validate_output (compiled : schema.compile options = .ok registry)
    {validator : Validator} (listed : validator ∈ registry.validators) {payload value : Json}
    (accepted : validator.validate payload = .ok value) :
    ∃ root ∈ (Catalog.ofSchema schema).topLevel, root.1.message.name = validator.name ∧
      MessageOutput (Catalog.ofSchema schema) options root.1 payload value := by
  obtain ⟨root, top, serves⟩ := serves_of_mem compiled listed
  rw [validate_of_serves compiled serves payload] at accepted
  exact ⟨root, top, serves.name.symm, messageOutput_of_root compiled top accepted⟩

def outline : Schema where
  messages := [
    { name := "Section"
      fields := [
        { name := "title", typeName := "string", default := some "" },
        { name := "next", typeName := "Section" },
        { name := "tags", typeName := "string", repeated := true },
        { name := "style", typeName := "Style", group := some "numbering", default := some "AUTO" },
        { name := "number", typeName := "uint32", group := some "numbering" }]
      enums := [{ name := "Style", entries := [⟨"AUTO", 0⟩, ⟨"NONE", 1⟩] }] }]

def lenient : Options where
  empty := [.null, .str ""]
  allowUnknown := true

def draft : Json :=
  .obj [("number", .null), ("note", .arr [.null]), ("tags", .arr [.str "", .str "a"]),
    ("next", .obj [("note", .null), ("title", .str "")])]

/-- The draft once it is validated, with its defaults filled in. -/
def finished : Json :=
  .obj [("title", .str ""),
    ("next", .obj [("title", .str ""), ("style", .str "AUTO"), ("note", .null)]),
    ("tags", .arr [.str "", .str "a"]), ("style", .str "AUTO"), ("note", .arr [.null])]

theorem draft_accepted :
    ∃ registry, outline.compile lenient = .ok registry ∧
      ∃ validator, registry.get? "Section" = some validator ∧
        validator.validate draft = .ok finished := by
  have evaluated : (outline.compile lenient).toOption.bind (fun registry =>
      (registry.get? "Section").bind fun validator => (validator.validate draft).toOption) =
      some finished := by decide +kernel
  obtain ⟨registry, compiled, served⟩ := Option.bind_eq_some_iff.mp evaluated
  obtain ⟨validator, lookup, accepted⟩ := Option.bind_eq_some_iff.mp served
  exact ⟨registry, toOption_eq_some_iff.mp compiled, validator, lookup,
    toOption_eq_some_iff.mp accepted⟩

theorem draft_output :
    ∃ registry, outline.compile lenient = .ok registry ∧
      ∃ validator ∈ registry.validators, validator.validate draft = .ok finished ∧
        ∃ root ∈ (Catalog.ofSchema outline).topLevel, root.1.message.name = validator.name ∧
          MessageOutput (Catalog.ofSchema outline) lenient root.1 draft finished := by
  obtain ⟨registry, compiled, validator, lookup, accepted⟩ := draft_accepted
  have listed := List.mem_of_find?_eq_some lookup
  exact ⟨registry, compiled, validator, listed, accepted,
    validate_output compiled listed accepted⟩

end Schema

end PayloadSchema
