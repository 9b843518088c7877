import PayloadSchema.Proofs.Compile.Default
import PayloadSchema.Proofs.Interpretation.Output
import PayloadSchema.Proofs.Json.Alike

/-! # Omitted fields

Whether a field is left out, is given a value that counts as absent, or is given its own default
makes no difference to what a validation says, neither to the value that comes out nor to the
violations.  Three notions meet here: what is missing from an object, what a rule makes of an
absent value, and which fields are provided.  They agree, since a default is accepted as it is
and provides its field either way. -/

namespace PayloadSchema

/-- Whether a value gives a rule no more than its absence does. -/
structure Rule.CanOmit (definitions : Definitions) (rule : Rule) (value : Json) : Prop where
  provided : ((rule.given? (some value)).isSome || rule.fills) = rule.fills
  outcome : ∀ path, rule.checkGiven definitions path (rule.given? (some value)) = rule.absent path

namespace Rule

variable {definitions : Definitions} {rule : Rule} {value : Json}

theorem canOmit_of_isEmpty (empty : rule.isEmpty value = true) :
    rule.CanOmit definitions value := by
  have nothing : rule.given? (some value) = none := by rw [given?_some, if_pos empty]
  exact ⟨by rw [nothing]; rfl, fun path => by rw [nothing, checkGiven]⟩

theorem canOmit_of_default (optional : rule.required = false)
    (stated : rule.default = some value) (accepts : rule.AcceptsDefault definitions) :
    rule.CanOmit definitions value := by
  by_cases empty : rule.isEmpty value = true
  · exact canOmit_of_isEmpty empty
  · have given : rule.given? (some value) = some value := by rw [given?_some, if_neg empty]
    have fills : rule.fills = true := by simp [Rule.fills, optional, stated]
    refine ⟨by rw [given, fills]; rfl, fun path => ?_⟩
    rw [given, checkGiven, accepts value stated path, absent, optional, stated]
    rfl

end Rule

namespace Members

variable {before after : Members} {name : String} {value : Json}

theorem get?_insert_self (omitted : name ∉ (before ++ after).map Prod.fst) :
    get? (before ++ (name, value) :: after) name = some value := by
  rw [List.map_append, List.mem_append, not_or] at omitted
  rw [get?_append, get?_eq_none_iff.mpr omitted.1, Option.none_or, get?_cons_self]

theorem get?_insert_ne {other : String} (differs : other ≠ name) :
    get? (before ++ (name, value) :: after) other = get? (before ++ after) other := by
  rw [get?_append, get?_append, get?_cons_ne differs]

end Members

namespace RecordRule

variable {record : RecordRule} {definitions : Definitions} {name : String} {rule : Rule}
  {value : Json} {before after : Members}

theorem conclude_congr {members others : Members}
    (same : record.undeclared members = record.undeclared others) (path : Path)
    (fields : List FieldOutcome) :
    record.conclude path members fields = record.conclude path others fields := by
  simp only [conclude, violations, normalized, same]

theorem undeclared_insert (declared : (name, rule) ∈ record.fields) :
    record.undeclared (before ++ (name, value) :: after) = record.undeclared (before ++ after) := by
  have known : record.declares name = true :=
    List.any_eq_true.mpr ⟨(name, rule), declared, decide_eq_true rfl⟩
  simp [undeclared, List.filter_append, known]

/-- A value that the rule of its field can do without may be put anywhere into an object. -/
theorem check_insert (distinct : (record.fields.map Prod.fst).Nodup)
    (declared : (name, rule) ∈ record.fields) (canOmit : rule.CanOmit definitions value)
    (omitted : name ∉ (before ++ after).map Prod.fst) (path : Path) :
    check definitions (.record record) path (.obj (before ++ (name, value) :: after)) =
      check definitions (.record record) path (.obj (before ++ after)) := by
  have meaning : (Shape.record record).record? definitions = some record := rfl
  have fields : (record.fields.map fun field => checkField definitions field.1 field.2
        (path.field field.1) (before ++ (name, value) :: after)) =
      record.fields.map fun field => checkField definitions field.1 field.2
        (path.field field.1) (before ++ after) := by
    refine List.map_congr_left fun field listed => ?_
    rw [checkField_eq, checkField_eq]
    by_cases same : field.1 = name
    · -- No other rule has the name.
      obtain rfl : field = (name, rule) := List.inj_on_of_nodup_map distinct listed declared same
      rw [Members.get?_insert_self omitted, Members.get?_eq_none_iff.mpr omitted,
        canOmit.provided, canOmit.outcome, Rule.given?_none]
      rfl
    · rw [Members.get?_insert_ne same]
  rw [check_members meaning, check_members meaning, fields,
    conclude_congr (undeclared_insert declared)]

end RecordRule

namespace Schema

variable {schema : Schema} {options : Options} {registry : Registry}

/-- A field of a payload may be omitted, or be given a value that counts as absent, be it one of
    the options or one that equals it, or its default where that stands for an absent value: the
    result is the same. -/
theorem validate_insert (compiled : schema.compile options = .ok registry)
    {validator : Validator} (listed : validator ∈ registry.validators) :
    ∃ root ∈ (Catalog.ofSchema schema).topLevel, validator.name = root.1.message.name ∧
      ∀ field ∈ root.1.message.fields, ∀ before after : Members,
      field.name ∉ (before ++ after).map Prod.fst →
        (∀ empty ∈ options.empty, empty.Distinct →
          validator.validate (.obj (before ++ (field.name, empty) :: after)) =
            validator.validate (.obj (before ++ after))) ∧
        (∀ empty ∈ options.empty, ∀ value, empty.equal value = true →
          validator.validate (.obj (before ++ (field.name, value) :: after)) =
            validator.validate (.obj (before ++ after))) ∧
        (field.required = false → field.repeated = false → field.default.isSome →
          ∃ default, (Catalog.ofSchema schema).default? root.1 field = some default ∧
            validator.validate (.obj (before ++ (field.name, default) :: after)) =
              validator.validate (.obj (before ++ after))) := by
  obtain ⟨root, top, serves⟩ := serves_of_mem compiled listed
  refine ⟨root, top, serves.name, fun field declared before after omitted => ?_⟩
  obtain ⟨rule, type, among, typed, composed⟩ := serves.image.of_field declared
  have distinct := serves.image.names_nodup
    (fieldsDistinct_of_checkNames (compile_eq_ok_iff.mp compiled).1 root.1 root.2)
  have inserts : ∀ value, rule.CanOmit validator.definitions value →
      validator.validate (.obj (before ++ (field.name, value) :: after)) =
        validator.validate (.obj (before ++ after)) := by
    intro value canOmit
    rw [Validator.validate, Validator.validate, RecordRule.checkPayload, RecordRule.checkPayload,
      RecordRule.check_insert distinct among canOmit omitted]
  have modifiers := typed.rule_eq composed
  have empties : ∀ empty ∈ options.empty, ∀ value, empty.equal value = true →
      validator.validate (.obj (before ++ (field.name, value) :: after)) =
        validator.validate (.obj (before ++ after)) := by
    intro empty configured value equal
    refine inserts value (Rule.canOmit_of_isEmpty ?_)
    rw [Rule.isEmpty, modifiers, Field.ruleOf_empty]
    exact List.any_eq_true.mpr ⟨empty, configured, equal⟩
  refine ⟨fun empty configured distinct => ?_, empties, ?_⟩
  · exact empties empty configured empty distinct.equal_self
  · intro optional single stated
    obtain ⟨default, read⟩ :=
      Option.isSome_iff_exists.mp ((typed.fits composed).default?_isSome stated)
    have accepts := (typed.acceptsDefault composed validator.definitions).1
    refine ⟨default, read, inserts default (Rule.canOmit_of_default ?_ ?_ accepts)⟩
    · rw [modifiers, Field.ruleOf_required, optional]
    · simp [modifiers, single, read]

/-- A section without a style is numbered automatically, as one is whose style is null or says
    so. -/
theorem outline_insert :
    ∃ registry, outline.compile lenient = .ok registry ∧ ∃ validator ∈ registry.validators,
      validator.validate (.obj [("note", .null), ("style", .str "AUTO"), ("tags", .arr [])]) =
        validator.validate (.obj [("note", .null), ("tags", .arr [])]) ∧
      validator.validate (.obj [("note", .null), ("style", .null), ("tags", .arr [])]) =
        validator.validate (.obj [("note", .null), ("tags", .arr [])]) ∧
      validator.validate (.obj [("note", .null), ("tags", .arr [])]) =
        .ok (.obj [("title", .str ""), ("tags", .arr []), ("style", .str "AUTO"),
          ("note", .null)]) := by
  have evaluated : (outline.compile lenient).toOption.bind (fun registry =>
      (registry.get? "Section").bind fun validator =>
        (validator.validate (.obj [("note", .null), ("tags", .arr [])])).toOption) =
      some (.obj [("title", .str ""), ("tags", .arr []), ("style", .str "AUTO"),
        ("note", .null)]) := by decide +kernel
  have styled : ∀ root ∈ (Catalog.ofSchema outline).topLevel, ∃ field ∈ root.1.message.fields,
      field.name = "style" ∧ field.required = false ∧ field.repeated = false ∧
      field.default.isSome ∧
      (Catalog.ofSchema outline).default? root.1 field = some (.str "AUTO") := by decide +kernel
  obtain ⟨registry, compiled, served⟩ := Option.bind_eq_some_iff.mp evaluated
  obtain ⟨validator, lookup, accepted⟩ := Option.bind_eq_some_iff.mp served
  have succeeded := toOption_eq_some_iff.mp compiled
  have listed := List.mem_of_find?_eq_some lookup
  obtain ⟨root, top, _, inserts⟩ := validate_insert succeeded listed
  obtain ⟨field, declared, named, optional, single, stated, read⟩ := styled root top
  obtain ⟨empty, _, filled⟩ := inserts field declared [("note", .null)] [("tags", .arr [])]
    (by simp [named])
  obtain ⟨default, same, filled⟩ := filled optional single stated
  cases read.symm.trans same
  rw [named] at empty filled
  exact ⟨registry, succeeded, validator, listed, filled,
    empty .null (by simp [lenient]) .null, toOption_eq_some_iff.mp accepted⟩

end Schema

end PayloadSchema
