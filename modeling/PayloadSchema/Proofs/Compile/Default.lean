import PayloadSchema.Proofs.Interpretation.Agreement
import PayloadSchema.Proofs.Interpretation.Default
import PayloadSchema.Proofs.Json.Equality
import PayloadSchema.Proofs.Rule.Place

/-! # Compiled defaults

No check looks at a default when it stands in for an absent value.  It need not, since every
default that a compiled rule carries is a value that the shape of the rule accepts and leaves as
it is: a literal is read the way values of its type are checked.  The items of a list carry the
default of their field, and nothing else in a compiled rule has one. -/

namespace PayloadSchema

/-- Whether a rule accepts its own default, if it has one, and leaves it as it is. -/
def Rule.AcceptsDefault (definitions : Definitions) (rule : Rule) : Prop :=
  ∀ value, rule.default = some value → ∀ path,
    check definitions rule.shape path value = .accept value

/-- Whether a rule stands inside a shape, for a field of a record or for the items of an array. -/
inductive Rule.Within (rule : Rule) (whole : Shape) : Prop where
  | field {record : RecordRule} {name : String} (inside : (Shape.record record).Within whole)
      (listed : (name, rule) ∈ record.fields) : Within rule whole
  | items (inside : (Shape.array rule).Within whole) : Within rule whole

/-- The literals of a scalar type are read as values that its shape accepts. -/
theorem Scalar.check_of_read? (scalar : Scalar) {literal : String} {value : Json}
    (read : scalar.literalKind.read? literal = some value) (definitions : Definitions)
    (path : Path) : check definitions scalar.shape path value = .accept value := by
  rw [check_flat definitions scalar.shape_isFlat, scalar.fault?_shape, scalar.fault?_of_read? read,
    Outcome.judge]

theorem check_member_of_read? {name literal : String} {members : List String} {value : Json}
    (read : (DefaultForm.member members).read? literal = some value) (definitions : Definitions)
    (path : Path) : check definitions (.enum name members) path value = .accept value := by
  have listed : literal ∈ members ∧ Json.str literal = value := by
    simpa [DefaultForm.read?] using read
  obtain ⟨listed, rfl⟩ := listed
  have flat : (Shape.enum name members).isFlat = true := rfl
  have fits : (Shape.enum name members).fault? definitions (.str literal) = none := by
    simp [Shape.fault?, listed]
  rw [check_flat definitions flat, fits, Outcome.judge]

section

variable {catalog : Catalog} {options : Options} {known : List MessageId} {scope : Entry}
  {name literal : String} {type : FieldType} {value : Json}

/-- A literal that may stand as a default is read as a value that the type accepts. -/
theorem TypeImage.check_of_read? (typed : TypeImage catalog options known scope name type)
    (read : type.defaultForm.read? literal = some value) (definitions : Definitions)
    (path : Path) : check definitions type.shape path value = .accept value := by
  cases typed with
  | scalar named => exact Scalar.check_of_read? _ read definitions path
  | enum declared found => exact check_member_of_read? read definitions path
  | message declared found image => cases read

variable {field : Field} {rule : Rule}

theorem TypeImage.acceptsDefault
    (typed : TypeImage catalog options known scope field.typeName type)
    (composed : field.rule scope.message.name type options = .ok rule)
    (definitions : Definitions) :
    rule.AcceptsDefault definitions ∧
      ∀ element, rule.shape = .array element → element.AcceptsDefault definitions := by
  obtain ⟨default, valued, rfl⟩ := Field.rule_eq_ok_iff.mp composed
  have single : ∀ value, default = some value → ∀ path,
      check definitions type.shape path value = .accept value := by
    intro value stated
    rw [(Field.defaultValue_eq_ok_iff.mp valued).1] at stated
    obtain ⟨literal, _, read⟩ := Option.bind_eq_some_iff.mp stated
    exact typed.check_of_read? read definitions
  simp only [Rule.AcceptsDefault, Field.ruleOf_default, Field.ruleOf_shape]
  cases field.repeated with
  | false => exact ⟨single, fun element list => absurd list (typed.not_array element)⟩
  | true =>
    -- The default went to the items.
    refine ⟨nofun, fun element list => ?_⟩
    cases list
    exact single

theorem RecordImage.acceptsDefault {record : RecordRule} {target : catalog.Listed}
    (image : RecordImage catalog options known record target)
    (inside : rule.Within (.record record)) (definitions : Definitions) :
    rule.AcceptsDefault definitions := by
  cases inside with
  | field inside listed =>
    obtain ⟨target, image⟩ := ((PartImage.rule image).within inside).of_record rfl
    obtain ⟨field, _, _, type, typed, composed⟩ := image.of_rule listed
    exact (typed.acceptsDefault composed definitions).1
  | items inside =>
    rcases (PartImage.rule image).origin inside with same | ⟨scope, name, type, typed, list⟩ |
      ⟨scope, field, type, outer, typed, composed, list⟩
    · cases same
    · exact absurd list.symm (typed.not_array rule)
    · exact (typed.acceptsDefault composed definitions).2 rule list.symm

end

namespace Schema

/-- Every default inside a compiled rule is accepted as it is by the rule that carries it.  This
    is so since the literals of every scalar type, and the names of an enumeration's values, are
    read as values of the type. -/
theorem compile_acceptsDefault :
    (∀ (schema : Schema) (options : Options) (registry : Registry),
      schema.compile options = .ok registry →
      ∀ validator ∈ registry.validators,
      ∀ record, (record = validator.rule ∨ ∃ id, (id, record) ∈ validator.definitions) →
      ∀ rule : Rule, rule.Within (.record record) → rule.AcceptsDefault validator.definitions) ∧
    ∀ (definitions : Definitions) (path : Path) (literal : String) (value : Json),
      (∀ scalar : Scalar, scalar.literalKind.read? literal = some value →
        check definitions scalar.shape path value = .accept value) ∧
      ∀ (name : String) (members : List String),
        (DefaultForm.member members).read? literal = some value →
        check definitions (.enum name members) path value = .accept value := by
  constructor
  · intro schema options registry compiled validator listed record origin rule inside
    obtain ⟨root, _, serves⟩ := serves_of_mem compiled listed
    rcases origin with rfl | ⟨id, defined⟩
    · exact serves.image.acceptsDefault inside validator.definitions
    · obtain ⟨target, _, _, image⟩ := serves.sound.image id record defined
      exact image.acceptsDefault inside validator.definitions
  · intro definitions path literal value
    exact ⟨fun scalar read => scalar.check_of_read? read definitions path,
      fun name members read => check_member_of_read? read definitions path⟩

/-- Sizes that are listed have the greatest size as the default of an item, and a box refers to
    others. -/
def boxes : Schema where
  messages := [
    { name := "Box"
      fields := [
        { name := "sizes", typeName := "uint64", repeated := true,
          default := some "18446744073709551615" },
        { name := "inner", typeName := "Box" }] }]

theorem boxes_acceptDefault :
    ∃ registry validator, boxes.compile {} = .ok registry ∧ validator ∈ registry.validators ∧
      ∃ id record, (id, record) ∈ validator.definitions ∧
      ∃ rule : Rule, rule.Within (.record record) ∧
        rule.default = some (.num (.int 18446744073709551615)) ∧
        rule.AcceptsDefault validator.definitions := by
  have evaluated : (boxes.compile {}).toOption.bind (fun registry =>
      (registry.get? "Box").bind fun validator => (validator.definitions.get? 0).bind fun record =>
        (record.field? "sizes").bind fun rule =>
          (rule.shape.part? validator.definitions (.index 0)).bind (·.default)) =
      some (.num (.int 18446744073709551615)) := by decide +kernel
  obtain ⟨registry, compiled, served⟩ := Option.bind_eq_some_iff.mp evaluated
  obtain ⟨validator, lookup, served⟩ := Option.bind_eq_some_iff.mp served
  obtain ⟨record, found, served⟩ := Option.bind_eq_some_iff.mp served
  obtain ⟨rule, declared, served⟩ := Option.bind_eq_some_iff.mp served
  obtain ⟨element, asked, stated⟩ := Option.bind_eq_some_iff.mp served
  have succeeded := toOption_eq_some_iff.mp compiled
  have listed := List.mem_of_find?_eq_some lookup
  have defined := Definitions.mem_of_get? found
  obtain ⟨before, after, fields, _⟩ := List.lookup_eq_some_iff.mp declared
  have among : ("sizes", rule) ∈ record.fields := by simp [fields]
  have list := Shape.eq_array_of_part? asked
  have items : element.Within (.record record) := .items (.field among (list ▸ .whole))
  exact ⟨registry, validator, succeeded, listed, 0, record, defined, element, items, stated,
    compile_acceptsDefault.1 boxes {} registry succeeded validator listed record
      (.inr ⟨0, defined⟩) element items⟩

end Schema

end PayloadSchema
