import PayloadSchema.Proofs.Compile.Description
import PayloadSchema.Proofs.Interpretation.Default
import PayloadSchema.Proofs.Rule.Exchange

/-! # Equal descriptions

The description of a validator shows its rule and every definition that a check of the rule may
come upon.  Since the views of rules lose nothing, validators with equal descriptions treat every
payload alike, whatever schemas they were compiled from. -/

namespace PayloadSchema

theorem DefaultForm.read?_distinct {form : DefaultForm} {literal : String} {value : Json}
    (read : form.read? literal = some value) : value.Distinct := by
  cases form with
  | literal kind => exact LiteralKind.read?_distinct read
  | member names =>
    rw [read?] at read
    split at read
    next =>
      cases read
      exact .str literal
    next => cases read
  | forbidden => cases read

theorem Field.defaultValue_distinct {field : Field} {message : String} {form : DefaultForm}
    {default : Option Json} (stated : field.defaultValue message form = .ok default) :
    ∀ value, default = some value → value.Distinct := by
  rintro value rfl
  obtain ⟨literal, _, read⟩ := Option.bind_eq_some_iff.mp (defaultValue_eq_ok_iff.mp stated).1.symm
  exact DefaultForm.read?_distinct read

theorem Field.rule_distinct {field : Field} {message : String} {type : FieldType}
    {options : Options} (empty : ∀ value ∈ options.empty, value.Distinct) {rule : Rule}
    (composed : field.rule message type options = .ok rule) : rule.Distinct := by
  obtain ⟨default, stated, rfl⟩ := rule_eq_ok_iff.mp composed
  refine ⟨fun value filled => ?_, empty⟩
  rw [ruleOf_default] at filled
  split at filled
  next => cases filled
  next => exact defaultValue_distinct stated value filled

theorem RecordImage.element_distinct {catalog : Catalog} {options : Options}
    {known : List MessageId} {rule : RecordRule} {target : catalog.Listed}
    (image : RecordImage catalog options known rule target) {element : Rule}
    (inside : (Shape.array element).Within (.record rule)) : element.Distinct := by
  rcases (PartImage.rule image).origin inside with same | ⟨_, _, _, typed, same⟩ |
    ⟨_, field, type, _, typed, composed, same⟩
  · cases same
  · exact absurd same.symm (typed.not_array element)
  · obtain ⟨default, stated, rfl⟩ := Field.rule_eq_ok_iff.mp composed
    rw [Field.ruleOf_shape] at same
    split at same
    next =>
      cases same
      exact ⟨Field.defaultValue_distinct stated, by simp⟩
    next => exact absurd same.symm (typed.not_array element)

/-- Whether a shape stands inside the rule of a validator, or inside a definition that the rule
    needs. -/
inductive Validator.Holds (validator : Validator) (shape : Shape) : Prop where
  | rule (inside : shape.Within (.record validator.rule))
  | definition {id : MessageId} {stored : RecordRule}
      (needed : validator.rule.Needs validator.definitions id)
      (found : validator.definitions.get? id = some stored)
      (inside : shape.Within (.record stored))

namespace Validator.Holds

variable {validator : Validator} {shape : Shape}

theorem part (holds : validator.Holds shape) {part : Shape} (inner : part.Within shape) :
    validator.Holds part := by
  cases holds with
  | rule inside => exact .rule (inner.trans inside)
  | definition needed found inside => exact .definition needed found (inner.trans inside)

theorem needs {message : String} {id : MessageId} (holds : validator.Holds (.lazy message id)) :
    validator.rule.Needs validator.definitions id := by
  cases holds with
  | rule inside => exact .inside inside
  | definition needed found inside => exact .behind needed found inside

variable {catalog : Catalog} {options : Options} {root : catalog.Listed}

theorem image (holds : validator.Holds shape)
    (serves : validator.Serves catalog options root) : ∃ rule target,
      RecordImage catalog options (validator.definitions.map Prod.fst) rule target ∧
      shape.Within (.record rule) := by
  cases holds with
  | rule inside => exact ⟨_, root, serves.image, inside⟩
  | definition _ found inside =>
    obtain ⟨target, _, _, image⟩ := serves.sound.image _ _ (Definitions.mem_of_get? found)
    exact ⟨_, target, image, inside⟩

theorem record (serves : validator.Serves catalog options root) {rule : RecordRule}
    (holds : validator.Holds (.record rule)) : ∃ target,
      RecordImage catalog options (validator.definitions.map Prod.fst) rule target := by
  obtain ⟨_, _, image, inside⟩ := holds.image serves
  exact ((PartImage.rule image).within inside).of_record rfl

end Validator.Holds

namespace Validator

variable {validator twin : Validator}

theorem describe_equal_iff : validator.describe.equal twin.describe = true ↔
    validator.name = twin.name ∧ validator.rule.equal twin.rule = true ∧
      (Json.obj validator.recursive.entries).equal (.obj twin.recursive.entries) = true := by
  have keys : ["message", "rule", "recursive"].Nodup := by decide
  have names : (Json.str validator.name).equal (.str twin.name) = true ↔
      validator.name = twin.name := by simp [Json.equal]
  rw [describe, describe, Json.equal_obj_iff_get? keys (by simp) (by simp),
    ← RecordRule.equal_view, ← names]
  simp [Members.get?_cons_ne, Definitions.entries]

/-- Whatever a rule needs, the other one needs as well, and finds an equal definition. -/
theorem exists_twin_definition (grounded : validator.Grounded) (also : twin.Grounded)
    (equal : validator.describe.equal twin.describe = true) {id : MessageId}
    (needed : validator.rule.Needs validator.definitions id) : ∃ stored other,
      validator.definitions.get? id = some stored ∧ twin.definitions.get? id = some other ∧
      stored.equal other = true := by
  obtain ⟨_, _, entries⟩ := describe_equal_iff.mp equal
  obtain ⟨stored, found⟩ := needed.defined grounded.closed grounded.covered
  have alike := Json.alike_of_equal (Definitions.entries_distinct grounded.recursive_distinct)
    entries
  rcases alike.get?_cases (toString id) with ⟨absent, _⟩ | ⟨view, second, shown, present, same⟩
  · cases absent.symm.trans (grounded.get?_entries needed found)
  · cases shown.symm.trans (grounded.get?_entries needed found)
    -- The entry of the other description is that of the message with the same digits.
    obtain ⟨⟨source, other⟩, among, entry⟩ := List.mem_map.mp (Members.mem_of_get? present)
    obtain ⟨digits, rfl⟩ := Prod.mk.inj entry
    obtain rfl := toString_injective digits
    obtain ⟨_, there⟩ := (mem_recursive_iff also.distinct).mp among
    exact ⟨stored, other, found, there, (RecordRule.equal_view stored other).symm.trans same⟩

/-- Equal descriptions make the definitions of one validator do for those of the other. -/
theorem exchange_of_describe {catalog : Catalog} {options : Options} {root : catalog.Listed}
    (serves : validator.Serves catalog options root)
    (fields : ∀ entry ∈ catalog.entries, entry.message.FieldsDistinct)
    (empty : ∀ value ∈ options.empty, value.Distinct) (grounded : validator.Grounded)
    (also : twin.Grounded) (equal : validator.describe.equal twin.describe = true) :
    validator.definitions.Exchange twin.definitions validator.Holds where
  names rule holds := by
    obtain ⟨target, image⟩ := Holds.record serves holds
    exact image.names_nodup (fields _ target.2)
  field rule holds field listed := by
    obtain ⟨target, image⟩ := Holds.record serves holds
    obtain ⟨_, _, _, _, _, composed⟩ := image.of_rule listed
    exact ⟨Field.rule_distinct empty composed, holds.part (.field listed .whole)⟩
  element element holds := by
    obtain ⟨rule, target, image, inside⟩ := holds.image serves
    exact ⟨image.element_distinct inside, holds.part (.element .whole)⟩
  leads message id holds := by
    obtain ⟨stored, other, found, there, same⟩ :=
      exists_twin_definition grounded also equal holds.needs
    exact ⟨stored, other, found, there, same, .definition holds.needs found .whole⟩

end Validator

def Validator.describeWithin (validator : Validator) (turns : Nat) : Option Json :=
  (validator.definitions.walk turns validator.rule.lazyIds []).map fun reached =>
    .obj [("message", .str validator.name), ("rule", validator.rule.view),
      ("recursive", .obj (Definitions.sorted (validator.definitions.filter
        fun definition => reached.contains definition.1)).entries)]

theorem Validator.eq_describe_of_within {validator : Validator} {turns : Nat} {description : Json}
    (described : validator.describeWithin turns = some description) :
    description = validator.describe := by
  obtain ⟨reached, ended, rfl⟩ := Option.map_eq_some_iff.mp described
  rw [Definitions.reach_of_walk ended]
  rfl

namespace Schema

/-- Views of rules are equal as JSON just if the rules are, their defaults and empty values being
    compared as JSON.  Validators with equal descriptions, even of different schemas, refuse a
    payload for the same violations, or accept it with equal values. -/
theorem view_lossless :
    (∀ rule other : Rule, rule.view.equal other.view = true ↔ rule.equal other = true) ∧
    (∀ rule other : RecordRule, rule.view.equal other.view = true ↔ rule.equal other = true) ∧
    ∀ (schema other : Schema) (options others : Options) (registry second : Registry),
      schema.compile options = .ok registry → other.compile others = .ok second →
      (∀ value ∈ options.empty, value.Distinct) →
      ∀ validator ∈ registry.validators, ∀ twin ∈ second.validators,
        validator.describe.equal twin.describe = true →
        ∀ payload : Json, payload.Distinct →
          MatchingResults (fun value other => value.equal other = true)
            (validator.validate payload) (twin.validate payload) := by
  refine ⟨fun rule other => by rw [rule.equal_view], fun rule other => by rw [rule.equal_view],
    ?_⟩
  intro schema other options others registry second compiled also empty validator listed twin
    among equal payload distinct
  obtain ⟨root, _, serves⟩ := serves_of_mem compiled listed
  have fields := fieldsDistinct_of_checkNames (compile_eq_ok_iff.mp compiled).1
  have exchange := Validator.exchange_of_describe serves fields empty
    (grounded_of_mem compiled listed) (grounded_of_mem also among) equal
  exact checkPayload_alike exchange (.rule .whole) (Validator.describe_equal_iff.mp equal).2.1
    distinct

/-- Gauges that may hold another one, at level zero unless they say otherwise. -/
def gauges : Schema where
  messages := [
    { name := "Gauge"
      fields := [
        { name := "level", typeName := "double", default := some "0" },
        { name := "next", typeName := "Gauge" }] }]

/-- The same gauges beside another message, with the zero written as a negative one. -/
def signedGauges : Schema where
  messages := [
    { name := "Gauge"
      fields := [
        { name := "level", typeName := "double", default := some "-0" },
        { name := "next", typeName := "Gauge" }] },
    { name := "Unit" }]

theorem gauges_lossless :
    ∃ registry second, gauges.compile {} = .ok registry ∧ signedGauges.compile {} = .ok second ∧
      ∃ validator ∈ registry.validators, ∃ twin ∈ second.validators,
        validator.describe.equal twin.describe = true ∧
        MatchingResults (fun value other => value.equal other = true)
          (validator.validate (.obj [("next", .obj [])]))
          (twin.validate (.obj [("next", .obj [])])) := by
  have evaluated : (gauges.compile {}).toOption.bind (fun registry =>
      (signedGauges.compile {}).toOption.bind fun second =>
        (registry.get? "Gauge").bind fun validator => (second.get? "Gauge").bind fun twin =>
          (validator.describeWithin 8).bind fun description =>
            (twin.describeWithin 8).map fun other => description.equal other) =
      some true := by decide +kernel
  obtain ⟨registry, succeeded, evaluated⟩ := Option.bind_eq_some_iff.mp evaluated
  obtain ⟨second, also, evaluated⟩ := Option.bind_eq_some_iff.mp evaluated
  obtain ⟨validator, found, evaluated⟩ := Option.bind_eq_some_iff.mp evaluated
  obtain ⟨twin, present, evaluated⟩ := Option.bind_eq_some_iff.mp evaluated
  obtain ⟨description, described, evaluated⟩ := Option.bind_eq_some_iff.mp evaluated
  obtain ⟨other, shown, equal⟩ := Option.map_eq_some_iff.mp evaluated
  obtain rfl := Validator.eq_describe_of_within described
  obtain rfl := Validator.eq_describe_of_within shown
  have compiled := toOption_eq_some_iff.mp succeeded
  have compiledAlso := toOption_eq_some_iff.mp also
  have listed := List.mem_of_find?_eq_some found
  have among := List.mem_of_find?_eq_some present
  have distinct : (Json.obj [("next", .obj [])]).Distinct := by
    refine .obj (by decide) fun member inner => ?_
    obtain rfl := List.mem_singleton.mp inner
    exact .obj (by decide) (by simp)
  exact ⟨registry, second, compiled, compiledAlso, validator, listed, twin, among, equal,
    view_lossless.2.2 _ _ _ _ _ _ compiled compiledAlso (by simp) validator listed twin among
      equal _ distinct⟩

end Schema

end PayloadSchema
