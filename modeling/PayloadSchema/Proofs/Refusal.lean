import PayloadSchema.Proofs.Acceptance
import PayloadSchema.Proofs.Rule.Place

/-! # What a refusal points at

A violation names a place and a fault.  Followed in the payload, its path leads to a value
that is at fault in just this way; where a field is missing, the path without its last key
leads to the object that lacks it. -/

namespace PayloadSchema

/-- Whether an object stands at a place, and its members are asked for by a rule of a
    message. -/
structure ObjectAt (catalog : Catalog) (options : Options) (definitions : Definitions)
    (shape : Shape) (payload : Json) (path : Path) (members : Members) (rule : RecordRule)
    (target : catalog.Listed) : Prop where
  reached : payload.at? path = some (.obj members)
  asked : (shape.at? definitions path).bind (·.record? definitions) = some rule
  image : RecordImage catalog options (definitions.map Prod.fst) rule target

/-- Whether a violation points at what is wrong with a payload of a shape.  Nothing justifies
    the report that a rule is nowhere defined. -/
inductive Violation.Justified (catalog : Catalog) (options : Options) (definitions : Definitions)
    (shape : Shape) (payload : Json) : Violation → Prop where
  | mismatch {path : Path} {expected : String} {value : Json} {there : Shape}
      (reached : payload.at? path = some value)
      (asked : shape.at? definitions path = some there)
      (named : there.expected? = some expected)
      (unfit : ¬ Conforms definitions there value) :
      Justified catalog options definitions shape payload ⟨path, .mismatch expected value.kindName⟩
  | below {path : Path} {number : Number}
      (reached : payload.at? path = some (.num number))
      (asked : shape.at? definitions path = some (.integer true))
      (negative : number.isNegative = true) :
      Justified catalog options definitions shape payload ⟨path, .below 0⟩
  | unlisted {path : Path} {name value : String} {allowed : List String}
      (reached : payload.at? path = some (.str value))
      (asked : shape.at? definitions path = some (.enum name allowed))
      (foreign : value ∉ allowed) :
      Justified catalog options definitions shape payload ⟨path, .unlisted value allowed⟩
  | missing {path : Path} {members : Members} {rule : RecordRule} {target : catalog.Listed}
      {field : Field}
      (object : ObjectAt catalog options definitions shape payload path members rule target)
      (declared : field ∈ target.1.message.fields) (required : field.required = true)
      (absent : ∀ value, members.get? field.name = some value →
        ∃ empty ∈ options.empty, empty.equal value = true) :
      Justified catalog options definitions shape payload ⟨path.field field.name, .missing⟩
  | undeclared {path : Path} {members : Members} {rule : RecordRule} {target : catalog.Listed}
      {name : String} {value : Json}
      (object : ObjectAt catalog options definitions shape payload path members rule target)
      (present : members.get? name = some value)
      (foreign : name ∉ target.1.message.fields.map Field.name)
      (closed : options.allowUnknown = false) :
      Justified catalog options definitions shape payload ⟨path.field name, .undeclared⟩
  | noneOf {path : Path} {members : Members} {rule : RecordRule} {target : catalog.Listed}
      {group : Group}
      (object : ObjectAt catalog options definitions shape payload path members rule target)
      (declared : group ∈ target.1.message.groups)
      (none : ∀ member ∈ group.members, ¬ rule.Provides members member) :
      Justified catalog options definitions shape payload ⟨path, .noneOf group.name group.members⟩
  | severalOf {path : Path} {members : Members} {rule : RecordRule} {target : catalog.Listed}
      {group : Group} {first second : String}
      (object : ObjectAt catalog options definitions shape payload path members rule target)
      (declared : group ∈ target.1.message.groups)
      (pair : [first, second].Sublist group.members) (differ : first ≠ second)
      (provides : rule.Provides members first ∧ rule.Provides members second) :
      Justified catalog options definitions shape payload
        ⟨path, .severalOf group.name group.members⟩

section

variable {catalog : Catalog} {options : Options} {definitions : Definitions} {root : Shape}
  {payload : Json} {base : Path}

theorem Shape.fault?_justified {shape : Shape} {value : Json}
    (image : PartImage catalog options (definitions.map Prod.fst) shape)
    (reached : payload.at? base = some value) (asked : root.at? definitions base = some shape)
    {fault : Fault} (faulty : shape.fault? definitions value = some fault) :
    Violation.Justified catalog options definitions root payload ⟨base, fault⟩ := by
  rcases Shape.fault?_cases faulty with ⟨expected, named, rfl⟩ | ⟨number, rfl, rfl, negative, rfl⟩ |
    ⟨name, allowed, text, rfl, rfl, foreign, rfl⟩ | ⟨message, id, rfl, missing, rfl⟩
  · refine .mismatch reached asked named fun conforms => ?_
    rw [conforms.fault?] at faulty
    cases faulty
  · exact .below reached asked negative
  · exact .unlisted reached asked foreign
  · -- The messages that lazy shapes refer to are defined.
    obtain ⟨rule, defined⟩ := Definitions.get?_of_mem (image.of_lazy rfl).1
    rw [missing] at defined
    cases defined

theorem RecordRule.Accuses.justified {rule : RecordRule} {target : catalog.Listed}
    {members : Members}
    (object : ObjectAt catalog options definitions root payload base members rule target)
    (distinct : target.1.message.FieldsDistinct) {violation : Violation}
    (accused : rule.Accuses base members (rule.provided definitions base members) violation) :
    violation.Justified catalog options definitions root payload := by
  have groups := object.image.groups_nodup distinct
  have provides : ∀ member, (rule.provided definitions base members).contains member = true ↔
      rule.Provides members member := provided_iff rule base members
  cases accused with
  | @undeclared member listed closed =>
    rw [mem_undeclared_iff] at listed
    have present : members.get? member.1 ≠ none := by
      rw [Ne, Members.get?_eq_none_iff, not_not]
      exact List.mem_map_of_mem listed.1
    obtain ⟨value, present⟩ := Option.ne_none_iff_exists'.mp present
    refine .undeclared object present ?_ (object.image.allowUnknown ▸ closed)
    rw [← object.image.names.2]
    exact listed.2
  | @group group listed fault faulty =>
    have declared : group ∈ target.1.message.groups := object.image.groups ▸ listed
    rcases Group.fault?_eq_some faulty with ⟨rfl, none⟩ | ⟨rfl, first, second, pair, given⟩
    · refine .noneOf object declared fun member belongs provided => ?_
      have absent := none member belongs
      rw [(provides member).mpr provided] at absent
      cases absent
    · have differ : first ≠ second := by simpa using (groups group listed).sublist pair
      exact .severalOf object declared pair differ
        ⟨(provides first).mp given.1, (provides second).mp given.2⟩

/-- Every violation that is found inside a payload points at what is wrong there. -/
theorem check_justified (sound : definitions.Sound catalog options)
    (distinct : ∀ entry ∈ catalog.entries, entry.message.FieldsDistinct) {shape : Shape}
    {value : Json} (image : PartImage catalog options (definitions.map Prod.fst) shape)
    (reached : payload.at? base = some value) (asked : root.at? definitions base = some shape)
    {violation : Violation} (found : violation ∈ (check definitions shape base value).violations) :
    violation.Justified catalog options definitions root payload := by
  -- The induction is on the value that is reached, with the shape that is asked about it.
  induction value using Json.inside_induction generalizing shape base with
  | step value inductionHypothesis =>
    rcases check_violation found with ⟨fault, faulty, rfl⟩ |
      ⟨element, items, rfl, rfl, index, item, listed, inner⟩ |
      ⟨rule, members, meaning, rfl, own⟩
    · exact Shape.fault?_justified image reached asked faulty
    · -- No item counts as absent, so that it is the item itself that was checked.
      obtain ⟨scope, name, type, default, typed, rfl⟩ := image.of_array rfl
      have part := Json.Inside.item (List.mem_of_getElem? listed)
      refine inductionHypothesis item part (.type typed) ?_ (Shape.at?_index asked index) inner
      rw [Json.at?_index reached, listed]
    · obtain ⟨target, record⟩ := image.record? sound meaning
      have fields := distinct _ target.2
      have object : ObjectAt catalog options definitions root payload base members rule target :=
        ⟨reached, by rw [asked, Option.bind_some, meaning], record⟩
      rcases own with ⟨field, listed, inner⟩ | accused
      · obtain ⟨source, declared, named, type, typed, composed⟩ := record.of_rule listed
        rcases Rule.checkGiven_violation inner with ⟨rfl, required, absent⟩ |
          ⟨value, present, inner⟩
        · -- The place of a missing field is one step behind the object that lacks it.
          obtain ⟨default, _, same⟩ := Field.rule_eq_ok_iff.mp composed
          rw [Rule.given?_eq_none_iff, ← same, Field.ruleOf_empty, ← named] at absent
          rw [← same, Field.ruleOf_required] at required
          rw [← named]
          exact .missing object declared required absent
        · have part := Json.Inside.member (Members.mem_of_get? present)
          refine inductionHypothesis value part (.of_field typed composed) ?_
            (Shape.at?_field asked meaning (record.names_nodup fields) listed) inner
          rw [Json.at?_field reached, present]
      · exact accused.justified object fields

end

namespace Schema

variable {schema : Schema} {options : Options} {registry : Registry}

/-- Every violation that a validator of a compiled schema reports points at what is wrong with
    the payload. -/
theorem validate_violations_justified (compiled : schema.compile options = .ok registry)
    {validator : Validator} (listed : validator ∈ registry.validators) {payload : Json}
    {violations : List Violation} (refused : validator.validate payload = .error violations) :
    ∀ violation ∈ violations, violation.Justified (Catalog.ofSchema schema) options
      validator.definitions (.record validator.rule) payload := by
  intro violation found
  obtain ⟨root, _, serves⟩ := serves_of_mem compiled listed
  have distinct := fieldsDistinct_of_checkNames (compile_eq_ok_iff.mp compiled).1
  rw [← checkPayload_eq_error refused] at found
  exact check_justified serves.sound distinct (.rule serves.image) rfl rfl found

theorem ownerless_justified :
    ∃ registry, accounts.compile {} = .ok registry ∧ ∃ validator ∈ registry.validators,
      validator.validate ownerless = .error ownerlessFaults ∧
      ∀ violation ∈ ownerlessFaults, violation.Justified (Catalog.ofSchema accounts) {}
        validator.definitions (.record validator.rule) ownerless := by
  obtain ⟨registry, compiled⟩ := accounts_compile
  have evaluated : (accounts.compile {}).toOption.bind (fun registry =>
      (registry.get? "Account").map fun validator =>
        (validator.validate ownerless).map fun _ => ()) =
      some (.error ownerlessFaults) := by decide +kernel
  rw [compiled] at evaluated
  obtain ⟨validator, found, refused⟩ := Option.map_eq_some_iff.mp evaluated
  have listed := List.mem_of_find?_eq_some found
  have refused := map_eq_error_iff.mp refused
  exact ⟨registry, compiled, validator, listed, refused,
    validate_violations_justified compiled listed refused⟩

end Schema

end PayloadSchema
