import PayloadSchema.Proofs.Compile.Nesting
import PayloadSchema.Proofs.Rule.Check
import PayloadSchema.Proofs.Rule.Place
import PayloadSchema.Proofs.Schema.Group

/-! # Rules are faithful to their messages

Every rule that stands somewhere in a compiled registry renders a message: its fields in
declared order with the modifiers of each, and its groups.  Whatever a check of rules relies
on without asking follows from this, such as that an item of an array without violations has
a value. -/

namespace PayloadSchema

structure Rule.Modified (options : Options) (field : Field) (rule : Rule) : Prop where
  required : rule.required = field.required
  empty : rule.empty = options.empty
  /-- A field that is not repeated is no array. -/
  single : field.repeated = false → ∀ element, rule.shape ≠ .array element
  /-- A repeated field is an array of items that are no arrays and have no modifiers but a
      default. -/
  repeated : field.repeated = true → rule.default = none ∧ ∃ element, rule.shape = .array element ∧
    (∀ inner, element.shape ≠ .array inner) ∧ element.required = false ∧ element.empty = []
  /-- Neither the field nor its items have a default where they stand for a message. -/
  bare : ∀ part, (part = rule ∨ rule.shape = .array part) → part.shape.isReference = true →
    part.default = none

/-- Whether a rule renders a message. -/
structure RecordRule.Renders (options : Options) (message : Message) (rule : RecordRule) :
    Prop where
  named : rule.message = message.name
  ordered : rule.fields.map Prod.fst = message.fields.map Field.name
  distinct : (rule.fields.map Prod.fst).Nodup
  groupsDistinct : (rule.groups.map Group.name).Nodup
  groupsFilled : ∀ group ∈ rule.groups, group.members ≠ []
  /-- The members of a group are fields, and belong to no other group. -/
  members : ∀ group ∈ rule.groups, ∀ member ∈ group.members,
    member ∈ rule.fields.map Prod.fst ∧
      ∀ other ∈ rule.groups, member ∈ other.members → other = group
  allowUnknown : rule.allowUnknown = options.allowUnknown
  modified : List.Forall₂ (fun field pair => pair.2.Modified options field)
    message.fields rule.fields

section

variable {catalog : Catalog} {options : Options}

theorem fieldType_forbidden {reference : Reference catalog} {scope : Entry} {field : Field}
    {before after : Progress} {type : FieldType}
    (typed : fieldType catalog reference scope field before = .ok (type, after))
    (refers : type.shape.isReference = true) : type.defaultForm = .forbidden := by
  rcases fieldType_eq_ok typed with ⟨scalar, _, rfl, _⟩ | ⟨_, ⟨_, _, rfl, _⟩ | ⟨_, _, _, _, rfl⟩⟩
  · rw [scalar.shape_isReference] at refers
    cases refers
  · cases refers
  · rfl

theorem Field.default_of_forbidden {field : Field} {message : String} {default : Option Json}
    (given : field.defaultValue message .forbidden = .ok default) : default = none := by
  rw [(defaultValue_eq_ok_iff.mp given).1]
  cases field.default <;> rfl

theorem Field.rule_modified {field : Field} {message : String} {type : FieldType} {rule : Rule}
    (composed : field.rule message type options = .ok rule)
    (plain : ∀ element, type.shape ≠ .array element)
    (forbidden : type.shape.isReference = true → type.defaultForm = .forbidden) :
    rule.Modified options field := by
  obtain ⟨default, given, rfl⟩ := rule_eq_ok_iff.mp composed
  have bare : type.shape.isReference = true → default = none := fun refers =>
    default_of_forbidden (forbidden refers ▸ given)
  refine {
    required := ruleOf_required ..
    empty := ruleOf_empty ..
    single := fun once => ?_
    repeated := fun again => ?_
    bare := fun part own refers => ?_ }
  · rw [ruleOf_shape, once]
    exact plain
  · rw [ruleOf_shape, ruleOf_default, again]
    exact ⟨rfl, _, rfl, plain, rfl, rfl⟩
  · cases repeated : field.repeated with
    | false =>
      rw [ruleOf_shape, repeated] at own
      rcases own with rfl | inner
      · rw [ruleOf_shape, repeated] at refers
        rw [ruleOf_default, repeated]
        exact bare refers
      · exact absurd inner (plain part)
    | true =>
      -- The default went to the items, before they became those of an array.
      rw [ruleOf_shape, repeated] at own
      rcases own with rfl | inner
      · rw [ruleOf_default, repeated]
        rfl
      · cases inner
        exact bare refers

theorem CompiledInside.renders {active : List MessageId} {target : catalog.Listed}
    {rule : RecordRule} (inside : CompiledInside catalog options active target rule)
    (distinct : (target.1.message.fields.map Field.name).Nodup) :
    rule.Renders options target.1.message := by
  have fields := inside.fields
  have ordered : rule.fields.map Prod.fst = target.1.message.fields.map Field.name :=
    (forall₂_map_eq (fun _ _ ⟨_, _, _, _, _, named⟩ => named.symm) fields).symm
  obtain ⟨_, _, _, compiled⟩ := inside
  obtain ⟨rules, _, _, rfl, _⟩ := compileMessage_eq_ok compiled
  refine {
    named := rfl
    ordered
    distinct := ordered ▸ distinct
    groupsDistinct := Message.groups_names_nodup _
    groupsFilled := fun _ listed => Message.members_ne_nil listed
    members := fun group listed member belongs => ⟨?_, fun other among shared => ?_⟩
    allowUnknown := rfl
    modified := fields.imp ?_ }
  · rw [ordered, List.mem_map]
    exact Message.exists_field_of_member listed belongs
  · exact Message.group_eq_of_member distinct among listed shared belongs
  · rintro field pair ⟨_, type, _, typed, composed, _⟩
    exact Field.rule_modified composed (fieldType_inside typed).1 (fieldType_forbidden typed)

/-- Among the items of the arrays that a rule holds, nothing counts as absent. -/
theorem RecordRule.Renders.empty_of_holds {rule : RecordRule} {message : Message}
    (renders : rule.Renders options message) {element : Rule}
    (holds : rule.Holds (.array element)) : element.empty = [] := by
  obtain ⟨pair, listed, underlies⟩ := holds
  obtain ⟨field, _, modified⟩ := forall₂_left_of_mem renders.modified listed
  cases repeated : field.repeated with
  | false =>
    have single := modified.single repeated
    exact absurd (underlies.eq_of_single single).symm (single element)
  | true =>
    obtain ⟨_, items, whole, single, _, empty⟩ := modified.repeated repeated
    rw [whole] at underlies
    cases underlies with
    | itself => exact empty
    | items inner => exact absurd (inner.eq_of_single single).symm (single element)

end

section

variable {definitions : Definitions} {element : Rule}

/-- What a check of an array makes of one of its items. -/
def Rule.checkItem (definitions : Definitions) (element : Rule) (place : Path) (item : Json) :
    Outcome :=
  element.checkGiven definitions place (element.given? (some item))

theorem Rule.checkItem_of_empty (empty : element.empty = []) (place : Path) (item : Json) :
    element.checkItem definitions place item = check definitions element.shape place item := by
  rw [checkItem, given?_some, isEmpty, empty]
  rfl

theorem Rule.checkItem_value_isSome (empty : element.empty = []) {place : Path} {item : Json}
    (clean : (element.checkItem definitions place item).violations = []) :
    (element.checkItem definitions place item).value.isSome := by
  rw [checkItem_of_empty empty] at clean ⊢
  exact (check_value_isSome_iff ..).mpr clean

/-- The values of an array are then those that its items gave. -/
theorem checkItems_values (empty : element.empty = []) {path : Path} {position : Nat}
    {items values : List Json}
    (passed : checkItems definitions element path position items = .ok values) :
    List.Forall₂ (fun item value =>
      (element.checkItem definitions (path.index item.2) item.1).value = some value)
      (items.zipIdx position) values := by
  induction items generalizing position values with
  | nil =>
    cases passed
    exact .nil
  | cons item rest inductionHypothesis =>
    rw [checkItems_cons, ← Rule.checkItem] at passed
    split at passed
    next value checked =>
      obtain ⟨others, later, rfl⟩ := map_eq_ok_iff.mp passed
      have present : (element.checkItem definitions (path.index position) item).value.isSome :=
        Rule.checkItem_value_isSome empty (by rw [checked])
      rw [checked] at present
      -- The item gave a value, so that nothing is put in its place.
      obtain ⟨own, rfl⟩ := Option.isSome_iff_exists.mp present
      refine .cons ?_ (inductionHypothesis later)
      rw [checked]
      rfl
    next => cases passed

end

namespace Schema

variable {schema : Schema} {options : Options} {registry : Registry}

theorem renders_of_within (compiled : schema.compile options = .ok registry)
    {validator : Validator} (listed : validator ∈ registry.validators) {rule : RecordRule}
    (origin : rule = validator.rule ∨ ∃ id, (id, rule) ∈ validator.definitions)
    {inner : RecordRule} (inside : (Shape.record inner).Within (.record rule)) :
    ∃ target : (Catalog.ofSchema schema).Listed,
      Compiled (Catalog.ofSchema schema) options target inner ∧
      inner.Renders options target.1.message := by
  obtain ⟨names, _⟩ := compile_eq_ok_iff.mp compiled
  obtain ⟨active, source, outermost⟩ := exists_compiledInside compiled listed origin
  obtain ⟨rules, route⟩ := RecordRule.exists_route_of_within inside
  obtain ⟨_, target, outer, _, _, compiledInside⟩ := outermost.thread route
  have distinct := fieldsDistinct_of_checkNames names target.1 target.2
  exact ⟨target, compiledInside.compiled, compiledInside.renders distinct⟩

theorem empty_of_within (compiled : schema.compile options = .ok registry)
    {validator : Validator} (listed : validator ∈ registry.validators) {rule : RecordRule}
    (origin : rule = validator.rule ∨ ∃ id, (id, rule) ∈ validator.definitions)
    {element : Rule} (inside : (Shape.array element).Within (.record rule)) :
    element.empty = [] := by
  rcases RecordRule.within_iff_route.mp inside with same | ⟨rules, innermost, route, holds⟩
  · cases same
  · obtain ⟨target, _, renders⟩ := renders_of_within compiled listed origin route.within
    exact renders.empty_of_holds holds

/-- Every rule inside the rule of a validator or inside a definition renders the message that it
    was compiled from.  Wherever an array is checked in a payload, an item without violations
    therefore has a value, and the values of the array are those of its items. -/
theorem compile_faithful (compiled : schema.compile options = .ok registry)
    {validator : Validator} (listed : validator ∈ registry.validators) :
    (∀ rule, (rule = validator.rule ∨ ∃ id, (id, rule) ∈ validator.definitions) →
      ∀ inner, (Shape.record inner).Within (.record rule) →
        ∃ target : (Catalog.ofSchema schema).Listed,
          Compiled (Catalog.ofSchema schema) options target inner ∧
          inner.Renders options target.1.message) ∧
    ∀ (payload : Json) path items element, payload.at? path = some (.arr items) →
      (Shape.record validator.rule).at? validator.definitions path = some (.array element) →
      (∀ item ∈ items.zipIdx,
        (element.checkItem validator.definitions (path.index item.2) item.1).violations = [] →
        (element.checkItem validator.definitions (path.index item.2) item.1).value.isSome) ∧
      ∀ values, checkItems validator.definitions element path 0 items = .ok values →
        List.Forall₂ (fun item value =>
          (element.checkItem validator.definitions (path.index item.2) item.1).value = some value)
          items.zipIdx values := by
  constructor
  · exact fun rule origin inner inside => renders_of_within compiled listed origin inside
  · intro payload path items element _ asked
    have empty : element.empty = [] := by
      rcases Shape.within_of_at? asked with inside | ⟨id, stored, found, inside⟩
      · exact empty_of_within compiled listed (.inl rfl) inside
      · exact empty_of_within compiled listed (.inr ⟨id, Definitions.mem_of_get? found⟩) inside
    exact ⟨fun _ _ clean => Rule.checkItem_value_isSome empty clean,
      fun _ passed => checkItems_values empty passed⟩

def wealthy : Json :=
  .obj [("accounts", .arr [.obj [("local", .num (.int 7)), ("owner", .obj [])],
    .obj [("local", .num (.int 8))]])]

/-- The rule of a person renders a message, and of the accounts of a person each that is without
    violations has a value. -/
theorem person_faithful :
    ∃ registry, accounts.compile {} = .ok registry ∧
      ∃ validator ∈ registry.validators, validator.name = "Person" ∧
        (∃ target : (Catalog.ofSchema accounts).Listed,
          validator.rule.Renders {} target.1.message) ∧
        ∃ element items,
          (Shape.record validator.rule).at? validator.definitions [.field "accounts"] =
            some (.array element) ∧
          wealthy.at? [.field "accounts"] = some (.arr items) ∧ items.length = 2 ∧
          ∀ item ∈ items.zipIdx,
            (element.checkItem validator.definitions
              (Path.index [.field "accounts"] item.2) item.1).violations = [] →
            (element.checkItem validator.definitions
              (Path.index [.field "accounts"] item.2) item.1).value.isSome := by
  have evaluated : (accounts.compile {}).toOption.bind (fun registry =>
      (registry.get? "Person").bind fun validator =>
        ((Shape.record validator.rule).at? validator.definitions [.field "accounts"]).bind fun shape =>
          (shape.part? validator.definitions (.index 0)).map (·.lazyIds)) = some [1] := by
    decide +kernel
  obtain ⟨registry, succeeded, served⟩ := Option.bind_eq_some_iff.mp evaluated
  obtain ⟨validator, found, asked⟩ := Option.bind_eq_some_iff.mp served
  have compiled := toOption_eq_some_iff.mp succeeded
  have listed := List.mem_of_find?_eq_some found
  have named : validator.name = "Person" := by simpa using List.find?_some found
  obtain ⟨faithful, items⟩ := compile_faithful compiled listed
  obtain ⟨target, _, renders⟩ := faithful _ (.inl rfl) _ .whole
  obtain ⟨shape, judged, inside⟩ := Option.bind_eq_some_iff.mp asked
  obtain ⟨element, part, _⟩ := Option.map_eq_some_iff.mp inside
  obtain rfl := Shape.eq_array_of_part? part
  have reached : wealthy.at? [.field "accounts"] = some (.arr _) := rfl
  exact ⟨registry, compiled, validator, listed, named, ⟨target, renders⟩, element, _, judged,
    reached, rfl, (items wealthy _ _ element reached judged).1⟩

end Schema

end PayloadSchema
