import PayloadSchema.Proofs.Interpretation.Output
import PayloadSchema.Proofs.Json.Members

/-! # What comes out stays as it is

A value that comes out of a validation is accepted again and comes out unchanged.  The second
time the defaults are given by the object and the values that counted as absent are gone.
What was given still counts as given, unless an array or an object may count as absent: a
value that comes out is the one that was given, or an array or an object.  A default may count
as absent itself, and is then filled in a second time. -/

namespace PayloadSchema

def Json.isContainer : Json → Bool
  | .arr _ | .obj _ => true
  | _ => false

theorem Json.equal_container {empty value : Json} (plain : empty.isContainer = false)
    (container : value.isContainer = true) : empty.equal value = false := by
  cases empty <;> cases value <;> simp_all [Json.isContainer, Json.equal]

/-- Whether no array and no object counts as absent. -/
def Options.Plain (options : Options) : Prop := ∀ empty ∈ options.empty, empty.isContainer = false

instance (options : Options) : Decidable options.Plain :=
  inferInstanceAs (Decidable (∀ empty ∈ options.empty, empty.isContainer = false))

namespace Message

variable {message : Message} {options : Options} {own : Members}

theorem strangers_append_passed
    (declared : ∀ name ∈ own.map Prod.fst, name ∈ message.fields.map Field.name)
    (members : Members) :
    message.strangers (own ++ message.passed options members) =
      message.passed options members := by
  have none : message.strangers own = [] := by
    rw [strangers, List.filter_eq_nil_iff]
    intro member listed
    obtain ⟨field, found, named⟩ := List.mem_map.mp (declared _ (List.mem_map_of_mem listed))
    simpa using ⟨field, found, named⟩
  have all : message.strangers (message.passed options members) =
      message.passed options members := by
    rw [passed]
    split
    next => rw [strangers, strangers, List.filter_filter]; simp
    next => rfl
  rw [strangers, List.filter_append]
  exact (congrArg₂ (· ++ ·) none all).trans (List.nil_append _)

theorem passed_append_passed
    (declared : ∀ name ∈ own.map Prod.fst, name ∈ message.fields.map Field.name)
    (members : Members) :
    message.passed options (own ++ message.passed options members) =
      message.passed options members := by
  rw [passed, strangers_append_passed declared, passed]
  split <;> rfl

theorem get?_append_passed {field : Field} (listed : field ∈ message.fields) (members : Members) :
    (own ++ message.passed options members).get? field.name = own.get? field.name := by
  rw [Members.get?_append, Members.get?_eq_none_iff.mpr (passed_names listed), Option.or_none]

end Message

section

variable {catalog : Catalog} {options : Options} {scope : Entry}

/-- A value that comes out is the one that went in, or an array or an object. -/
theorem TypeOutput.same_or_container {name : String} {value output : Json}
    (comes : TypeOutput catalog options scope name value output) :
    output = value ∨ output.isContainer = true := by
  cases comes with
  | scalar | enum => exact .inl rfl
  | message _ _ inner =>
    cases inner with
    | object => exact .inr rfl

theorem Members.given?_of_container {members : Members} (plain : options.Plain) {name : String}
    {value : Json} (found : members.get? name = some value)
    (container : value.isContainer = true) : members.given? options name = some value := by
  rw [given?, found, Option.filter_some, if_pos]
  rw [Bool.not_eq_true', Options.countsAbsent, List.any_eq_false]
  intro empty listed
  rw [Json.equal_container (plain empty listed) container]
  exact Bool.false_ne_true

theorem TypeOutput.given? {members output : Members} (plain : options.Plain) {name key : String}
    {value single : Json} (comes : TypeOutput catalog options scope name value single)
    (given : members.given? options key = some value) (found : output.get? key = some single) :
    output.given? options key = some single := by
  cases comes.same_or_container with
  | inl same =>
    subst same
    rw [Members.given?, found, Option.filter_some, if_pos]
    exact (Option.filter_eq_some_iff.mp given).2
  | inr container => exact Members.given?_of_container plain found container

theorem settled_of_given {field : Field} {path : Path} {members : Members} {value single : Json}
    (given : members.given? options field.name = some value)
    (read : (if field.repeated then catalog.interpretList options scope field.typeName path value
      else catalog.interpret options scope field.typeName path value) = .ok single) :
    (catalog.interpretField options scope field path members).Settled (some single) := by
  rw [Catalog.interpretField_of_given given, read]
  exact ⟨rfl, rfl⟩

theorem settled_of_absent {field : Field} {path : Path} {members : Members}
    (absent : members.given? options field.name = none) (optional : field.required = false) :
    (catalog.interpretField options scope field path members).Settled
      (if field.repeated then none else catalog.default? scope field) := by
  have stands : field.absent (catalog.default? scope field) path =
      .ok (if field.repeated then none else catalog.default? scope field) := by
    rw [Field.absent, optional]
    cases field.repeated <;> rfl
  rw [Catalog.interpretField_of_absent absent, stands]
  refine ⟨rfl, ?_⟩
  cases (if field.repeated then none else catalog.default? scope field) <;> rfl

theorem settled_of_unnamed {field : Field} {path : Path} {members : Members}
    (unnamed : field.name ∉ members.map Prod.fst) (optional : field.required = false)
    (bare : field.repeated = false → field.default = none) :
    (catalog.interpretField options scope field path members).Settled none := by
  have absent : members.given? options field.name = none := by
    rw [Members.given?, Members.get?_eq_none_iff.mpr unnamed]
    rfl
  have nothing : (if field.repeated then none else catalog.default? scope field) = none := by
    cases repeated : field.repeated with
    | true => rfl
    | false => simp [Catalog.default?, bare repeated]
  exact nothing ▸ settled_of_absent absent optional

/-- A message that was read and whose fields are read as they stand comes out as it is. -/
theorem interpretMessage_self {target : Entry} (distinct : target.message.FieldsDistinct)
    {declared members : Members}
    (order : (declared.map Prod.fst).Sublist (target.message.fields.map Field.name))
    (alternatives : ∀ group ∈ target.message.groups, ∃! member, member ∈ group.members ∧
      member ∈ (declared ++ target.message.passed options members).map Prod.fst)
    (path : Path)
    (settled : ∀ field ∈ target.message.fields,
      (catalog.interpretField options target field (path.field field.name)
        (declared ++ target.message.passed options members)).Settled
        (Members.get? (declared ++ target.message.passed options members) field.name)) :
    catalog.interpretMessage options target path
        (.obj (declared ++ target.message.passed options members)) =
      .ok (.obj (declared ++ target.message.passed options members)) := by
  have names : ∀ name ∈ declared.map Prod.fst, name ∈ target.message.fields.map Field.name :=
    fun _ listed => order.subset listed
  have each : ∀ reading ∈ catalog.readings options target path
      (declared ++ target.message.passed options members), ∃ output, reading.Settled output :=
    List.forall_mem_map.mpr fun field listed => ⟨_, settled field listed⟩
  -- The keys that come first are again the fields that stand there, in their order.
  have own : (catalog.readings options target path
      (declared ++ target.message.passed options members)).filterMap Reading.member? =
      declared := by
    calc (catalog.readings options target path
          (declared ++ target.message.passed options members)).filterMap Reading.member?
        = target.message.fields.filterMap fun field =>
            (declared.get? field.name).map (field.name, ·) := by
          rw [Catalog.readings, List.filterMap_map]
          refine List.filterMap_congr fun field listed => ?_
          rw [Function.comp_apply, (settled field listed).member?, Catalog.interpretField_field,
            Message.get?_append_passed listed]
      _ = declared := by
          have kept := Members.filterMap_get? distinct order
          rwa [List.filterMap_map] at kept
  rw [Catalog.interpretMessage]
  refine (conclude_settled_iff distinct (Catalog.readings_field target) each).mpr ⟨?_, _, ?_,
    alternatives, rfl⟩
  · intro closed
    rw [Message.strangers_append_passed names, Message.passed, closed]
    rfl
  · rw [own, Message.passed_append_passed names]

mutual

theorem TypeOutput.fixed (plain : options.Plain)
    (distinct : ∀ entry ∈ catalog.entries, entry.message.FieldsDistinct) {scope : Entry}
    {name : String} {value output : Json} :
    TypeOutput catalog options scope name value output →
    ∀ path, catalog.interpret options scope name path output = .ok output
  | .scalar named typed, path => by
    have passes := typed.fault?
    rw [Scalar.fault?_shape] at passes
    exact Catalog.interpret_eq_ok_iff.mpr (.inl ⟨_, named, passes, rfl⟩)
  | .enum declared found listed, path => by
    rw [Catalog.interpret_eq_ok_iff]
    exact .inr ⟨declared, .inl ⟨_, found, by simp [EnumType.fault?, listed], rfl⟩⟩
  | .message declared found inner, path => by
    have again := inner.fixed plain distinct (Subtype.property _) path
    exact Catalog.interpret_eq_ok_iff.mpr (.inr ⟨declared, .inr ⟨_, found, again⟩⟩)

theorem MessageOutput.fixed (plain : options.Plain)
    (distinct : ∀ entry ∈ catalog.entries, entry.message.FieldsDistinct) {target : Entry}
    {value output : Json} :
    MessageOutput catalog options target value output → target ∈ catalog.entries →
    ∀ path, catalog.interpretMessage options target path output = .ok output
  | .object order required defaulted alternatives values, listed, path => by
    have inner := fun field stands value found =>
      (values field stands value (Members.mem_of_get? found)).fixed plain distinct found
    obtain ⟨declared, rfl, order⟩ := order
    refine interpretMessage_self (distinct _ listed) order alternatives path ?_
    intro field stands
    cases found : Members.get? _ field.name with
    | some value => exact inner field stands value found _
    | none =>
      have unnamed := Members.get?_eq_none_iff.mp found
      -- Nothing stands for the field, so it neither is required nor has a default.
      have optional : field.required = false :=
        Bool.eq_false_iff.mpr fun needed => unnamed (required field stands needed)
      refine settled_of_unnamed unnamed optional fun once => ?_
      rw [← Option.not_isSome_iff_eq_none]
      exact fun stated => unnamed (defaulted field stands optional once stated)

theorem FieldOutput.fixed (plain : options.Plain)
    (distinct : ∀ entry ∈ catalog.entries, entry.message.FieldsDistinct) {scope : Entry}
    {field : Field} {members output : Members} {value : Json} :
    FieldOutput catalog options scope field members value →
    output.get? field.name = some value → ∀ path,
    (catalog.interpretField options scope field path output).Settled (some value)
  | .single given once inner, found, path => by
    refine settled_of_given (inner.given? plain given found) ?_
    rw [once]
    exact inner.fixed plain distinct path
  | .list given many inner, found, path => by
    refine settled_of_given (Members.given?_of_container plain found rfl) ?_
    rw [many, if_pos rfl, Catalog.interpretList,
      Catalog.interpretItems_self (inner.fixed plain distinct)]
    rfl
  | .default absent optional once stated typed, found, path => by
    cases given : output.given? options field.name with
    | none =>
      have again : (if field.repeated then none else catalog.default? scope field) =
          some value := by
        rw [once, if_neg Bool.false_ne_true, stated]
      exact again ▸ settled_of_absent given optional
    | some other =>
      cases (Option.filter_eq_some_iff.mp given).1.symm.trans found
      refine settled_of_given given ?_
      rw [once]
      exact Catalog.interpret_default stated options path

theorem ItemOutputs.fixed (plain : options.Plain)
    (distinct : ∀ entry ∈ catalog.entries, entry.message.FieldsDistinct) {scope : Entry}
    {name : String} {items outputs : List Json} :
    ItemOutputs catalog options scope name items outputs →
    ∀ output ∈ outputs, ∀ path, catalog.interpret options scope name path output = .ok output
  | .nil, output, listed, path => by cases listed
  | .cons first rest, output, listed, path => by
    cases List.mem_cons.mp listed with
    | inl same => exact same ▸ first.fixed plain distinct path
    | inr later => exact rest.fixed plain distinct output later path

end

end

namespace Schema

/-- Where no array and no object counts as absent, a value that a registry gives is given once
    more, as it is, if it is validated again. -/
theorem validate_idempotent {schema : Schema} {options : Options} {registry : Registry}
    (compiled : schema.compile options = .ok registry) (plain : options.Plain) {name : String}
    {payload value : Json} (accepted : registry.validate name payload = .ok value) :
    registry.validate name value = .ok value := by
  rw [validate_eq_ok_iff compiled] at accepted ⊢
  obtain ⟨root, top, named, accepted⟩ := accepted
  have distinct := fieldsDistinct_of_checkNames (compile_eq_ok_iff.mp compiled).1
  have comes := messageOutput_of_root compiled top accepted
  exact ⟨root, top, named, comes.fixed plain distinct root.2 []⟩

theorem draft_validated_again :
    ∃ registry, outline.compile lenient = .ok registry ∧ lenient.Plain ∧
      registry.validate "Section" draft = .ok finished ∧
      registry.validate "Section" finished = .ok finished := by
  obtain ⟨registry, compiled, validator, lookup, accepted⟩ := draft_accepted
  have plain : lenient.Plain := by decide
  have first : registry.validate "Section" draft = .ok finished := by
    simp only [Registry.validate, lookup, accepted]
  exact ⟨registry, compiled, plain, first, validate_idempotent compiled plain first⟩

end Schema

end PayloadSchema
