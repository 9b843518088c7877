import PayloadSchema.Proofs.Interpretation.Agreement
import PayloadSchema.Proofs.Interpretation.Default
import PayloadSchema.Proofs.Json.Alike
import PayloadSchema.Proofs.Reordering

/-! # Equal payloads

Payloads that are equal as JSON are read alike: both are accepted, and what comes out is equal
again, or both are refused, for the same violations.  The declared fields are visited in their
own order, and only unknown keys are named in the order of the payload. -/

namespace PayloadSchema

/-- Results that hold equal values, or the same violations up to the order of unknown keys. -/
abbrev EqualResults : Except (List Violation) Json → Except (List Violation) Json → Prop :=
  AlikeResults Violation.Reordered fun value other => value.equal other = true

theorem Json.isByte_of_equal {value other : Json} (equal : value.equal other = true) :
    value.isByte = other.isByte := by
  rcases equal_cases equal with rfl | ⟨_, _, rfl, rfl, same⟩ | ⟨_, _, rfl, rfl, _⟩ |
    ⟨_, _, rfl, rfl, _⟩
  · rfl
  · -- A number that is not an integer is no byte.
    rcases Number.equal_cases same with rfl | ⟨_, _, rfl, rfl, _⟩ <;> rfl
  · rfl
  · rfl

theorem Json.all_isByte_of_equal {items others : List Json}
    (each : List.Forall₂ (fun item other => item.equal other = true) items others) :
    items.all Json.isByte = others.all Json.isByte := by
  induction each with
  | nil => rfl
  | cons same _ inductionHypothesis =>
    rw [List.all_cons, List.all_cons, Json.isByte_of_equal same, inductionHypothesis]

theorem Scalar.fault?_of_equal (scalar : Scalar) {value other : Json}
    (equal : value.equal other = true) : scalar.fault? value = scalar.fault? other := by
  rcases Json.equal_cases equal with rfl | ⟨_, _, rfl, rfl, same⟩ | ⟨_, _, rfl, rfl, each⟩ |
    ⟨_, _, rfl, rfl, _⟩
  · rfl
  · have integral := Number.isIntegral_of_equal same
    have negative := Number.isNegative_of_equal same
    cases scalar <;> simp [fault?, expect, Json.kindName, integral, negative]
  · have bytes := Json.all_isByte_of_equal each
    cases scalar <;> simp [fault?, expect, Json.kindName, bytes]
  · cases scalar <;> rfl

theorem EnumType.fault?_of_equal (enum : EnumType) {value other : Json}
    (equal : value.equal other = true) : enum.fault? value = enum.fault? other := by
  rcases Json.equal_cases equal with rfl | ⟨_, _, rfl, rfl, _⟩ | ⟨_, _, rfl, rfl, _⟩ |
    ⟨_, _, rfl, rfl, _⟩ <;> rfl

theorem accuse_alike {value other : Json} (equal : value.equal other = true)
    {fault another : Option Fault} (same : fault = another) (path : Path) :
    EqualResults (accuse path value fault) (accuse path other another) := by
  subst same
  cases fault with
  | none => exact .ok equal
  | some fault => exact .error (.refl _)

theorem Members.Alike.given?_cases {members others : Members} (alike : members.Alike others)
    (distinct : (Json.obj members).Distinct) (options : Options) (name : String) :
    (members.given? options name = none ∧ others.given? options name = none) ∨
      ∃ value other, members.given? options name = some value ∧
        others.given? options name = some other ∧ (name, value) ∈ members ∧
        value.equal other = true := by
  rcases alike.get?_cases name with ⟨absent, missing⟩ | ⟨value, other, found, present, same⟩
  · exact .inl (by simp [given?, absent, missing])
  · -- A value counts as absent exactly if the other one does.
    have listed := Members.mem_of_get? found
    have empty : options.countsAbsent value = options.countsAbsent other := by
      simp only [Options.countsAbsent, (distinct.member _ listed).equal_congr same]
    cases counts : options.countsAbsent other with
    | true => exact .inl (by simp [given?, Option.filter, found, present, empty, counts])
    | false =>
      refine .inr ⟨value, other, ?_, ?_, listed, same⟩
      · simp [given?, Option.filter, found, empty, counts]
      · simp [given?, Option.filter, present, counts]

structure Reading.Alike (reading other : Reading) : Prop where
  field : reading.field = other.field
  given : reading.given = other.given
  result : AlikeResults Violation.Reordered (Option.Rel fun value other => value.equal other = true)
    reading.result other.result

namespace Reading.Alike

variable {reading other : Reading}

theorem provided (alike : reading.Alike other) : reading.provided = other.provided := by
  obtain ⟨field, given, result⟩ := reading
  obtain ⟨_, _, result'⟩ := other
  obtain ⟨_, sameGiven, same⟩ := alike
  simp only at sameGiven same
  subst sameGiven
  cases same with
  | error => rfl
  | ok values => cases values <;> rfl

theorem violations (alike : reading.Alike other) :
    Violation.Reordered reading.violations other.violations := by
  have same := alike.result
  rw [Reading.violations, Reading.violations]
  generalize reading.result = result at same
  generalize other.result = result' at same
  cases same with
  | ok => exact .refl []
  | error same => exact same

theorem member? (alike : reading.Alike other) :
    Option.Rel (fun member other => member.1 = other.1 ∧ member.2.equal other.2 = true)
      reading.member? other.member? := by
  have same := alike.result
  rw [Reading.member?, Reading.member?, alike.field]
  generalize reading.result = result at same
  generalize other.result = result' at same
  cases same with
  | error => exact .none
  | ok values =>
    cases values with
    | none => exact .none
    | some equal => exact .some ⟨rfl, equal⟩

end Reading.Alike

theorem Field.absent_alike {field : Field} {default : Option Json}
    (distinct : ∀ value, default = some value → value.Distinct) (path : Path) :
    AlikeResults Violation.Reordered (Option.Rel fun value other => value.equal other = true)
      (field.absent default path) (field.absent default path) := by
  rw [absent]
  split
  next => exact .error (.refl _)
  next =>
    split
    next => exact .ok .none
    next =>
      cases stated : default with
      | none => exact .ok .none
      | some value => exact .ok (.some (distinct value stated).equal_self)

/-! ## Objects -/

namespace Message

variable {message : Message}

theorem strangers_alike (message : Message) {members others : Members}
    (alike : members.Alike others) :
    (message.strangers members).Alike (message.strangers others) :=
  alike.filter fun key => !message.fields.any fun field => field.name = key

theorem faults_reordered (message : Message) {members others : Members}
    (alike : members.Alike others) {readings second : List Reading}
    (same : List.Forall₂ Reading.Alike readings second) (options : Options) (path : Path) :
    Violation.Reordered (message.faults options path members readings)
      (message.faults options path others second) := by
  have own : Violation.Reordered (readings.flatMap Reading.violations)
      (second.flatMap Reading.violations) := by
    induction same with
    | nil => exact .refl []
    | cons first _ inductionHypothesis => exact first.violations.append inductionHypothesis
  -- The fields and the alternatives follow the message, and only unknown keys the payload.
  have unknown := Violation.Reordered.undeclared (message.strangers_alike alike).keys path
  rw [faults, faults, alternativesFault?_congr (same.imp
    fun _ _ alike => ⟨alike.field, alike.provided⟩)]
  refine (own.append ?_).append (.refl _)
  cases options.allowUnknown with
  | true => exact .refl []
  | false => simpa [Function.comp_def] using unknown

/-- No key comes out twice: those of fields are distinct, and others are no fields. -/
theorem output_keys_nodup (fields : message.FieldsDistinct) {members : Members}
    (distinct : (members.map Prod.fst).Nodup) {readings : List Reading}
    (complete : readings.map Reading.field = message.fields) (options : Options) :
    ((readings.filterMap Reading.member? ++ message.passed options members).map
      Prod.fst).Nodup := by
  have order := Reading.members_sublist readings
  rw [complete] at order
  rw [List.map_append, List.nodup_append]
  refine ⟨fields.sublist order, ?_, ?_⟩
  · rw [passed]
    split
    next => exact distinct.sublist (List.filter_sublist.map Prod.fst)
    next => simp
  · rintro name own _ listed rfl
    obtain ⟨field, declared, rfl⟩ := List.mem_map.mp (order.subset own)
    exact passed_names declared listed

theorem conclude_alike (fields : message.FieldsDistinct) {members others : Members}
    (distinct : (members.map Prod.fst).Nodup) (alike : members.Alike others)
    {readings second : List Reading} (complete : readings.map Reading.field = message.fields)
    (same : List.Forall₂ Reading.Alike readings second) (options : Options) (path : Path) :
    EqualResults (message.conclude options path members readings)
      (message.conclude options path others second) := by
  have faults := message.faults_reordered alike same options path
  rw [conclude_of_faults, conclude_of_faults]
  by_cases clean : message.faults options path members readings = []
  · rw [if_pos clean, if_pos (faults.eq_nil_iff.mp clean)]
    refine .ok (Json.equal_of_alike ?_ ?_)
    · exact output_keys_nodup fields distinct complete options
    · -- The fields come out pair by pair; the keys that are let through may change places.
      have own := Members.Alike.of_pairs (List.rel_filterMap (fun _ _ alike => alike.member?) same)
      apply own.append
      rw [passed, passed]
      cases options.allowUnknown with
      | true => exact message.strangers_alike alike
      | false => exact .of_pairs .nil
  · rw [if_neg clean, if_neg fun other => clean (faults.eq_nil_iff.mpr other)]
    exact .error faults

end Message

namespace Catalog

variable {catalog : Catalog} {options : Options}

/-- Whether two values are read alike, as values of a type and as lists of such values. -/
structure ReadsEqual (catalog : Catalog) (options : Options) (value other : Json) : Prop where
  single : ∀ scope name path, EqualResults (catalog.interpret options scope name path value)
    (catalog.interpret options scope name path other)
  list : ∀ scope name path, EqualResults (catalog.interpretList options scope name path value)
    (catalog.interpretList options scope name path other)

theorem interpretField_alike {scope : Entry} {field : Field} {path : Path}
    {members others : Members} (distinct : (Json.obj members).Distinct)
    (alike : members.Alike others)
    (inside : ∀ member ∈ members, ∀ other, member.2.equal other = true →
      catalog.ReadsEqual options member.2 other) :
    (catalog.interpretField options scope field path members).Alike
      (catalog.interpretField options scope field path others) := by
  rcases alike.given?_cases distinct options field.name with ⟨absent, missing⟩ |
    ⟨value, other, given, also, listed, same⟩
  · rw [interpretField_of_absent absent, interpretField_of_absent missing]
    exact ⟨rfl, rfl, Field.absent_alike (fun _ stated => default?_distinct stated) path⟩
  · have reads := inside _ listed other same
    rw [interpretField_of_given given, interpretField_of_given also]
    refine ⟨rfl, rfl, AlikeResults.map ?_ fun _ _ equal => .some equal⟩
    cases field.repeated with
    | false => exact reads.single scope field.typeName path
    | true => exact reads.list scope field.typeName path

theorem interpretMessage_alike_of_inside {target : Entry}
    (fields : target.message.FieldsDistinct) {value other : Json} (distinct : value.Distinct)
    (equal : value.equal other = true)
    (inside : ∀ part, part.Inside value → ∀ other, part.equal other = true →
      catalog.ReadsEqual options part other) (path : Path) :
    EqualResults (catalog.interpretMessage options target path value)
      (catalog.interpretMessage options target path other) := by
  cases value with
  | obj members =>
    cases other with
    | obj others =>
      have alike := Json.members_alike distinct equal
      rw [interpretMessage, interpretMessage, ← readings, ← readings]
      apply Message.conclude_alike fields distinct.keys_nodup alike (readings_field target)
      rw [readings, readings, List.forall₂_map_left_iff, List.forall₂_map_right_iff]
      refine List.forall₂_same.mpr fun field _ => interpretField_alike distinct alike ?_
      exact fun member listed => inside member.2 (.member listed)
    | _ => cases equal
  | _ =>
    have kind := Json.kindName_of_equal equal
    have object : ∀ others, other ≠ .obj others := by
      rintro others rfl
      cases equal
    rw [interpretMessage_not_object (by simp), interpretMessage_not_object object, kind]
    exact .error (.refl _)

theorem interpretItems_alike {scope : Entry} {name : String} {path : Path} {position : Nat}
    {items others : List Json}
    (pairs : List.Forall₂ (fun item other => item.equal other = true) items others)
    (inside : ∀ item ∈ items, ∀ other, item.equal other = true →
      catalog.ReadsEqual options item other) :
    AlikeResults Violation.Reordered (List.Forall₂ fun value other => value.equal other = true)
      (catalog.interpretItems options scope name path position items)
      (catalog.interpretItems options scope name path position others) := by
  induction pairs generalizing position with
  | nil =>
    rw [interpretItems]
    exact .ok .nil
  | cons same _ inductionHypothesis =>
    obtain ⟨first, rest⟩ := List.forall_mem_cons.mp inside
    rw [interpretItems, interpretItems]
    apply ((first _ same).single scope name (path.index position)).bind
    intro value other _ equal
    apply (inductionHypothesis rest).bind
    intro values others _ further
    exact .ok (.cons equal further)

/-- Equal values are read alike.  The induction is on the first of them, whose keys are
    distinct. -/
theorem readsEqual (fields : ∀ entry ∈ catalog.entries, entry.message.FieldsDistinct)
    (options : Options) {value other : Json} (distinct : value.Distinct)
    (equal : value.equal other = true) : catalog.ReadsEqual options value other := by
  induction value using Json.inside_induction generalizing other with
  | step value inductionHypothesis =>
    have inside : ∀ part, part.Inside value → ∀ other, part.equal other = true →
        catalog.ReadsEqual options part other :=
      fun part inner other same => inductionHypothesis part inner (distinct.inside inner) same
    constructor
    · intro scope name path
      rw [interpret, interpret]
      cases Scalar.ofName? name with
      | some scalar => exact accuse_alike equal (scalar.fault?_of_equal equal) path
      | none =>
        cases catalog.referent scope name with
        | enum enum => exact accuse_alike equal (enum.fault?_of_equal equal) path
        | message target =>
          exact interpretMessage_alike_of_inside (fields _ target.2) distinct equal inside path
        | nothing => exact .error (.refl _)
    · intro scope name path
      cases value with
      | arr items =>
        cases other with
        | arr others =>
          rw [interpretList, interpretList]
          rw [Json.equal, Json.equalItems_iff] at equal
          apply (interpretItems_alike equal fun item listed => inside item (.item listed)).map
          exact fun values further each => by rw [Json.equal, Json.equalItems_iff]; exact each
        | _ => cases equal
      | _ =>
        have kind := Json.kindName_of_equal equal
        have array : ∀ others, other ≠ .arr others := by
          rintro others rfl
          cases equal
        rw [interpretList_not_array (by simp), interpretList_not_array array, kind]
        exact .error (.refl _)

theorem interpretMessage_alike (fields : ∀ entry ∈ catalog.entries, entry.message.FieldsDistinct)
    (options : Options) (target : catalog.Listed) {value other : Json} (distinct : value.Distinct)
    (equal : value.equal other = true) (path : Path) :
    EqualResults (catalog.interpretMessage options target.1 path value)
      (catalog.interpretMessage options target.1 path other) :=
  interpretMessage_alike_of_inside (fields _ target.2) distinct equal
    (fun _ inner _ same => readsEqual fields options (distinct.inside inner) same) path

end Catalog

/-! ## Compiled schemas -/

namespace Schema

variable {schema : Schema} {options : Options} {registry : Registry}

/-- A validator of a compiled schema accepts both of two payloads that are equal as JSON, with
    equal values, or refuses both, for the same violations in an order that differs at most
    among the unknown keys of one object. -/
theorem validate_equal (compiled : schema.compile options = .ok registry) {validator : Validator}
    (listed : validator ∈ registry.validators) {payload other : Json}
    (distinct : payload.Distinct) (equal : payload.equal other = true) :
    ((∃ value, validator.validate payload = .ok value) ↔
      ∃ value, validator.validate other = .ok value) ∧
    (∀ value second, validator.validate payload = .ok value →
      validator.validate other = .ok second → value.equal second = true) ∧
    ∀ violations others, validator.validate payload = .error violations →
      validator.validate other = .error others → Violation.Reordered violations others := by
  obtain ⟨root, _, serves⟩ := serves_of_mem compiled listed
  have fields := fieldsDistinct_of_checkNames (compile_eq_ok_iff.mp compiled).1
  have alike := Catalog.interpretMessage_alike fields options root distinct equal []
  rw [← validate_of_serves compiled serves payload,
    ← validate_of_serves compiled serves other] at alike
  generalize validator.validate payload = first at alike ⊢
  generalize validator.validate other = second at alike ⊢
  cases alike with
  | ok same =>
    refine ⟨by simp, fun value second accepted also => ?_, by simp⟩
    cases accepted
    cases also
    exact same
  | error same =>
    refine ⟨by simp, by simp, fun violations others refused also => ?_⟩
    cases refused
    cases also
    exact same

/-- An account whose owner has two keys that persons do not have. -/
def aged : Json :=
  .obj [("iban", .str "A1"), ("owner", .obj [("age", .num (.int 40)), ("nickname", .str "Al")])]

def agedReversed : Json :=
  .obj [("owner", .obj [("nickname", .str "Al"), ("age", .num (.int 40))]), ("iban", .str "A1")]

def ownerUndeclared (key : String) : Violation := ⟨[.field "owner", .field key], .undeclared⟩

theorem aged_equal :
    ∃ registry, accounts.compile {} = .ok registry ∧ ∃ validator ∈ registry.validators,
      validator.validate aged = .error [ownerUndeclared "age", ownerUndeclared "nickname"] ∧
      validator.validate agedReversed =
        .error [ownerUndeclared "nickname", ownerUndeclared "age"] ∧
      Violation.Reordered [ownerUndeclared "age", ownerUndeclared "nickname"]
        [ownerUndeclared "nickname", ownerUndeclared "age"] := by
  obtain ⟨registry, compiled⟩ := accounts_compile
  have distinct : aged.Distinct := by
    refine .obj (by decide) ?_
    simp only [List.forall_mem_cons, List.not_mem_nil, false_implies, implies_true, and_true]
    refine ⟨.str _, .obj (by decide) ?_⟩
    simp only [List.forall_mem_cons, List.not_mem_nil, false_implies, implies_true, and_true]
    exact ⟨.num _, .str _⟩
  have evaluated : (accounts.compile {}).toOption.bind (fun registry =>
      (registry.get? "Account").map fun validator =>
        ((validator.validate aged).map fun _ => (),
          (validator.validate agedReversed).map fun _ => ())) =
      some (.error [ownerUndeclared "age", ownerUndeclared "nickname"],
        .error [ownerUndeclared "nickname", ownerUndeclared "age"]) := by decide +kernel
  rw [compiled] at evaluated
  obtain ⟨validator, found, outcomes⟩ := Option.map_eq_some_iff.mp evaluated
  obtain ⟨refused, also⟩ := Prod.mk.inj outcomes
  have refused := map_eq_error_iff.mp refused
  have also := map_eq_error_iff.mp also
  have listed := List.mem_of_find?_eq_some found
  exact ⟨registry, compiled, validator, listed, refused, also,
    (validate_equal compiled listed distinct (by decide)).2.2 _ _ refused also⟩

end Schema

end PayloadSchema
