import PayloadSchema.Proofs.Json.Distinct
import PayloadSchema.Proofs.Registry
import PayloadSchema.Proofs.Report
import PayloadSchema.Proofs.Schema.Group

/-! # No failure is reported twice

Two violations of one payload may stand at one place only if both are about groups, and then the
groups are different ones.  A place belongs to the object above it, which reports a missing field
or an unknown key, or to the value there; and a value that is refused as a whole is asked for no
groups.  Among the parts of an object, and among the groups of a message, names are distinct. -/

namespace PayloadSchema

def Fault.group? : Fault → Option String
  | .noneOf group _ | .severalOf group _ => some group
  | .mismatch _ _ | .below _ | .unlisted _ _ | .missing | .undeclared | .undefined _ => none

/-- Whether two violations that stand at one place are about different groups. -/
def Violation.Separate (first second : Violation) : Prop :=
  first.path = second.path →
    ∃ group other, first.fault.group? = some group ∧ second.fault.group? = some other ∧
      group ≠ other

namespace Violation

variable {first second : Violation}

theorem separate_of_path (differ : first.path ≠ second.path) : first.Separate second :=
  fun same => absurd same differ

theorem separate_of_group {group other : String} (about : first.fault.group? = some group)
    (aside : second.fault.group? = some other) (differ : group ≠ other) : first.Separate second :=
  fun _ => ⟨group, other, about, aside, differ⟩

theorem Separate.under (separate : first.Separate second) (outer : Path) :
    (first.under outer).Separate (second.under outer) :=
  fun same => separate (List.append_cancel_left same)

theorem Separate.ne (separate : first.Separate second) : first ≠ second := by
  rintro rfl
  obtain ⟨group, other, about, aside, differ⟩ := separate rfl
  exact differ (Option.some.inj (about.symm.trans aside))

theorem pairwise_under {own : List Violation} (separate : own.Pairwise Separate) (outer : Path) :
    (own.map (·.under outer)).Pairwise Separate :=
  List.pairwise_map.mpr (separate.imp fun separate => separate.under outer)

end Violation

theorem Group.mem_report {group : Group} {count : Nat} {violation : Violation}
    (listed : violation ∈ group.report count) :
    violation.path = [] ∧ violation.fault.group? = some group.name := by
  rcases count with _ | _ | _
  · cases List.mem_singleton.mp listed
    exact ⟨rfl, rfl⟩
  · cases listed
  · cases List.mem_singleton.mp listed
    exact ⟨rfl, rfl⟩

theorem Group.report_separate (group : Group) (count : Nat) :
    (group.report count).Pairwise Violation.Separate := by
  rcases count with _ | _ | _
  · exact List.pairwise_singleton ..
  · exact .nil
  · exact List.pairwise_singleton ..

namespace RecordRule

variable {rule : RecordRule} {members : Members} {own : String × Rule → List Violation}

theorem groups_separate (names : (rule.groups.map Group.name).Nodup) (members : Members) :
    (rule.groups.flatMap fun group =>
      group.report (rule.countProvided members group)).Pairwise Violation.Separate := by
  rw [List.pairwise_flatMap]
  refine ⟨fun group _ => group.report_separate _, (List.pairwise_map.mp names).imp ?_⟩
  intro group other differ first listed second later
  exact Violation.separate_of_group (Group.mem_report listed).2 (Group.mem_report later).2 differ

theorem undeclared_separate (keys : (members.map Prod.fst).Nodup) :
    ((rule.undeclared members).map fun member =>
      Violation.mk [.field member.1] .undeclared).Pairwise Violation.Separate := by
  rw [List.pairwise_map]
  refine ((List.pairwise_map.mp keys).filter _).imp fun differ => Violation.separate_of_path ?_
  simpa using differ

theorem fields_separate (names : (rule.fields.map Prod.fst).Nodup)
    (each : ∀ field ∈ rule.fields, (own field).Pairwise Violation.Separate) :
    (rule.fields.flatMap fun field =>
      (own field).map (·.under [.field field.1])).Pairwise Violation.Separate := by
  rw [List.pairwise_flatMap]
  refine ⟨fun field listed => Violation.pairwise_under (each field listed) _,
    (List.pairwise_map.mp names).imp ?_⟩
  intro field other differ first listed second later
  obtain ⟨inner, _, rfl⟩ := List.mem_map.mp listed
  obtain ⟨outer, _, rfl⟩ := List.mem_map.mp later
  refine Violation.separate_of_path fun same => differ ?_
  simpa [Violation.under] using (List.cons.inj same).1

theorem path_of_field {violation : Violation}
    (listed : violation ∈ rule.fields.flatMap fun field =>
      (own field).map (·.under [.field field.1])) :
    ∃ field ∈ rule.fields, ∃ rest, violation.path = .field field.1 :: rest := by
  obtain ⟨field, declared, inner⟩ := List.mem_flatMap.mp listed
  obtain ⟨violation, _, rfl⟩ := List.mem_map.mp inner
  exact ⟨field, declared, violation.path, rfl⟩

theorem object_separate (names : (rule.fields.map Prod.fst).Nodup)
    (groups : (rule.groups.map Group.name).Nodup) (keys : (members.map Prod.fst).Nodup)
    (each : ∀ field ∈ rule.fields, (own field).Pairwise Violation.Separate) :
    List.Pairwise Violation.Separate
      ((rule.fields.flatMap fun field => (own field).map (·.under [.field field.1])) ++
        (if rule.allowUnknown then [] else rule.undeclared members).map
          (fun member => ⟨[.field member.1], .undeclared⟩) ++
        rule.groups.flatMap fun group => group.report (rule.countProvided members group)) := by
  have unknown : ∀ member ∈ (if rule.allowUnknown then [] else rule.undeclared members),
      member.1 ∉ rule.fields.map Prod.fst := by
    intro member listed
    split at listed
    next => cases listed
    next => exact ((mem_undeclared_iff rule members member).mp listed).2
  refine List.pairwise_append.mpr ⟨List.pairwise_append.mpr ⟨fields_separate names each, ?_, ?_⟩,
    groups_separate groups members, ?_⟩
  · split
    next => exact .nil
    next => exact undeclared_separate keys
  · -- A key that is reported is not the name of a field.
    intro first listed second later
    obtain ⟨field, declared, rest, within⟩ := path_of_field listed
    obtain ⟨member, among, rfl⟩ := List.mem_map.mp later
    refine Violation.separate_of_path fun same => unknown member among ?_
    rw [within, List.cons.injEq, Step.field.injEq] at same
    exact same.1 ▸ List.mem_map_of_mem declared
  · -- A group is reported at the object itself.
    intro first listed second later
    obtain ⟨group, _, reported⟩ := List.mem_flatMap.mp later
    refine Violation.separate_of_path ?_
    rw [(Group.mem_report reported).1]
    rcases List.mem_append.mp listed with inner | foreign
    · obtain ⟨field, _, rest, within⟩ := path_of_field inner
      exact within ▸ List.cons_ne_nil _ _
    · obtain ⟨member, _, rfl⟩ := List.mem_map.mp foreign
      exact List.cons_ne_nil _ _

end RecordRule

section

variable {catalog : Catalog} {options : Options} {definitions : Definitions}

mutual

theorem Reports.separate (sound : definitions.Sound catalog options)
    (fieldsDistinct : ∀ entry ∈ catalog.entries, entry.message.FieldsDistinct) :
    ∀ {shape : Shape} {value : Json} {own : List Violation},
      Reports definitions shape value own →
      PartImage catalog options (definitions.map Prod.fst) shape → value.Distinct →
      own.Pairwise Violation.Separate
  | shape, value, _, .flat flat, _, _ => by
    cases shape.fault? definitions value with
    | none => exact .nil
    | some fault => exact List.pairwise_singleton ..
  | _, _, _, .notArray _, _, _ => List.pairwise_singleton ..
  | _, _, _, .clean _, _, _ => .nil
  | _, _, _, .first _ failing _, image, distinct => by
    have each := distinct.item
    refine Violation.pairwise_under (failing.separate sound fieldsDistinct image.element ?_) _
    exact fun value same => Option.some.inj same ▸ each _ (by simp)
  | _, _, _, .notObject _ _, _, _ => List.pairwise_singleton ..
  | _, _, _, .object meaning fields, image, distinct => by
    obtain ⟨target, record⟩ := image.record? sound meaning
    refine RecordRule.object_separate (record.names_nodup (fieldsDistinct target.1 target.2))
      (record.groups ▸ target.1.message.groups_names_nodup) distinct.keys_nodup
      fun field listed => ?_
    obtain ⟨_, _, _, type, typed, composed⟩ := record.of_rule listed
    refine (fields field listed).separate sound fieldsDistinct (.of_field typed composed)
      fun value found => ?_
    exact distinct.member _ (Members.mem_of_get? found)
  | _, _, _, .undefined _, _, _ => List.pairwise_singleton ..

theorem FieldReports.separate (sound : definitions.Sound catalog options)
    (fieldsDistinct : ∀ entry ∈ catalog.entries, entry.message.FieldsDistinct) :
    ∀ {rule : Rule} {found : Option Json} {own : List Violation},
      FieldReports definitions rule found own →
      PartImage catalog options (definitions.map Prod.fst) rule.shape →
      (∀ value, found = some value → value.Distinct) → own.Pairwise Violation.Separate
  | _, _, _, .missing _ _, _, _ => List.pairwise_singleton ..
  | _, _, _, .absent _ _, _, _ => .nil
  | rule, found, _, .given given inner, image, distinct =>
    inner.separate sound fieldsDistinct image
      (distinct _ ((rule.given?_eq_some_iff found _).mp given).1)

end

end

namespace Schema

variable {schema : Schema} {options : Options} {registry : Registry}

/-- A refusal has no violation twice, and two violations at one place are about different
    groups. -/
theorem validate_separate (compiled : schema.compile options = .ok registry) {name : String}
    {payload : Json} (distinct : payload.Distinct) {violations : List Violation}
    (refused : registry.validate name payload = .error (.invalid violations)) :
    violations.Pairwise Violation.Separate ∧ violations.Nodup := by
  rw [Registry.validate] at refused
  split at refused
  next => cases refused
  next validator lookup =>
    split at refused
    next => cases refused
    next found failed =>
      cases refused
      obtain ⟨root, _, serves⟩ := serves_of_mem compiled (List.mem_of_find?_eq_some lookup)
      have fields := fieldsDistinct_of_checkNames (compile_eq_ok_iff.mp compiled).1
      have reports : Reports validator.definitions (.record validator.rule) payload violations :=
        checkPayload_eq_error failed ▸ reports_check _ payload
      have separate := reports.separate serves.sound fields (.rule serves.image) distinct
      exact ⟨separate, separate.imp fun separate => separate.ne⟩

/-- A parcel goes to one address and is paid in one way, and may hold another parcel. -/
def parcels : Schema where
  messages := [
    { name := "Parcel"
      fields := [
        { name := "weight", typeName := "uint32", required := true },
        { name := "home", typeName := "string", group := some "address" },
        { name := "office", typeName := "string", group := some "address" },
        { name := "cash", typeName := "bool", group := some "payment" },
        { name := "card", typeName := "bool", group := some "payment" },
        { name := "inner", typeName := "Parcel" }] }]

/-- A parcel with two addresses around one that lacks everything. -/
def misdirected : Json :=
  .obj [("home", .str "A"), ("office", .str "B"), ("weight", .str "heavy"), ("inner", .obj [])]

def misdirectedFaults : List Violation :=
  [⟨[.field "weight"], .mismatch "integer" "string"⟩,
    ⟨[.field "inner", .field "weight"], .missing⟩,
    ⟨[.field "inner"], .noneOf "address" ["home", "office"]⟩,
    ⟨[.field "inner"], .noneOf "payment" ["cash", "card"]⟩,
    ⟨[], .severalOf "address" ["home", "office"]⟩,
    ⟨[], .noneOf "payment" ["cash", "card"]⟩]

theorem misdirected_separate :
    ∃ registry, parcels.compile {} = .ok registry ∧
      registry.validate "Parcel" misdirected = .error (.invalid misdirectedFaults) ∧
      misdirectedFaults.Pairwise Violation.Separate ∧ misdirectedFaults.Nodup := by
  have distinct : misdirected.Distinct := by
    refine .obj (by decide) ?_
    simp only [List.forall_mem_cons, List.not_mem_nil, false_implies, implies_true, and_true]
    exact ⟨.str _, .str _, .str _, .obj (by decide) (by simp)⟩
  have evaluated : (parcels.compile {}).toOption.map (fun registry =>
      (registry.validate "Parcel" misdirected).map fun _ => ()) =
      some (.error (.invalid misdirectedFaults)) := by decide +kernel
  obtain ⟨registry, compiled, outcome⟩ := Option.map_eq_some_iff.mp evaluated
  have succeeded := toOption_eq_some_iff.mp compiled
  have refused := map_eq_error_iff.mp outcome
  exact ⟨registry, succeeded, refused, validate_separate succeeded distinct refused⟩

end Schema

end PayloadSchema
