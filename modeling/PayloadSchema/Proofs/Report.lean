import PayloadSchema.Proofs.Rule.Collect
import PayloadSchema.Proofs.Rule.Conforms
import PayloadSchema.Proofs.Rule.Under

/-! # What a check reports

What is wrong with a value, with each place told from the value itself.  An object reports
the violations of each of its fields, then the keys that are no fields, then the groups; an
array reports those of its first item with any.  A check reports just this, wherever the
value stands in a payload and whatever was found before. -/

namespace PayloadSchema

instance RecordRule.decidableProvides (rule : RecordRule) (members : Members) :
    DecidablePred (rule.Provides members) := fun name =>
  decidable_of_iff ((rule.provided [] [] members).contains name = true)
    (provided_iff rule [] members name)

def RecordRule.countProvided (rule : RecordRule) (members : Members) (group : Group) : Nat :=
  group.members.countP fun member => rule.Provides members member

/-- What is reported of a group, given how many of its members are provided. -/
def Group.report (group : Group) : Nat → List Violation
  | 0 => [⟨[], .noneOf group.name group.members⟩]
  | 1 => []
  | _ => [⟨[], .severalOf group.name group.members⟩]

mutual

/-- Whether some violations are the report of a value of a shape. -/
inductive Reports (definitions : Definitions) : Shape → Json → List Violation → Prop where
  /-- A flat shape judges the value as a whole. -/
  | flat {shape : Shape} {value : Json} (flat : shape.isFlat = true) :
      Reports definitions shape value ((shape.fault? definitions value).toList.map (⟨[], ·⟩))
  | notArray {element : Rule} {value : Json} (other : ∀ items, value ≠ .arr items) :
      Reports definitions (.array element) value [⟨[], .mismatch "array" value.kindName⟩]
  | clean {element : Rule} {items : List Json}
      (each : ∀ item ∈ items, FieldReports definitions element (some item) []) :
      Reports definitions (.array element) (.arr items) []
  /-- The first item with violations settles the report, whatever comes after it. -/
  | first {element : Rule} {before after : List Json} {item : Json} {own : List Violation}
      (earlier : ∀ other ∈ before, FieldReports definitions element (some other) [])
      (failing : FieldReports definitions element (some item) own) (faulty : own ≠ []) :
      Reports definitions (.array element) (.arr (before ++ item :: after))
        (own.map (·.under [.index before.length]))
  | notObject {shape : Shape} {rule : RecordRule} {value : Json}
      (meaning : shape.record? definitions = some rule) (other : ∀ members, value ≠ .obj members) :
      Reports definitions shape value [⟨[], .mismatch "object" value.kindName⟩]
  | object {shape : Shape} {rule : RecordRule} {members : Members}
      {own : String × Rule → List Violation} (meaning : shape.record? definitions = some rule)
      (fields : ∀ field ∈ rule.fields,
        FieldReports definitions field.2 (members.get? field.1) (own field)) :
      Reports definitions shape (.obj members)
        ((rule.fields.flatMap fun field => (own field).map (·.under [.field field.1])) ++
          (if rule.allowUnknown then [] else rule.undeclared members).map
            (fun member => ⟨[.field member.1], .undeclared⟩) ++
          rule.groups.flatMap fun group => group.report (rule.countProvided members group))
  | undefined {message : String} {id : MessageId} {value : Json}
      (missing : definitions.get? id = none) :
      Reports definitions (.lazy message id) value [⟨[], .undefined message⟩]

/-- Whether some violations are the report of a field, or of an item, with what is found
    there. -/
inductive FieldReports (definitions : Definitions) :
    Rule → Option Json → List Violation → Prop where
  | missing {rule : Rule} {found : Option Json} (absent : rule.given? found = none)
      (required : rule.required = true) : FieldReports definitions rule found [⟨[], .missing⟩]
  | absent {rule : Rule} {found : Option Json} (absent : rule.given? found = none)
      (optional : rule.required = false) : FieldReports definitions rule found []
  | given {rule : Rule} {found : Option Json} {value : Json} {own : List Violation}
      (given : rule.given? found = some value) (value : Reports definitions rule.shape value own) :
      FieldReports definitions rule found own

end

section

variable {definitions : Definitions}

def Rule.reported (definitions : Definitions) (rule : Rule) (found : Option Json) :
    List Violation :=
  (rule.checkGiven definitions [] (rule.given? found)).violations

theorem Rule.reported_at (rule : Rule) (path : Path) (found : Option Json) :
    (rule.checkGiven definitions path (rule.given? found)).violations =
      (rule.reported definitions found).map (·.under path) := by
  have moved : rule.checkGiven definitions (path ++ []) (rule.given? found) =
      (rule.checkGiven definitions [] (rule.given? found)).under path :=
    checkGiven_under fun value _ inner => check_under rule.shape value
  rw [List.append_nil] at moved
  rw [moved]
  rfl

theorem Group.report_eq (group : Group) (rule : RecordRule) (path : Path) (members : Members) :
    (group.fault? (rule.provided definitions path members)).toList.map (Violation.mk [] ·) =
      group.report (rule.countProvided members group) := by
  have counted : (group.members.filter fun member =>
      (rule.provided definitions path members).contains member).length =
      rule.countProvided members group := by
    rw [RecordRule.countProvided, ← List.countP_eq_length_filter]
    refine List.countP_congr fun member _ => ?_
    rw [provided_iff, decide_eq_true_iff]
  rw [Group.fault?, counted]
  rcases rule.countProvided members group with _ | _ | _ <;> rfl

theorem check_object_violations {shape : Shape} {rule : RecordRule}
    (meaning : shape.record? definitions = some rule) (members : Members) :
    (check definitions shape [] (.obj members)).violations =
      (rule.fields.flatMap fun field =>
        (field.2.reported definitions (members.get? field.1)).map (·.under [.field field.1])) ++
      (if rule.allowUnknown then [] else rule.undeclared members).map
        (fun member => ⟨[.field member.1], .undeclared⟩) ++
      rule.groups.flatMap fun group => group.report (rule.countProvided members group) := by
  rw [check_members meaning, RecordRule.conclude_violations, RecordRule.violations,
    ← RecordRule.provided, List.flatMap_map, List.filterMap_eq_flatMap_toList, List.map_flatMap]
  simp only [checkField_eq, Rule.reported_at, Group.report_eq]
  rfl

theorem checkItems_cons_of_clean {element : Rule} {item : Json}
    (clean : element.reported definitions (some item) = []) (path : Path) (position : Nat)
    (rest : List Json) :
    ∃ value, checkItems definitions element path position (item :: rest) =
      (checkItems definitions element path (position + 1) rest).map (value :: ·) := by
  have own : (element.checkGiven definitions (path.index position)
      (element.given? (some item))).violations = [] := by
    rw [Rule.reported_at, clean, List.map_nil]
  rw [checkItems_cons]
  split
  next value _ => exact ⟨_, rfl⟩
  next value found faulty checked =>
    rw [checked] at own
    exact (faulty own).elim

theorem checkItems_cons_of_faulty {element : Rule} {item : Json}
    (faulty : element.reported definitions (some item) ≠ []) (path : Path) (position : Nat)
    (rest : List Json) :
    checkItems definitions element path position (item :: rest) =
      .error ((element.reported definitions (some item)).map (·.under (path.index position))) := by
  have own : (element.checkGiven definitions (path.index position)
      (element.given? (some item))).violations ≠ [] := by
    simpa [Rule.reported_at] using faulty
  rw [checkItems_cons, ← Rule.reported_at]
  split
  next value checked =>
    rw [checked] at own
    exact (own rfl).elim
  next value found _ checked => rw [checked]

theorem checkItems_of_clean {element : Rule} {items : List Json}
    (each : ∀ item ∈ items, element.reported definitions (some item) = []) (path : Path)
    (position : Nat) :
    ∃ values, checkItems definitions element path position items = .ok values := by
  induction items generalizing position with
  | nil => exact ⟨[], rfl⟩
  | cons item rest inductionHypothesis =>
    obtain ⟨first, others⟩ := List.forall_mem_cons.mp each
    obtain ⟨value, step⟩ := checkItems_cons_of_clean first path position rest
    obtain ⟨values, later⟩ := inductionHypothesis others (position + 1)
    exact ⟨value :: values, by rw [step, later]; rfl⟩

theorem checkItems_of_first {element : Rule} {before after : List Json} {item : Json}
    (earlier : ∀ other ∈ before, element.reported definitions (some other) = [])
    (faulty : element.reported definitions (some item) ≠ []) (path : Path) (position : Nat) :
    checkItems definitions element path position (before ++ item :: after) =
      .error ((element.reported definitions (some item)).map
        (·.under (path.index (position + before.length)))) := by
  induction before generalizing position with
  | nil => exact checkItems_cons_of_faulty faulty path position after
  | cons other rest inductionHypothesis =>
    obtain ⟨first, others⟩ := List.forall_mem_cons.mp earlier
    obtain ⟨value, step⟩ := checkItems_cons_of_clean first path position (rest ++ item :: after)
    rw [List.cons_append, step, inductionHypothesis others, List.length_cons, Nat.add_assoc,
      Nat.add_comm 1]
    rfl

/-! ## Reports are what checks report -/

mutual

theorem Reports.eq_check : ∀ {shape : Shape} {value : Json} {own : List Violation},
    Reports definitions shape value own → (check definitions shape [] value).violations = own
  | shape, value, _, .flat flat => by
    rw [check_flat definitions flat]
    cases shape.fault? definitions value <;> rfl
  | _, _, _, .notArray other => by
    rw [check_not_array definitions _ other]
    rfl
  | _, _, _, .clean each => by
    obtain ⟨values, passed⟩ :=
      checkItems_of_clean (fun item listed => (each item listed).eq_reported) [] 0
    rw [check_array, passed]
    rfl
  | _, _, _, .first earlier failing faulty => by
    have own := failing.eq_reported
    rw [check_array, checkItems_of_first (fun other listed => (earlier other listed).eq_reported)
      (own ▸ faulty), own, Nat.zero_add]
    rfl
  | _, _, _, .notObject meaning other => by
    rw [check_not_object meaning other]
    rfl
  | _, _, _, .object meaning fields => by
    rw [check_object_violations meaning]
    congr 2
    exact List.flatMap_congr fun field listed => by rw [(fields field listed).eq_reported]
  | _, value, _, .undefined missing => by
    rw [check_of_fault (Shape.fault?_undefined missing _ value)]
    rfl

theorem FieldReports.eq_reported : ∀ {rule : Rule} {found : Option Json} {own : List Violation},
    FieldReports definitions rule found own → rule.reported definitions found = own
  | rule, _, _, .missing absent required => by
    rw [Rule.reported, absent, Rule.checkGiven, Rule.absent_violations, required]
    rfl
  | rule, _, _, .absent absent optional => by
    rw [Rule.reported, absent, Rule.checkGiven, Rule.absent_violations, optional]
    rfl
  | rule, _, _, .given given value => by
    rw [Rule.reported, given]
    exact value.eq_check

end

theorem FieldReports.of_reported {rule : Rule} {found : Option Json}
    (inner : ∀ value, found = some value →
      Reports definitions rule.shape value (check definitions rule.shape [] value).violations) :
    FieldReports definitions rule found (rule.reported definitions found) := by
  cases given : rule.given? found with
  | none =>
    rw [Rule.reported, given, Rule.checkGiven, Rule.absent_violations]
    cases required : rule.required with
    | true => exact .missing given required
    | false => exact .absent given required
  | some value =>
    rw [Rule.reported, given]
    exact .given given (inner value ((rule.given?_eq_some_iff found value).mp given).1)

/-- The violations that a check finds at the root are a report. -/
theorem reports_check (shape : Shape) (value : Json) :
    Reports definitions shape value (check definitions shape [] value).violations := by
  induction value using Json.inside_induction generalizing shape with
  | step value inductionHypothesis =>
    rcases shape.kinds definitions with flat | ⟨element, rfl⟩ | ⟨rule, meaning⟩ |
      ⟨message, id, rfl, missing⟩
    · have own : Reports definitions shape value _ := .flat flat
      exact own.eq_check ▸ own
    · rcases value.array_cases with ⟨items, rfl⟩ | other
      · have each : ∀ item ∈ items, FieldReports definitions element (some item)
            (element.reported definitions (some item)) := fun item listed =>
          .of_reported fun value same =>
            Option.some.inj same ▸ inductionHypothesis item (.item listed) element.shape
        cases stop : items.find? fun item =>
          !(element.reported definitions (some item)).isEmpty with
        | none =>
          have clean : ∀ item ∈ items, element.reported definitions (some item) = [] := by
            simpa using stop
          have own : Reports definitions (.array element) (.arr items) _ :=
            .clean fun item listed => clean item listed ▸ each item listed
          exact own.eq_check ▸ own
        | some item =>
          obtain ⟨faulty, before, after, rfl, earlier⟩ := List.find?_eq_some_iff_append.mp stop
          have clean : ∀ other ∈ before, element.reported definitions (some other) = [] := by
            simpa using earlier
          have own : Reports definitions (.array element) (.arr (before ++ item :: after)) _ :=
            .first (fun other listed => clean other listed ▸ each other (by simp [listed]))
              (each item (by simp)) (by simpa using faulty)
          exact own.eq_check ▸ own
      · have own : Reports definitions (.array element) value _ :=
          .notArray other
        exact own.eq_check ▸ own
    · rcases value.object_cases with ⟨members, rfl⟩ | other
      · rw [check_object_violations meaning]
        exact .object meaning fun field _ => .of_reported fun value found =>
          inductionHypothesis value (.member (Members.mem_of_get? found)) field.2.shape
      · have own : Reports definitions shape value _ :=
          .notObject meaning other
        exact own.eq_check ▸ own
    · have own : Reports definitions (.lazy message id) value _ := .undefined missing
      exact own.eq_check ▸ own

end

/-- A check that shares its violations has the outcome of the check alone.  Behind whatever was
    found before it puts the report of the value, with its places told from where the value
    stands. -/
theorem collect_reports (definitions : Definitions) (shape : Shape) (path : Path)
    (found : List Violation) (value : Json) :
    collect definitions shape path found value =
      (check definitions shape path value).after found ∧
    ∀ violations, (collect definitions shape path found value).violations = violations ↔
      ∃ own, Reports definitions shape value own ∧
        violations = found ++ own.map (·.under path) := by
  refine ⟨collect_eq definitions shape path found value, fun violations => ?_⟩
  have placed : (collect definitions shape path found value).violations =
      found ++ (check definitions shape [] value).violations.map (·.under path) := by
    rw [collect_eq, check_at]
    rfl
  rw [placed]
  constructor
  · rintro rfl
    exact ⟨_, reports_check shape value, rfl⟩
  · rintro ⟨own, reports, rfl⟩
    rw [reports.eq_check]

end PayloadSchema
