import Mathlib.Data.List.Nodup
import PayloadSchema.Proofs.Except
import PayloadSchema.Proofs.Json.Induction
import PayloadSchema.Proofs.Rule.Part
import PayloadSchema.Rule.Check

/-! # The steps of a check

A check runs through a payload in one recursion over its parts.  The equations below
say what each step of it gives, case by case of the shape: a flat shape judges the
value as a whole, an array asks for its items in turn, and a record or a lazy shape
asks for the members of its fields.  No later proof opens the recursion itself. -/

namespace PayloadSchema

namespace Rule

def fills (rule : Rule) : Bool := !rule.required && rule.default.isSome

/-- The value itself, unless it counts as absent. -/
def given? (rule : Rule) (value : Option Json) : Option Json :=
  value.filter fun value => !rule.isEmpty value

def checkGiven (definitions : Definitions) (rule : Rule) (path : Path) : Option Json → Outcome
  | some value => check definitions rule.shape path value
  | none => rule.absent path

@[simp] theorem given?_none (rule : Rule) : rule.given? none = none := rfl

theorem given?_some (rule : Rule) (value : Json) :
    rule.given? (some value) = if rule.isEmpty value then none else some value := by
  cases isEmpty : rule.isEmpty value <;> simp [given?, Option.filter, isEmpty]

theorem given?_eq_some_iff (rule : Rule) (found : Option Json) (value : Json) :
    rule.given? found = some value ↔ found = some value ∧ rule.isEmpty value = false := by
  simp [given?, Option.filter_eq_some_iff]

theorem given?_eq_none_iff (rule : Rule) (found : Option Json) :
    rule.given? found = none ↔
      ∀ value, found = some value → ∃ empty ∈ rule.empty, empty.equal value = true := by
  simp [given?, Option.filter_eq_none_iff, isEmpty]

@[simp] theorem absent_value_isSome (rule : Rule) (path : Path) :
    (rule.absent path).value.isSome = rule.fills := by
  cases required : rule.required <;> simp [absent, fills, required, Outcome.refuse]

@[simp] theorem absent_violations (rule : Rule) (path : Path) :
    (rule.absent path).violations = if rule.required then [⟨path, .missing⟩] else [] := by
  cases required : rule.required <;> simp [absent, required, Outcome.refuse]

end Rule

theorem checkField_eq (definitions : Definitions) (name : String) (rule : Rule) (path : Path)
    (members : Members) :
    checkField definitions name rule path members =
      ⟨name, (rule.given? (members.get? name)).isSome || rule.fills,
        rule.checkGiven definitions path (rule.given? (members.get? name))⟩ := by
  -- The check walks to the first member of the name, which is the one that is looked up.
  induction members with
  | nil => simp [checkField, Members.get?, Rule.checkGiven]
  | cons member rest inductionHypothesis =>
    obtain ⟨key, value⟩ := member
    by_cases same : key = name
    · subst same
      have found : Members.get? ((key, value) :: rest) key = some value := by simp [Members.get?]
      rw [checkField, if_pos rfl, found, Rule.given?_some]
      cases isEmpty : rule.isEmpty value <;> simp [Rule.checkGiven]
    · have later : Members.get? ((key, value) :: rest) name = Members.get? rest name := by
        have differs : (name == key) = false := by simpa using Ne.symm same
        simp [Members.get?, List.lookup_cons, differs]
      rw [checkField, if_neg same, inductionHypothesis, later]

theorem checkItems_cons (definitions : Definitions) (element : Rule) (path : Path)
    (position : Nat) (item : Json) (rest : List Json) :
    checkItems definitions element path position (item :: rest) =
      match element.checkGiven definitions (path.index position) (element.given? (some item)) with
      | ⟨value, []⟩ => (checkItems definitions element path (position + 1) rest).map
          (value.getD .null :: ·)
      | ⟨_, found⟩ => .error found := by
  rw [checkItems, Rule.given?_some]
  cases isEmpty : element.isEmpty item <;>
    simp only [Bool.false_eq_true, if_false, if_true, Rule.checkGiven] <;>
    split <;> split <;> simp_all

def Outcome.judge (path : Path) (value : Json) : Option Fault → Outcome
  | some fault => .refuse path fault
  | none => .accept value

theorem check_of_fault {definitions : Definitions} {shape : Shape} {value : Json} {fault : Fault}
    (faulty : shape.fault? definitions value = some fault) (path : Path) :
    check definitions shape path value = .refuse path fault := by
  rw [check.eq_def, faulty]

theorem check_flat (definitions : Definitions) {shape : Shape} (flat : shape.isFlat = true)
    (path : Path) (value : Json) :
    check definitions shape path value = .judge path value (shape.fault? definitions value) := by
  cases faulty : shape.fault? definitions value with
  | some fault => rw [check_of_fault faulty, Outcome.judge]
  | none =>
    -- A flat shape has no items and no members to ask for, so the value is taken as it is.
    rw [check.eq_def, faulty, Outcome.judge]
    cases value <;> cases shape <;> simp_all [Shape.isFlat, Shape.record?]

theorem check_array (definitions : Definitions) (element : Rule) (path : Path)
    (items : List Json) :
    check definitions (.array element) path (.arr items) =
      match checkItems definitions element path 0 items with
      | .ok values => .accept (.arr values)
      | .error violations => ⟨none, violations⟩ := by
  rw [check.eq_def]
  rfl

theorem check_members {definitions : Definitions} {shape : Shape} {rule : RecordRule}
    (meaning : shape.record? definitions = some rule) (path : Path) (members : Members) :
    check definitions shape path (.obj members) =
      rule.conclude path members (rule.fields.map fun field =>
        checkField definitions field.1 field.2 (path.field field.1) members) := by
  have passes : shape.fault? definitions (.obj members) = none := by
    cases shape <;> simp_all [Shape.record?, Shape.fault?]
  rw [check.eq_def, passes]
  simp only [meaning]

theorem check_not_object {definitions : Definitions} {shape : Shape} {rule : RecordRule}
    (meaning : shape.record? definitions = some rule) {value : Json}
    (other : ∀ members, value ≠ .obj members) (path : Path) :
    check definitions shape path value = .refuse path (.mismatch "object" value.kindName) := by
  apply check_of_fault
  cases shape <;> cases value <;> simp_all [Shape.record?, Shape.fault?, expect]

theorem check_not_array (definitions : Definitions) (element : Rule) {value : Json}
    (other : ∀ items, value ≠ .arr items) (path : Path) :
    check definitions (.array element) path value =
      .refuse path (.mismatch "array" value.kindName) := by
  apply check_of_fault
  cases value <;> simp_all [Shape.fault?, expect]

/-- What a check does, by the shape and the value: it finds a fault, asks for items or for
    members, or takes the value as it is. -/
theorem check_cases (definitions : Definitions) (shape : Shape) (path : Path) (value : Json) :
    (∃ fault, shape.fault? definitions value = some fault ∧
      check definitions shape path value = .refuse path fault) ∨
    (∃ element items, shape = .array element ∧ value = .arr items) ∨
    (∃ rule members, shape.record? definitions = some rule ∧ value = .obj members) ∨
    check definitions shape path value = .accept value := by
  cases faulty : shape.fault? definitions value with
  | some fault => exact .inl ⟨fault, rfl, check_of_fault faulty path⟩
  | none =>
    refine .inr ?_
    cases value with
    | arr items =>
      cases shape with
      | array element => exact .inl ⟨element, items, rfl, rfl⟩
      | _ => exact .inr (.inr (by rw [check.eq_def, faulty]))
    | obj members =>
      cases meaning : shape.record? definitions with
      | some rule => exact .inr (.inl ⟨rule, members, rfl, rfl⟩)
      | none => exact .inr (.inr (by rw [check.eq_def, faulty]; simp only [meaning]))
    | _ => exact .inr (.inr (by rw [check.eq_def, faulty]))

theorem provided_contains {fields : List FieldOutcome} (distinct : (fields.map (·.name)).Nodup)
    {field : FieldOutcome} (listed : field ∈ fields) :
    ((fields.filter (·.provided)).map (·.name)).contains field.name = field.provided := by
  rw [Bool.eq_iff_iff, List.contains_iff_mem, List.mem_map]
  constructor
  · rintro ⟨other, provided, same⟩
    -- The field of that name that is provided is this one.
    rw [List.mem_filter] at provided
    rw [← List.inj_on_of_nodup_map distinct provided.1 listed same]
    exact provided.2
  · intro provided
    exact ⟨field, List.mem_filter.mpr ⟨listed, provided⟩, rfl⟩

theorem checkItems_error {definitions : Definitions} {element : Rule} {path : Path}
    {position : Nat} {items : List Json} {violations : List Violation}
    (refused : checkItems definitions element path position items = .error violations) :
    violations ≠ [] := by
  induction items generalizing position with
  | nil => simp [checkItems] at refused
  | cons item rest inductionHypothesis =>
    rw [checkItems_cons] at refused
    split at refused
    next => exact inductionHypothesis (map_eq_error_iff.mp refused)
    next found faulty _ =>
      cases refused
      rintro rfl
      exact faulty rfl

/-- A check gives a value or a violation, and never both. -/
theorem check_value_isSome_iff (definitions : Definitions) (shape : Shape) (path : Path)
    (value : Json) :
    (check definitions shape path value).value.isSome ↔
      (check definitions shape path value).violations = [] := by
  -- Each way to refuse a value leaves a violation, and each way to accept it none.
  obtain ⟨fault, _, refused⟩ | ⟨element, items, rfl, rfl⟩ | ⟨rule, members, meaning, rfl⟩ |
    accepted := check_cases definitions shape path value
  · simp [refused, Outcome.refuse]
  · rw [check_array]
    split
    next => simp [Outcome.accept]
    next refused => simpa using checkItems_error refused
  · rw [check_members meaning, RecordRule.conclude]
    split
    next => simp [Outcome.accept]
    next faulty => simpa using faulty
  · simp [accepted, Outcome.accept]

theorem checkPayload_eq_error {definitions : Definitions} {rule : RecordRule} {payload : Json}
    {violations : List Violation}
    (refused : rule.checkPayload definitions payload = .error violations) :
    (check definitions (.record rule) [] payload).violations = violations := by
  rw [RecordRule.checkPayload] at refused
  split at refused
  next => cases refused
  next outcome =>
    cases refused
    rw [outcome]

theorem checkPayload_ok_iff (definitions : Definitions) (rule : RecordRule) (payload : Json) :
    (∃ value, rule.checkPayload definitions payload = .ok value) ↔
      (check definitions (.record rule) [] payload).violations = [] := by
  have settled := check_value_isSome_iff definitions (.record rule) [] payload
  rw [RecordRule.checkPayload]
  split
  next value outcome => exact iff_of_true ⟨value, rfl⟩ (by rw [outcome])
  next value violations faulty outcome =>
    -- Without violations there would be a value, and the first case would have matched.
    refine iff_of_false (by simp) fun clean => ?_
    obtain ⟨accepted, present⟩ := Option.isSome_iff_exists.mp (settled.mpr clean)
    rw [outcome] at clean present
    exact faulty accepted present clean

end PayloadSchema
