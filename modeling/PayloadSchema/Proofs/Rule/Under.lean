import PayloadSchema.Proofs.Rule.Check

/-! # Values inside others

A value has the same normalized value and the same violations wherever it stands in a payload.
Only the places of the violations tell where that is: each begins with the path to the value. -/

namespace PayloadSchema

def Violation.under (outer : Path) (violation : Violation) : Violation :=
  { violation with path := outer ++ violation.path }

def Outcome.under (outer : Path) (outcome : Outcome) : Outcome :=
  ⟨outcome.value, outcome.violations.map (·.under outer)⟩

def FieldOutcome.under (outer : Path) (field : FieldOutcome) : FieldOutcome :=
  { field with outcome := field.outcome.under outer }

theorem Path.append_field (outer inner : Path) (name : String) :
    field (outer ++ inner) name = outer ++ inner.field name :=
  List.append_assoc ..

theorem Path.append_index (outer inner : Path) (position : Nat) :
    index (outer ++ inner) position = outer ++ inner.index position :=
  List.append_assoc ..

section

variable {definitions : Definitions} {outer inner : Path}

theorem Outcome.judge_under (value : Json) (fault : Option Fault) :
    judge (outer ++ inner) value fault = (judge inner value fault).under outer := by
  cases fault <;> rfl

theorem Rule.absent_under (rule : Rule) :
    rule.absent (outer ++ inner) = (rule.absent inner).under outer := by
  cases required : rule.required <;>
    simp [absent, required, Outcome.under, Outcome.refuse, Violation.under]

theorem Rule.checkGiven_under {rule : Rule} {found : Option Json}
    (agree : ∀ value, found = some value → ∀ inner,
      check definitions rule.shape (outer ++ inner) value =
        (check definitions rule.shape inner value).under outer) :
    rule.checkGiven definitions (outer ++ inner) (rule.given? found) =
      (rule.checkGiven definitions inner (rule.given? found)).under outer := by
  cases given : rule.given? found with
  | none => exact rule.absent_under
  | some value => exact agree value ((rule.given?_eq_some_iff found value).mp given).1 inner

theorem checkItems_under {element : Rule} {items : List Json}
    (agree : ∀ item ∈ items, ∀ inner, check definitions element.shape (outer ++ inner) item =
      (check definitions element.shape inner item).under outer) (position : Nat) :
    checkItems definitions element (outer ++ inner) position items =
      (checkItems definitions element inner position items).mapError
        (List.map (·.under outer)) := by
  induction items generalizing position with
  | nil => rfl
  | cons item rest inductionHypothesis =>
    obtain ⟨first, others⟩ := List.forall_mem_cons.mp agree
    have checked : element.checkGiven definitions (outer ++ inner.index position)
        (element.given? (some item)) = (element.checkGiven definitions (inner.index position)
          (element.given? (some item))).under outer :=
      Rule.checkGiven_under fun value same => Option.some.inj same ▸ first
    rw [checkItems_cons, checkItems_cons, Path.append_index, checked, inductionHypothesis others]
    rcases element.checkGiven definitions (inner.index position) (element.given? (some item)) with
      ⟨value, _ | ⟨violation, more⟩⟩
    · cases checkItems definitions element inner (position + 1) rest <;> rfl
    · rfl

theorem RecordRule.conclude_under (rule : RecordRule) (members : Members)
    (fields : List FieldOutcome) :
    rule.conclude (outer ++ inner) members (fields.map (·.under outer)) =
      (rule.conclude inner members fields).under outer := by
  have provided : ((fields.map (·.under outer)).filter (·.provided)).map (·.name) =
      (fields.filter (·.provided)).map (·.name) := by
    rw [List.filter_map, List.map_map]
    rfl
  have violations : rule.violations (outer ++ inner) members (fields.map (·.under outer)) =
      (rule.violations inner members fields).map (·.under outer) := by
    rw [RecordRule.violations, RecordRule.violations, provided]
    simp [List.flatMap_map, List.map_flatMap, FieldOutcome.under, Outcome.under, Violation.under,
      Path.append_field, Function.comp_def]
  have normalized : rule.normalized members (fields.map (·.under outer)) =
      rule.normalized members fields := by
    rw [RecordRule.normalized, RecordRule.normalized, List.filterMap_map]
    rfl
  rw [conclude, conclude, violations, normalized]
  cases rule.violations inner members fields <;> rfl

theorem Shape.kinds (definitions : Definitions) (shape : Shape) :
    shape.isFlat = true ∨ (∃ element, shape = .array element) ∨
      (∃ rule, shape.record? definitions = some rule) ∨
      ∃ message id, shape = .lazy message id ∧ definitions.get? id = none := by
  cases shape with
  | record rule => exact .inr (.inr (.inl ⟨rule, rfl⟩))
  | array element => exact .inr (.inl ⟨element, rfl⟩)
  | lazy message id =>
    cases found : definitions.get? id with
    | none => exact .inr (.inr (.inr ⟨message, id, rfl, found⟩))
    | some rule => exact .inr (.inr (.inl ⟨rule, found⟩))
  | _ => exact .inl rfl

theorem Shape.fault?_undefined {id : MessageId} (missing : definitions.get? id = none)
    (message : String) (value : Json) :
    (Shape.lazy message id).fault? definitions value = some (.undefined message) := by
  simp [fault?, missing]

/-- Where a value stands changes the places of its violations, and nothing else. -/
theorem check_under (shape : Shape) (value : Json) :
    check definitions shape (outer ++ inner) value =
      (check definitions shape inner value).under outer := by
  induction value using Json.inside_induction generalizing shape inner with
  | step value inductionHypothesis =>
    rcases shape.kinds definitions with flat | ⟨element, rfl⟩ | ⟨rule, meaning⟩ |
      ⟨message, id, rfl, missing⟩
    · rw [check_flat definitions flat, check_flat definitions flat, Outcome.judge_under]
    · rcases value.array_cases with ⟨items, rfl⟩ | other
      · rw [check_array, check_array, checkItems_under fun item listed inner =>
          inductionHypothesis item (.item listed) element.shape]
        cases checkItems definitions element inner 0 items <;> rfl
      · rw [check_not_array definitions element other, check_not_array definitions element other]
        rfl
    · rcases value.object_cases with ⟨members, rfl⟩ | other
      · have fields : (rule.fields.map fun field =>
            checkField definitions field.1 field.2 ((outer ++ inner).field field.1) members) =
            (rule.fields.map fun field =>
              checkField definitions field.1 field.2 (inner.field field.1) members).map
                (·.under outer) := by
          rw [List.map_map]
          refine List.map_congr_left fun field _ => ?_
          rw [Function.comp_apply, checkField_eq, checkField_eq, Path.append_field,
            Rule.checkGiven_under fun value found inner =>
              inductionHypothesis value (.member (Members.mem_of_get? found)) field.2.shape]
          rfl
        rw [check_members meaning, check_members meaning, fields, RecordRule.conclude_under]
      · rw [check_not_object meaning other, check_not_object meaning other]
        rfl
    · have faulty := Shape.fault?_undefined missing message value
      rw [check_of_fault faulty, check_of_fault faulty]
      rfl

theorem check_at (shape : Shape) (path : Path) (value : Json) :
    check definitions shape path value = (check definitions shape [] value).under path := by
  rw [← check_under, List.append_nil]

end

end PayloadSchema
