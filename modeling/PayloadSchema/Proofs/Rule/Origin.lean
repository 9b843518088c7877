import PayloadSchema.Proofs.Rule.Check

/-! # Where violations come from

A violation is a fault of the value as a whole, or it was found in an item, or the value
is an object: then it was found in a field, or a key is no field, or a group is at fault. -/

namespace PayloadSchema

/-- What a report of a mismatch calls the values of a shape. -/
def Shape.expected? : Shape → Option String
  | .boolean => some "boolean"
  | .number => some "number"
  | .integer _ => some "integer"
  | .binary => some "bytes"
  | .string | .enum _ _ => some "string"
  | .any => none
  | .record _ | .lazy _ _ => some "object"
  | .array _ => some "array"

/-- The faults of a value as a whole, each with the shape and the value that it is found
    with.  A value of any shape can be of another kind than expected. -/
theorem Shape.fault?_cases {definitions : Definitions} {shape : Shape} {value : Json}
    {fault : Fault} (faulty : shape.fault? definitions value = some fault) :
    (∃ expected, shape.expected? = some expected ∧ fault = .mismatch expected value.kindName) ∨
    (∃ number, shape = .integer true ∧ value = .num number ∧ number.isNegative = true ∧
      fault = .below 0) ∨
    (∃ name allowed text, shape = .enum name allowed ∧ value = .str text ∧ text ∉ allowed ∧
      fault = .unlisted text allowed) ∨
    (∃ message id, shape = .lazy message id ∧ definitions.get? id = none ∧
      fault = .undefined message) := by
  -- Most values are refused for their kind alone.
  have mismatch : ∀ {expected : String}, shape.expected? = some expected →
      expect expected value = some fault →
      ∃ expected, shape.expected? = some expected ∧ fault = .mismatch expected value.kindName :=
    fun named same => ⟨_, named, (Option.some.inj same).symm⟩
  cases shape with
  | integer unsigned =>
    cases value with
    | num number =>
      simp only [Shape.fault?] at faulty
      split at faulty
      next => exact .inl (mismatch rfl faulty)
      next =>
        split at faulty
        next negative =>
          rw [Bool.and_eq_true] at negative
          obtain ⟨rfl, negative⟩ := negative
          exact .inr (.inl ⟨number, rfl, rfl, negative, (Option.some.inj faulty).symm⟩)
        next => cases faulty
    | _ => exact .inl (mismatch rfl faulty)
  | binary =>
    cases value with
    | str text => cases faulty
    | arr items =>
      simp only [Shape.fault?] at faulty
      split at faulty
      next => cases faulty
      next => exact .inl (mismatch rfl faulty)
    | _ => exact .inl (mismatch rfl faulty)
  | enum name allowed =>
    cases value with
    | str text =>
      simp only [Shape.fault?] at faulty
      split at faulty
      next => cases faulty
      next foreign =>
        refine .inr (.inr (.inl ⟨name, allowed, text, rfl, rfl, ?_, (Option.some.inj faulty).symm⟩))
        simpa using foreign
    | _ => exact .inl (mismatch rfl faulty)
  | lazy message id =>
    cases found : definitions.get? id with
    | none =>
      simp only [Shape.fault?, found] at faulty
      exact .inr (.inr (.inr ⟨message, id, rfl, found, (Option.some.inj faulty).symm⟩))
    | some rule =>
      simp only [Shape.fault?, found] at faulty
      cases value with
      | obj members => cases faulty
      | _ => exact .inl (mismatch rfl faulty)
  | any => cases faulty
  | boolean | number | string | record | array =>
    cases value <;> first | exact .inl (mismatch rfl faulty) | cases faulty

theorem Group.fault?_eq_some {group : Group} {provided : List String} {fault : Fault}
    (faulty : group.fault? provided = some fault) :
    (fault = .noneOf group.name group.members ∧
      ∀ member ∈ group.members, provided.contains member = false) ∨
    (fault = .severalOf group.name group.members ∧
      ∃ first second, [first, second].Sublist group.members ∧
        provided.contains first = true ∧ provided.contains second = true) := by
  rw [Group.fault?] at faulty
  split at faulty
  next none =>
    refine .inl ⟨(Option.some.inj faulty).symm, ?_⟩
    simpa using none
  next => cases faulty
  next nonzero several =>
    refine .inr ⟨(Option.some.inj faulty).symm, ?_⟩
    have selected : (group.members.filter fun member => provided.contains member).Sublist
        group.members := List.filter_sublist
    have chosen : ∀ member ∈ group.members.filter fun member => provided.contains member,
        provided.contains member = true := fun member listed => (List.mem_filter.mp listed).2
    -- The selection has at least two members, which stand in the group in their order.
    rcases listed : group.members.filter fun member => provided.contains member with
      _ | ⟨first, _ | ⟨second, rest⟩⟩
    · exact (nonzero (by rw [listed]; rfl)).elim
    · exact (several (by rw [listed]; rfl)).elim
    · rw [listed] at selected chosen
      refine ⟨first, second, .trans ?_ selected, chosen first (by simp), chosen second (by simp)⟩
      simp

namespace RecordRule

def provided (definitions : Definitions) (rule : RecordRule) (path : Path) (members : Members) :
    List String :=
  ((rule.fields.map fun field =>
      checkField definitions field.1 field.2 (path.field field.1) members).filter
    (·.provided)).map (·.name)

theorem conclude_violations (rule : RecordRule) (path : Path) (members : Members)
    (fields : List FieldOutcome) :
    (rule.conclude path members fields).violations = rule.violations path members fields := by
  rw [conclude]
  split
  next clean => exact clean.symm
  next => rfl

/-- What an object can be accused of, beside the violations of its fields. -/
inductive Accuses (rule : RecordRule) (path : Path) (members : Members) (provided : List String) :
    Violation → Prop where
  | undeclared {member : String × Json} (listed : member ∈ rule.undeclared members)
      (closed : rule.allowUnknown = false) :
      Accuses rule path members provided ⟨path.field member.1, .undeclared⟩
  | group {group : Group} (listed : group ∈ rule.groups) {fault : Fault}
      (faulty : group.fault? provided = some fault) :
      Accuses rule path members provided ⟨path, fault⟩

theorem mem_violations {rule : RecordRule} {path : Path} {members : Members}
    {fields : List FieldOutcome} {violation : Violation}
    (found : violation ∈ rule.violations path members fields) :
    (∃ field ∈ fields, violation ∈ field.outcome.violations) ∨
      rule.Accuses path members ((fields.filter (·.provided)).map (·.name)) violation := by
  rw [violations, List.mem_append, List.mem_append] at found
  rcases found with (inner | unknown) | grouped
  · exact .inl (List.mem_flatMap.mp inner)
  · obtain ⟨member, listed, rfl⟩ := List.mem_map.mp unknown
    cases allowed : rule.allowUnknown with
    | true => simp [allowed] at listed
    | false => exact .inr (.undeclared (by simpa [allowed] using listed) allowed)
  · obtain ⟨fault, listed, rfl⟩ := List.mem_map.mp grouped
    obtain ⟨group, member, faulty⟩ := List.mem_filterMap.mp listed
    exact .inr (.group member faulty)

end RecordRule

theorem Rule.checkGiven_violation {definitions : Definitions} {rule : Rule} {path : Path}
    {found : Option Json} {violation : Violation}
    (raised : violation ∈ (rule.checkGiven definitions path (rule.given? found)).violations) :
    (violation = ⟨path, .missing⟩ ∧ rule.required = true ∧ rule.given? found = none) ∨
      ∃ value, found = some value ∧
        violation ∈ (check definitions rule.shape path value).violations := by
  cases given : rule.given? found with
  | none =>
    rw [given, checkGiven, absent_violations] at raised
    split at raised
    next required => exact .inl ⟨List.mem_singleton.mp raised, required, rfl⟩
    next => cases raised
  | some value =>
    rw [given] at raised
    exact .inr ⟨value, ((rule.given?_eq_some_iff found value).mp given).1, raised⟩

theorem checkItems_violation {definitions : Definitions} {element : Rule} {path : Path}
    {position : Nat} {items : List Json} {violations : List Violation}
    (refused : checkItems definitions element path position items = .error violations)
    {violation : Violation} (found : violation ∈ violations) :
    ∃ index item, items[index]? = some item ∧
      violation ∈ (element.checkGiven definitions (path.index (position + index))
        (element.given? (some item))).violations := by
  induction items generalizing position with
  | nil => simp [checkItems] at refused
  | cons item rest inductionHypothesis =>
    rw [checkItems_cons] at refused
    split at refused
    next =>
      obtain ⟨index, other, listed, found⟩ := inductionHypothesis (map_eq_error_iff.mp refused)
      refine ⟨index + 1, other, listed, ?_⟩
      rw [show position + (index + 1) = position + 1 + index by omega]
      exact found
    next value others faulty checked =>
      cases refused
      refine ⟨0, item, rfl, ?_⟩
      rw [Nat.add_zero, checked]
      exact found

/-- The origin of a violation, by the shape and the value that it was found with. -/
theorem check_violation {definitions : Definitions} {shape : Shape} {path : Path} {value : Json}
    {violation : Violation} (found : violation ∈ (check definitions shape path value).violations) :
    (∃ fault, shape.fault? definitions value = some fault ∧ violation = ⟨path, fault⟩) ∨
    (∃ element items, shape = .array element ∧ value = .arr items ∧
      ∃ index item, items[index]? = some item ∧
        violation ∈ (element.checkGiven definitions (path.index index)
          (element.given? (some item))).violations) ∨
    ∃ (rule : RecordRule) (members : Members),
      shape.record? definitions = some rule ∧ value = .obj members ∧
      ((∃ field ∈ rule.fields,
        violation ∈ (field.2.checkGiven definitions (path.field field.1)
          (field.2.given? (members.get? field.1))).violations) ∨
        rule.Accuses path members (rule.provided definitions path members) violation) := by
  obtain ⟨fault, faulty, refused⟩ | ⟨element, items, rfl, rfl⟩ | ⟨rule, members, meaning, rfl⟩ |
    accepted := check_cases definitions shape path value
  · rw [refused, Outcome.refuse, List.mem_singleton] at found
    exact .inl ⟨fault, faulty, found⟩
  · rw [check_array] at found
    split at found
    next => cases found
    next refused =>
      obtain ⟨index, item, listed, inner⟩ := checkItems_violation refused found
      rw [Nat.zero_add] at inner
      exact .inr (.inl ⟨element, items, rfl, rfl, index, item, listed, inner⟩)
  · refine .inr (.inr ⟨rule, members, meaning, rfl, ?_⟩)
    rw [check_members meaning, RecordRule.conclude_violations] at found
    cases RecordRule.mem_violations found with
    | inl own =>
      obtain ⟨outcome, listed, inner⟩ := own
      obtain ⟨field, declared, rfl⟩ := List.mem_map.mp listed
      rw [checkField_eq] at inner
      exact .inl ⟨field, declared, inner⟩
    | inr accused => exact .inr accused
  · rw [accepted] at found
    cases found

end PayloadSchema
