import PayloadSchema.Proofs.Json.Equality
import PayloadSchema.Proofs.Rule.Collect

/-! # Failures are told twice

A check that shares its violations tells a failure twice: it gives no value, and the list has
grown.  The two always agree, whatever the rule and the definitions are, and what was found before
stays as it is.  Only a value that is absent, and may be, leaves neither a value nor a violation. -/

namespace PayloadSchema

/-- Whether an outcome keeps the violations that were found before it, and has a value just if it
    adds none to them. -/
structure Outcome.Candid (found : List Violation) (outcome : Outcome) : Prop where
  kept : found <+: outcome.violations
  settled : outcome.value.isSome ↔ outcome.violations = found

theorem Outcome.candid_after {outcome : Outcome}
    (settled : outcome.value.isSome ↔ outcome.violations = []) (found : List Violation) :
    (outcome.after found).Candid found where
  kept := List.prefix_append found outcome.violations
  settled := by rw [after_value, after_violations, settled, List.append_right_eq_self]

@[simp] theorem Outcome.after_nil (outcome : Outcome) : outcome.after [] = outcome := rfl

theorem hasGrown_iff {found violations : List Violation} (kept : found <+: violations) :
    hasGrown found violations = true ↔ violations ≠ found := by
  obtain ⟨own, rfl⟩ := kept
  rw [hasGrown_append, ne_eq, ne_eq, List.append_right_eq_self]

theorem collect_candid (definitions : Definitions) (shape : Shape) (path : Path)
    (found : List Violation) (value : Json) :
    (collect definitions shape path found value).Candid found := by
  rw [collect_eq]
  exact Outcome.candid_after (check_value_isSome_iff definitions shape path value) found

namespace Rule

def collectSlot (definitions : Definitions) (rule : Rule) (path : Path) (found : List Violation)
    (value : Option Json) : Outcome :=
  match rule.given? value with
  | some value => collect definitions rule.shape path found value
  | none => rule.collectAbsent path found

/-- Whether a value is absent, and neither required nor filled in. -/
def StaysAbsent (rule : Rule) (value : Option Json) : Prop :=
  rule.given? value = none ∧ rule.required = false ∧ rule.default = none

variable {definitions : Definitions} {rule : Rule} {path : Path} {found : List Violation}
  {value : Option Json}

theorem collectSlot_of_given {given : Json} (present : rule.given? value = some given) :
    rule.collectSlot definitions path found value =
      collect definitions rule.shape path found given := by
  rw [collectSlot, present]

theorem collectSlot_of_absent (absent : rule.given? value = none) :
    rule.collectSlot definitions path found value = (rule.absent path).after found := by
  rw [collectSlot, absent]
  exact rule.collectAbsent_eq path found

theorem collectSlot_kept (definitions : Definitions) (rule : Rule) (path : Path)
    (found : List Violation) (value : Option Json) :
    found <+: (rule.collectSlot definitions path found value).violations := by
  cases given : rule.given? value with
  | some value =>
    rw [collectSlot_of_given given]
    exact (collect_candid definitions rule.shape path found value).kept
  | none =>
    rw [collectSlot_of_absent given]
    exact List.prefix_append ..

theorem collectSlot_silent_iff (definitions : Definitions) (rule : Rule) (path : Path)
    (found : List Violation) (value : Option Json) :
    (rule.collectSlot definitions path found value).violations = found ↔
      (rule.collectSlot definitions path found value).value.isSome ∨ rule.StaysAbsent value := by
  cases given : rule.given? value with
  | some value =>
    rw [collectSlot_of_given given,
      (collect_candid definitions rule.shape path found value).settled]
    simp [StaysAbsent, given]
  | none =>
    rw [collectSlot_of_absent given, Outcome.after_violations, Outcome.after_value,
      List.append_right_eq_self, absent_violations, absent_value_isSome]
    cases required : rule.required <;> cases default : rule.default <;>
      simp [StaysAbsent, fills, given, required, default]

end Rule

section

variable (definitions : Definitions) (path : Path) (found : List Violation)

theorem collectField_eq_slot (name : String) (rule : Rule) (members : Members) :
    collectField definitions name rule path found members =
      let slot := rule.collectSlot definitions path found (members.get? name)
      ⟨name, (rule.given? (members.get? name)).isSome || slot.value.isSome, slot⟩ := by
  rw [collectField_eq fun member _ => collect_eq definitions rule.shape path found member.2,
    checkField_eq]
  cases given : rule.given? (members.get? name) with
  | some value => simp [FieldOutcome.after, Rule.collectSlot_of_given given, collect_eq,
      Rule.checkGiven]
  | none => simp [FieldOutcome.after, Rule.collectSlot_of_absent given, Rule.checkGiven]

theorem collectItems_cons_slot (element : Rule) (position : Nat) (item : Json) (rest : List Json) :
    collectItems definitions element path position found (item :: rest) =
      let slot := element.collectSlot definitions (path.index position) found (some item)
      if hasGrown found slot.violations then (none, slot.violations)
      else
        let (values, violations) :=
          collectItems definitions element path (position + 1) slot.violations rest
        (values.map (slot.value.getD .null :: ·), violations) := by
  rw [collectItems, Rule.collectSlot, Rule.given?_some]
  cases element.isEmpty item <;> rfl

variable {definitions path found}

/-- The items of an array have values just if none of them adds a violation.  Along the items the
    list stays what it was, until it grows and the walk ends. -/
theorem collectItems_candid {element : Rule} {position : Nat} (items : List Json) :
    found <+: (collectItems definitions element path position found items).2 ∧
      ((collectItems definitions element path position found items).1.isSome ↔
        (collectItems definitions element path position found items).2 = found) := by
  induction items generalizing position with
  | nil => exact ⟨List.prefix_refl found, iff_of_true rfl rfl⟩
  | cons item rest inductionHypothesis =>
    have kept := element.collectSlot_kept definitions (path.index position) found (some item)
    rw [collectItems_cons_slot]
    by_cases silent : (element.collectSlot definitions (path.index position) found
      (some item)).violations = found
    · simpa [silent] using inductionHypothesis
    · simp only [(hasGrown_iff kept).mpr silent, if_true]
      exact ⟨kept, iff_of_false (by simp) silent⟩

end

namespace RecordRule

variable {definitions : Definitions} {rule : RecordRule} {payload : Json}

theorem checkPayload_eq_ok_iff {value : Json} :
    rule.checkPayload definitions payload = .ok value ↔
      collect definitions (.record rule) [] [] payload = ⟨some value, []⟩ := by
  rw [collect_eq, Outcome.after_nil, checkPayload]
  rcases check definitions (.record rule) [] payload with ⟨_ | accepted, _ | ⟨violation, more⟩⟩ <;>
    simp

theorem checkPayload_eq_error_iff {violations : List Violation} :
    rule.checkPayload definitions payload = .error violations ↔
      violations ≠ [] ∧ collect definitions (.record rule) [] [] payload = ⟨none, violations⟩ := by
  have settled := check_value_isSome_iff definitions (.record rule) [] payload
  rw [collect_eq, Outcome.after_nil, checkPayload]
  generalize check definitions (.record rule) [] payload = outcome at settled ⊢
  -- What is left are the two ways to end: a value alone, or violations alone.
  rcases outcome with ⟨_ | accepted, _ | ⟨violation, more⟩⟩
  · simp at settled
  · simp only [Except.error.injEq, Outcome.mk.injEq, true_and, ne_eq]
    exact ⟨fun same => ⟨same ▸ List.cons_ne_nil _ _, same⟩, And.right⟩
  · simp
  · simp at settled

end RecordRule

/-- No failure is silent, and no success: a check of a value, of the items of an array or of a slot
    that is given a value keeps all violations that were found before, and has a value just if it
    adds none.  A slot in general has a value, a new violation, or what stays absent.  So a payload
    is accepted just if nothing at all is found, and refused with what is found otherwise. -/
theorem collect_never_silent (definitions : Definitions) (path : Path) (found : List Violation) :
    (∀ (shape : Shape) (value : Json),
      (collect definitions shape path found value).Candid found) ∧
    (∀ (element : Rule) (position : Nat) (items : List Json),
      found <+: (collectItems definitions element path position found items).2 ∧
      ((collectItems definitions element path position found items).1.isSome ↔
        (collectItems definitions element path position found items).2 = found)) ∧
    (∀ (rule : Rule) (value : Json), rule.isEmpty value = false →
      (rule.collectSlot definitions path found (some value)).Candid found) ∧
    (∀ (rule : Rule) (value : Option Json),
      found <+: (rule.collectSlot definitions path found value).violations ∧
      ((rule.collectSlot definitions path found value).violations = found ↔
        (rule.collectSlot definitions path found value).value.isSome ∨ rule.StaysAbsent value)) ∧
    (∀ (name : String) (rule : Rule) (members : Members),
      (collectField definitions name rule path found members).outcome =
        rule.collectSlot definitions path found (members.get? name)) ∧
    ∀ (rule : RecordRule) (payload : Json),
      (∀ value, rule.checkPayload definitions payload = .ok value ↔
        collect definitions (.record rule) [] [] payload = ⟨some value, []⟩) ∧
      ∀ violations, rule.checkPayload definitions payload = .error violations ↔
        violations ≠ [] ∧
          collect definitions (.record rule) [] [] payload = ⟨none, violations⟩ := by
  refine ⟨fun shape value => collect_candid definitions shape path found value,
    fun _ _ items => collectItems_candid items, fun rule value present => ?_, fun rule value => ?_,
    fun name rule members => ?_, fun rule payload => ?_⟩
  · have given : rule.given? (some value) = some value := by simp [Rule.given?_some, present]
    rw [Rule.collectSlot_of_given given]
    exact collect_candid definitions rule.shape path found value
  · exact ⟨rule.collectSlot_kept definitions path found value,
      rule.collectSlot_silent_iff definitions path found value⟩
  · rw [collectField_eq_slot]
  · exact ⟨fun _ => RecordRule.checkPayload_eq_ok_iff,
      fun _ => RecordRule.checkPayload_eq_error_iff⟩

/-- A list of nodes, where a blank stands for a default and what a node is stands nowhere. -/
def blankNodes : Rule where
  shape := .array { shape := .lazy "Node" 3, default := some .null, empty := [.str ""] }
  required := true
  empty := [.arr []]

/-- The second node of a list is what the check stops at, behind a violation that was there. -/
theorem blankNodes_never_silent :
    let found : List Violation := [⟨[], .undeclared⟩]
    let nodes : Json := .arr [.str "", .obj [], .num (.int 1)]
    let outcome := blankNodes.collectSlot [] [] found (some nodes)
    blankNodes.isEmpty nodes = false ∧ outcome.Candid found ∧ outcome.value = none ∧
      outcome.violations = found ++ [⟨[.index 1], .undefined "Node"⟩] := by
  have given : blankNodes.isEmpty (.arr [.str "", .obj [], .num (.int 1)]) = false := by decide
  exact ⟨given, (collect_never_silent [] [] _).2.2.1 blankNodes _ given, by decide, by decide⟩

end PayloadSchema
