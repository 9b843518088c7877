import PayloadSchema.Proofs.Registry
import PayloadSchema.Proofs.Rule.Conforms
import PayloadSchema.Proofs.Schema.Group

/-! # A compiled validator accepts what conforms

Compiled rules have two properties that rules at large need not have: nothing counts as
absent among the items of a list, and the fields of a message have distinct names.  With
them a check finds no violation exactly where the value conforms. -/

namespace PayloadSchema

section

variable {catalog : Catalog} {options : Options} {definitions : Definitions}

theorem RecordImage.groups_nodup {known : List MessageId} {rule : RecordRule}
    {target : catalog.Listed} (image : RecordImage catalog options known rule target)
    (distinct : target.1.message.FieldsDistinct) : ∀ group ∈ rule.groups, group.members.Nodup := by
  intro group listed
  rw [image.groups, Message.groups_eq, groupsOf] at listed
  obtain ⟨tag, _, rfl⟩ := List.mem_map.mp listed
  exact distinct.sublist (taggedWith_sublist tag target.1.message.fields)

theorem conforms_iff_record {shape : Shape} {rule : RecordRule}
    (meaning : shape.record? definitions = some rule) (value : Json) :
    Conforms definitions shape value ↔ Conforms definitions (.record rule) value := by
  cases shape with
  | record own =>
    cases meaning
    exact Iff.rfl
  | lazy message id =>
    constructor
    · intro conforms
      cases conforms with
      | lazy defined conforms =>
        cases defined.symm.trans meaning
        exact conforms
    · exact .lazy meaning
  | _ => cases meaning

/-- A check of an image finds nothing exactly if the value conforms.  The induction is on
    the value: a lazy shape leads to another rule for the same value, which asks for its
    members only. -/
theorem check_iff_conforms (sound : definitions.Sound catalog options)
    (identified : catalog.Identified)
    (distinct : ∀ entry ∈ catalog.entries, entry.message.FieldsDistinct) {shape : Shape}
    (image : PartImage catalog options (definitions.map Prod.fst) shape) (path : Path)
    (value : Json) :
    (check definitions shape path value).violations = [] ↔ Conforms definitions shape value := by
  induction value using Json.inside_induction generalizing shape path with
  | step value inductionHypothesis =>
    -- A rule in place and one among the definitions are asked about the same members.
    have message : ∀ {shape rule target}, shape.record? definitions = some rule →
        RecordImage catalog options (definitions.map Prod.fst) rule target →
        ((check definitions shape path value).violations = [] ↔
          Conforms definitions shape value) := by
      intro shape rule target meaning image
      rw [conforms_iff_record meaning]
      rcases value.object_cases with ⟨members, rfl⟩ | other
      · refine check_members_iff meaning (image.groups_nodup (distinct _ target.2))
          (fun field declared inner found path => ?_) path
        obtain ⟨_, _, _, type, typed, composed⟩ := image.of_rule declared
        exact inductionHypothesis inner (.member (Members.mem_of_get? found))
          (.of_field typed composed) path
      · rw [check_not_object meaning other]
        refine iff_of_false (by simp [Outcome.refuse]) fun conforms => ?_
        cases conforms with
        | record => exact other _ rfl
    cases image with
    | @type scope name type image =>
      by_cases flat : type.shape.isFlat = true
      · exact check_flat_iff flat path value
      · obtain ⟨target, image⟩ := image.message_of_not_flat (by simpa using flat)
        obtain ⟨rule, meaning, image⟩ := image.meaning sound identified
        exact message meaning image
    | rule image => exact message rfl image
    | @items scope name type default image =>
      cases value with
      | arr items =>
        have each := checkItems_iff default path 0
          fun item listed path => inductionHypothesis item (.item listed) (.type image) path
        rw [check_array]
        split
        next values passed => exact iff_of_true rfl (.array (each.mp ⟨values, passed⟩))
        next violations refused =>
          refine iff_of_false (checkItems_error refused) fun conforms => ?_
          cases conforms with
          | array conform =>
            obtain ⟨values, passed⟩ := each.mpr conform
            rw [refused] at passed
            cases passed
      | _ =>
        rw [check_not_array definitions _ (by simp)]
        refine iff_of_false (by simp [Outcome.refuse]) fun conforms => ?_
        cases conforms

end

namespace Schema

variable {schema : Schema} {options : Options} {registry : Registry}

/-- A validator of a compiled schema accepts exactly the payloads that conform to its rule. -/
theorem validate_ok_iff_conforms (compiled : schema.compile options = .ok registry)
    {validator : Validator} (listed : validator ∈ registry.validators) (payload : Json) :
    (∃ value, validator.validate payload = .ok value) ↔
      Conforms validator.definitions (.record validator.rule) payload := by
  obtain ⟨root, _, serves⟩ := serves_of_mem compiled listed
  have distinct := fieldsDistinct_of_checkNames (compile_eq_ok_iff.mp compiled).1
  rw [Validator.validate, checkPayload_ok_iff]
  exact check_iff_conforms serves.sound (Catalog.ofSchema_identified schema) distinct
    (.rule serves.image) [] payload

theorem owned_conforms :
    ∃ registry, accounts.compile {} = .ok registry ∧ ∃ validator ∈ registry.validators,
      Conforms validator.definitions (.record validator.rule) owned ∧
      ¬ Conforms validator.definitions (.record validator.rule) ownerless := by
  obtain ⟨registry, compiled⟩ := accounts_compile
  have evaluated : (accounts.compile {}).toOption.bind (fun registry =>
      (registry.get? "Account").map fun validator =>
        ((validator.validate owned).isOk, (validator.validate ownerless).isOk)) =
      some (true, false) := by decide +kernel
  rw [compiled] at evaluated
  obtain ⟨validator, found, outcomes⟩ := Option.map_eq_some_iff.mp evaluated
  rw [Prod.mk.injEq] at outcomes
  have listed := List.mem_of_find?_eq_some found
  have accepts := validate_ok_iff_conforms compiled listed
  refine ⟨registry, compiled, validator, listed, (accepts owned).mp ?_, fun conforms => ?_⟩
  · cases accepted : validator.validate owned with
    | ok value => exact ⟨value, rfl⟩
    | error violations => simp [accepted, Except.isOk, Except.toBool] at outcomes
  · obtain ⟨value, accepted⟩ := (accepts ownerless).mpr conforms
    simp [accepted, Except.isOk, Except.toBool] at outcomes

end Schema

end PayloadSchema
