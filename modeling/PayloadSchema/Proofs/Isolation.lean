import PayloadSchema.Proofs.Interpretation.Agreement
import PayloadSchema.Proofs.Separation

/-! # Fields that keep to themselves

Two objects that differ in the value of one field only are refused for the same reasons, apart
from those that concern the field, and what comes out of them differs in that field only.  To the
object a field gives its own violations, its normalized value, and that it is provided.  The
violations stand below the name of the field and the value stands under it, and a field is
provided by any value that does not count as absent, be it valid or not. -/

namespace PayloadSchema

def Members.MatchBut (name : String) (member other : String × Json) : Prop :=
  member.1 = other.1 ∧ (member.1 ≠ name → member.2 = other.2)

/-- Whether objects have the same keys in the same order, and the same values but for one key. -/
def Members.AgreeBut (name : String) (first second : Members) : Prop :=
  List.Forall₂ (MatchBut name) first second

namespace Members.AgreeBut

variable {name : String} {first second : Members}

theorem get?_isSome (agree : first.AgreeBut name second) (key : String) :
    (first.get? key).isSome = (second.get? key).isSome := by
  induction agree with
  | nil => rfl
  | @cons member other _ _ same _ inductionHypothesis =>
    obtain ⟨known, value⟩ := member
    obtain ⟨_, changed⟩ := other
    obtain ⟨rfl, _⟩ := same
    by_cases found : key = known
    · simp [found]
    · rw [get?_cons_ne found, get?_cons_ne found, inductionHypothesis]

theorem get?_of_ne (agree : first.AgreeBut name second) {key : String} (other : key ≠ name) :
    first.get? key = second.get? key := by
  induction agree with
  | nil => rfl
  | @cons member changed _ _ same _ inductionHypothesis =>
    obtain ⟨known, value⟩ := member
    obtain ⟨_, changed⟩ := changed
    obtain ⟨rfl, same⟩ := same
    by_cases found : key = known
    · subst found
      have equal : value = changed := same other
      rw [get?_cons_self, get?_cons_self, equal]
    · rw [get?_cons_ne found, get?_cons_ne found, inductionHypothesis]

/-- What stands under the keys that are no fields is not the value that may differ. -/
theorem undeclared (agree : first.AgreeBut name second) {rule : RecordRule}
    (declared : rule.declares name = true) : rule.undeclared first = rule.undeclared second := by
  induction agree with
  | nil => rfl
  | @cons member other _ _ same _ inductionHypothesis =>
    obtain ⟨key, value⟩ := member
    obtain ⟨_, changed⟩ := other
    obtain ⟨rfl, same⟩ := same
    simp only [RecordRule.undeclared, List.filter_cons] at inductionHypothesis ⊢
    by_cases known : rule.declares key = true
    · simpa [known] using inductionHypothesis
    · have differs : key ≠ name := fun shared => known (shared ▸ declared)
      have equal : value = changed := same differs
      simpa [known, equal] using inductionHypothesis

theorem refl (members : Members) : members.AgreeBut name members :=
  List.forall₂_same.mpr fun _ _ => ⟨rfl, fun _ => rfl⟩

end Members.AgreeBut

/-- Whether objects differ in the value of one field of a rule only, and both give it a value or
    neither does. -/
structure RecordRule.DifferIn (rule : RecordRule) (name : String) (first second : Members) :
    Prop where
  agree : first.AgreeBut name second
  declared : rule.declares name = true
  given : ∀ field ∈ rule.fields, field.1 = name →
    (field.2.given? (first.get? name)).isSome = (field.2.given? (second.get? name)).isSome

/-- Whether a violation does not concern a field of the payload. -/
def Violation.isOutside (name : String) (violation : Violation) : Bool :=
  violation.path.head? ≠ some (.field name)

theorem Violation.isOutside_under {name : String} (field : String) (violation : Violation) :
    (violation.under [.field field]).isOutside name = true ↔ field ≠ name := by
  simp [isOutside, under]

theorem Rule.checkGiven_value_isSome {definitions : Definitions} {rule : Rule} {path : Path}
    {found : Option Json} (clean : (rule.checkGiven definitions path found).violations = []) :
    (rule.checkGiven definitions path found).value.isSome = (found.isSome || rule.fills) := by
  cases found with
  | none => rw [checkGiven, absent_value_isSome]; rfl
  | some value => exact (check_value_isSome_iff definitions rule.shape path value).mpr clean

namespace RecordRule.DifferIn

variable {rule : RecordRule} {name : String} {first second : Members} {definitions : Definitions}

theorem given_isSome (differ : rule.DifferIn name first second) {field : String × Rule}
    (listed : field ∈ rule.fields) :
    (field.2.given? (first.get? field.1)).isSome =
      (field.2.given? (second.get? field.1)).isSome := by
  by_cases same : field.1 = name
  · rw [same]
    exact differ.given field listed same
  · rw [differ.agree.get?_of_ne same]

theorem provides_iff (differ : rule.DifferIn name first second) (member : String) :
    rule.Provides first member ↔ rule.Provides second member := by
  have carries : ∀ field ∈ rule.fields, ((∃ value, field.2.Carries first field.1 value) ↔
      ∃ value, field.2.Carries second field.1 value) := by
    intro field listed
    simp only [Rule.carries_iff, ← Option.isSome_iff_exists, differ.given_isSome listed]
  constructor
  · rintro ⟨field, listed, rfl, provides⟩
    exact ⟨field, listed, rfl, provides.imp_left (carries field listed).mp⟩
  · rintro ⟨field, listed, rfl, provides⟩
    exact ⟨field, listed, rfl, provides.imp_left (carries field listed).mpr⟩

theorem countProvided_eq (differ : rule.DifferIn name first second) (group : Group) :
    rule.countProvided first group = rule.countProvided second group := by
  refine List.countP_congr fun member _ => ?_
  rw [decide_eq_true_iff, decide_eq_true_iff, differ.provides_iff]

theorem violations_eq (differ : rule.DifferIn name first second) :
    (check definitions (.record rule) [] (.obj first)).violations.filter (·.isOutside name) =
      (check definitions (.record rule) [] (.obj second)).violations.filter (·.isOutside name) := by
  have meaning : (Shape.record rule).record? definitions = some rule := rfl
  rw [check_object_violations meaning, check_object_violations meaning,
    differ.agree.undeclared differ.declared]
  simp only [List.filter_append, differ.countProvided_eq]
  congr 2
  -- Only the fields are left, which concern themselves alone.
  rw [List.filter_flatMap, List.filter_flatMap]
  refine List.flatMap_congr fun field _ => ?_
  by_cases same : field.1 = name
  · have none : ∀ found : List Violation,
        (found.map (·.under [.field field.1])).filter (·.isOutside name) = [] := by
      intro found
      rw [List.filter_eq_nil_iff, List.forall_mem_map]
      exact fun violation _ => by simp [Violation.isOutside_under, same]
    rw [none, none]
  · rw [differ.agree.get?_of_ne same]

theorem members_match (differ : rule.DifferIn name first second) {field : String × Rule}
    (listed : field ∈ rule.fields) {path : Path}
    (clean : (checkField definitions field.1 field.2 path first).outcome.violations = [])
    (otherClean : (checkField definitions field.1 field.2 path second).outcome.violations = []) :
    Option.Rel (Members.MatchBut name)
      ((checkField definitions field.1 field.2 path first).outcome.value.map
        ((checkField definitions field.1 field.2 path first).name, ·))
      ((checkField definitions field.1 field.2 path second).outcome.value.map
        ((checkField definitions field.1 field.2 path second).name, ·)) := by
  simp only [checkField_eq] at clean otherClean ⊢
  by_cases same : field.1 = name
  · have both := Rule.checkGiven_value_isSome clean
    rw [differ.given_isSome listed, ← Rule.checkGiven_value_isSome otherClean] at both
    generalize (field.2.checkGiven definitions path (field.2.given? (first.get? field.1))).value =
      value at both ⊢
    generalize (field.2.checkGiven definitions path (field.2.given? (second.get? field.1))).value =
      other at both ⊢
    -- The values may differ, since they stand under the key that may.
    cases value <;> cases other <;> simp_all [Members.MatchBut]
  · rw [differ.agree.get?_of_ne same]
    cases (field.2.checkGiven definitions path (field.2.given? (second.get? field.1))).value <;>
      simp [Members.MatchBut]

theorem normalized_agreeBut (differ : rule.DifferIn name first second) {path : Path}
    (clean : ∀ field ∈ rule.fields, (checkField definitions field.1 field.2
      (path.field field.1) first).outcome.violations = [])
    (otherClean : ∀ field ∈ rule.fields, (checkField definitions field.1 field.2
      (path.field field.1) second).outcome.violations = []) :
    Members.AgreeBut name
      (rule.normalized first (rule.fields.map fun field =>
        checkField definitions field.1 field.2 (path.field field.1) first))
      (rule.normalized second (rule.fields.map fun field =>
        checkField definitions field.1 field.2 (path.field field.1) second)) := by
  rw [normalized, normalized, differ.agree.undeclared differ.declared, List.filterMap_map,
    List.filterMap_map]
  refine List.rel_append ?_ (Members.AgreeBut.refl _)
  have related : List.Forall₂ (fun field other => field = other ∧ field ∈ rule.fields)
      rule.fields rule.fields := List.forall₂_same.mpr fun field listed => ⟨rfl, listed⟩
  refine List.rel_filterMap ?_ related
  rintro field _ ⟨rfl, listed⟩
  exact differ.members_match listed (clean field listed) (otherClean field listed)

end RecordRule.DifferIn

theorem checkPayload_object {definitions : Definitions} {rule : RecordRule} {members : Members}
    {value : Json} (accepted : rule.checkPayload definitions (.obj members) = .ok value) :
    value = .obj (rule.normalized members (rule.fields.map fun field =>
      checkField definitions field.1 field.2 (Path.field [] field.1) members)) ∧
    ∀ field ∈ rule.fields,
      (checkField definitions field.1 field.2 (Path.field [] field.1) members).outcome.violations =
        [] := by
  have meaning : (Shape.record rule).record? definitions = some rule := rfl
  rw [RecordRule.checkPayload, check_members meaning, RecordRule.conclude] at accepted
  cases found : rule.violations [] members (rule.fields.map fun field =>
      checkField definitions field.1 field.2 (Path.field [] field.1) members) with
  | cons violation more => simp [found] at accepted
  | nil =>
    simp only [found, Outcome.accept, Except.ok.injEq] at accepted
    simp only [RecordRule.violations, List.append_eq_nil_iff, List.flatMap_eq_nil_iff,
      List.forall_mem_map] at found
    exact ⟨accepted.symm, found.1.1⟩

namespace Validator

def violations (validator : Validator) (payload : Json) : List Violation :=
  match validator.validate payload with
  | .ok _ => []
  | .error violations => violations

theorem violations_eq_check (validator : Validator) (payload : Json) :
    validator.violations payload =
      (check validator.definitions (.record validator.rule) [] payload).violations := by
  rw [violations, validate]
  cases result : validator.rule.checkPayload validator.definitions payload with
  | ok value => exact ((checkPayload_ok_iff _ _ _).mp ⟨value, result⟩).symm
  | error violations => exact (checkPayload_eq_error result).symm

end Validator

/-! ## Schemas -/

namespace Schema

variable {schema : Schema} {options : Options} {registry : Registry}

/-- The value of one field, as long as it does not count as absent, has no effect on what is said
    of the rest of an object, nor on what comes out of the rest. -/
theorem validate_isolated (compiled : schema.compile options = .ok registry)
    {validator : Validator} (listed : validator ∈ registry.validators) :
    ∃ root ∈ (Catalog.ofSchema schema).topLevel, validator.name = root.1.message.name ∧
      ∀ field ∈ root.1.message.fields, ∀ first second : Members,
        first.AgreeBut field.name second →
        (∀ value, first.get? field.name = some value ∨ second.get? field.name = some value →
          ∀ empty ∈ options.empty, empty.equal value = false) →
        (validator.violations (.obj first)).filter (·.isOutside field.name) =
          (validator.violations (.obj second)).filter (·.isOutside field.name) ∧
        ∀ value other, validator.validate (.obj first) = .ok value →
          validator.validate (.obj second) = .ok other →
          ∃ members others : Members, value = .obj members ∧ other = .obj others ∧
            members.AgreeBut field.name others := by
  obtain ⟨root, top, serves⟩ := serves_of_mem compiled listed
  refine ⟨root, top, serves.name, fun field declared first second agree filled => ?_⟩
  have empties : ∀ named ∈ validator.rule.fields, named.2.empty = options.empty := by
    intro named among
    obtain ⟨_, _, _, type, typed, composed⟩ := serves.image.of_rule among
    rw [typed.rule_eq composed, Field.ruleOf_empty]
  -- Whatever stands under the name is given to the field.
  have given : ∀ named ∈ validator.rule.fields, ∀ members : Members,
      (∀ value, members.get? field.name = some value →
        ∀ empty ∈ options.empty, empty.equal value = false) →
      named.2.given? (members.get? field.name) = members.get? field.name := by
    intro named among members filled
    cases found : members.get? field.name with
    | none => rfl
    | some value =>
      rw [Rule.given?_eq_some_iff, Rule.isEmpty, empties named among]
      exact ⟨rfl, by simpa using filled value found⟩
  have differ : validator.rule.DifferIn field.name first second := by
    refine ⟨agree, ?_, fun named among _ => ?_⟩
    · rw [RecordRule.declares_iff, serves.image.names.2]
      exact List.mem_map_of_mem declared
    · rw [given named among first fun value found => filled value (.inl found),
        given named among second fun value found => filled value (.inr found),
        agree.get?_isSome]
  constructor
  · rw [validator.violations_eq_check, validator.violations_eq_check, differ.violations_eq]
  · intro value other accepted otherAccepted
    obtain ⟨rfl, clean⟩ := checkPayload_object accepted
    obtain ⟨rfl, otherClean⟩ := checkPayload_object otherAccepted
    exact ⟨_, _, rfl, rfl, differ.normalized_agreeBut clean otherClean⟩

/-- A parcel with two addresses around another one. -/
def misaddressed (inner : Json) : Members :=
  [("inner", inner), ("home", .str "A"), ("office", .str "B"), ("weight", .str "heavy"),
    ("cash", .bool true)]

def addressed (inner : Json) : Members :=
  [("inner", inner), ("home", .str "A"), ("weight", .num (.int 2)), ("cash", .bool true)]

def gift : Json := .obj [("weight", .num (.int 1)), ("office", .str "C"), ("card", .bool true)]

def letter : Json := .obj [("weight", .num (.int 0)), ("home", .str "D"), ("cash", .bool false)]

/-- What is inside a parcel says nothing about the parcel itself, neither about its faults nor
    about its value. -/
theorem gift_isolated :
    ∃ registry, parcels.compile {} = .ok registry ∧ ∃ validator ∈ registry.validators,
      (validator.violations (.obj (misaddressed (.obj [])))).length = 5 ∧
      (validator.violations (.obj (misaddressed gift))).length = 2 ∧
      (validator.violations (.obj (misaddressed (.obj [])))).filter (·.isOutside "inner") =
        (validator.violations (.obj (misaddressed gift))).filter (·.isOutside "inner") ∧
      ∃ members others : Members,
        validator.validate (.obj (addressed gift)) = .ok (.obj members) ∧
        validator.validate (.obj (addressed letter)) = .ok (.obj others) ∧
        members.AgreeBut "inner" others := by
  have evaluated : (parcels.compile {}).toOption.bind (fun registry =>
      (registry.get? "Parcel").map fun validator =>
        ((validator.violations (.obj (misaddressed (.obj [])))).length,
          (validator.violations (.obj (misaddressed gift))).length,
          (validator.validate (.obj (addressed gift))).isOk,
          (validator.validate (.obj (addressed letter))).isOk)) =
      some (5, 2, true, true) := by decide +kernel
  have inner : ∀ root ∈ (Catalog.ofSchema parcels).topLevel,
      ∃ field ∈ root.1.message.fields, field.name = "inner" := by decide +kernel
  have aside : ∀ one other : Json, (misaddressed one).AgreeBut "inner" (misaddressed other) ∧
      (addressed one).AgreeBut "inner" (addressed other) := by
    simp [misaddressed, addressed, Members.AgreeBut, Members.MatchBut]
  obtain ⟨registry, compiled, served⟩ := Option.bind_eq_some_iff.mp evaluated
  obtain ⟨validator, named, outcomes⟩ := Option.map_eq_some_iff.mp served
  simp only [Prod.mk.injEq] at outcomes
  obtain ⟨faults, fewer, accepted, otherAccepted⟩ := outcomes
  obtain ⟨value, passed⟩ := exists_of_isOk accepted
  obtain ⟨other, otherPassed⟩ := exists_of_isOk otherAccepted
  have succeeded := toOption_eq_some_iff.mp compiled
  have listed := List.mem_of_find?_eq_some named
  obtain ⟨root, top, _, isolated⟩ := validate_isolated succeeded listed
  obtain ⟨field, declared, same⟩ := inner root top
  have reported := (isolated field declared _ _ (same ▸ (aside (.obj []) gift).1) (by simp)).1
  obtain ⟨members, others, rfl, rfl, agree⟩ :=
    (isolated field declared _ _ (same ▸ (aside gift letter).2) (by simp)).2 value other passed
      otherPassed
  rw [same] at reported agree
  exact ⟨registry, succeeded, validator, listed, faults, fewer, reported, members, others, passed,
    otherPassed, agree⟩

end Schema

end PayloadSchema
