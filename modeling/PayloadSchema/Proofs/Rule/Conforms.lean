import Mathlib.Logic.ExistsUnique
import PayloadSchema.Proofs.Rule.Origin

/-! # Conforming values

When a value conforms to a shape, said without an order of checks: which members an object
has to have and may have, and what holds of each of them.  The relation knows nothing of
violations, of places or of normalized values. -/

namespace PayloadSchema

/-- Whether an object gives a field a value, one that does not count as absent. -/
def Rule.Carries (rule : Rule) (members : Members) (name : String) (value : Json) : Prop :=
  members.get? name = some value ∧ ∀ empty ∈ rule.empty, empty.equal value = false

/-- Whether a field of the name has a value, be it by default. -/
def RecordRule.Provides (rule : RecordRule) (members : Members) (name : String) : Prop :=
  ∃ field ∈ rule.fields, field.1 = name ∧
    ((∃ value, field.2.Carries members name value) ∨
      field.2.required = false ∧ ∃ default, field.2.default = some default)

/-- Whether a value conforms to a shape. -/
inductive Conforms (definitions : Definitions) : Shape → Json → Prop where
  | boolean (value : Bool) : Conforms definitions .boolean (.bool value)
  | number (value : Number) : Conforms definitions .number (.num value)
  | integer {unsigned : Bool} {value : Number} (integral : value.isIntegral = true)
      (sign : unsigned = true → value.isNegative = false) :
      Conforms definitions (.integer unsigned) (.num value)
  | text (value : String) : Conforms definitions .binary (.str value)
  | bytes {items : List Json}
      (each : ∀ item ∈ items, ∃ byte : Int, item = .num (.int byte) ∧ 0 ≤ byte ∧ byte ≤ 255) :
      Conforms definitions .binary (.arr items)
  | string (value : String) : Conforms definitions .string (.str value)
  | any (value : Json) : Conforms definitions .any value
  | enum {name : String} {members : List String} {value : String} (listed : value ∈ members) :
      Conforms definitions (.enum name members) (.str value)
  | array {element : Rule} {items : List Json}
      (each : ∀ item ∈ items, Conforms definitions element.shape item) :
      Conforms definitions (.array element) (.arr items)
  | record {rule : RecordRule} {members : Members}
      (declared : rule.allowUnknown = false →
        ∀ member ∈ members, member.1 ∈ rule.fields.map Prod.fst)
      (carried : ∀ field ∈ rule.fields, ∀ value, field.2.Carries members field.1 value →
        Conforms definitions field.2.shape value)
      (required : ∀ field ∈ rule.fields, field.2.required = true →
        ∃ value, field.2.Carries members field.1 value)
      -- A group counts what is provided, whether it conforms or not.
      (groups : ∀ group ∈ rule.groups,
        ∃! member, member ∈ group.members ∧ rule.Provides members member) :
      Conforms definitions (.record rule) (.obj members)
  | lazy {message : String} {id : MessageId} {rule : RecordRule} {value : Json}
      (defined : definitions.get? id = some rule)
      (conforms : Conforms definitions (.record rule) value) :
      Conforms definitions (.lazy message id) value

variable {definitions : Definitions}

theorem Json.isByte_iff (value : Json) :
    value.isByte = true ↔ ∃ byte : Int, value = .num (.int byte) ∧ 0 ≤ byte ∧ byte ≤ 255 := by
  cases value with
  | num number => cases number <;> simp [isByte]
  | _ => simp [isByte]

theorem conforms_of_fault? {shape : Shape} (flat : shape.isFlat = true) {value : Json}
    (passes : shape.fault? definitions value = none) : Conforms definitions shape value := by
  cases shape with
  | boolean =>
    cases value with
    | bool value => exact .boolean value
    | _ => simp [Shape.fault?, expect] at passes
  | number =>
    cases value with
    | num value => exact .number value
    | _ => simp [Shape.fault?, expect] at passes
  | integer unsigned =>
    cases value with
    | num value =>
      simp only [Shape.fault?, expect] at passes
      split at passes
      next => cases passes
      next integral =>
        split at passes
        next => cases passes
        next sign =>
          refine .integer (by simpa using integral) fun nonnegative => ?_
          simpa [nonnegative] using sign
    | _ => simp [Shape.fault?, expect] at passes
  | binary =>
    cases value with
    | str value => exact .text value
    | arr items =>
      simp only [Shape.fault?, expect] at passes
      split at passes
      next bytes =>
        refine .bytes fun item listed => ?_
        exact (Json.isByte_iff item).mp (List.all_eq_true.mp bytes item listed)
      next => cases passes
    | _ => simp [Shape.fault?, expect] at passes
  | string =>
    cases value with
    | str value => exact .string value
    | _ => simp [Shape.fault?, expect] at passes
  | any => exact .any value
  | enum name members =>
    cases value with
    | str value =>
      simp only [Shape.fault?] at passes
      split at passes
      next listed => exact .enum (by simpa using listed)
      next => cases passes
    | _ => simp [Shape.fault?, expect] at passes
  | record rule | array element | lazy message id => cases flat

theorem Conforms.fault? {shape : Shape} {value : Json}
    (conforms : Conforms definitions shape value) : shape.fault? definitions value = none := by
  cases conforms with
  | boolean | number | text | string | any | array | record => rfl
  | integer integral sign =>
    rename_i unsigned value
    cases unsigned <;> simp_all [Shape.fault?]
  | bytes each =>
    have bytes := List.all_eq_true.mpr fun item listed => (Json.isByte_iff item).mpr (each item listed)
    simp [Shape.fault?, bytes]
  | enum listed => simp [Shape.fault?, listed]
  | lazy defined conforms =>
    cases conforms with
    | record => simp [Shape.fault?, defined]

theorem check_flat_iff {shape : Shape} (flat : shape.isFlat = true) (path : Path) (value : Json) :
    (check definitions shape path value).violations = [] ↔ Conforms definitions shape value := by
  rw [check_flat definitions flat]
  cases faulty : shape.fault? definitions value with
  | none =>
    have conforms := conforms_of_fault? flat faulty
    simp [Outcome.judge, Outcome.accept, conforms]
  | some fault =>
    have refused : ¬ Conforms definitions shape value := fun conforms => by
      rw [conforms.fault?] at faulty
      cases faulty
    simp [Outcome.judge, Outcome.refuse, refused]

theorem Rule.carries_iff {rule : Rule} {members : Members} {name : String} {value : Json} :
    rule.Carries members name value ↔ rule.given? (members.get? name) = some value := by
  simp [Carries, given?_eq_some_iff, isEmpty]

theorem Rule.checkGiven_iff {rule : Rule} {members : Members} {name : String} {path : Path}
    (agree : ∀ value, members.get? name = some value →
      ((check definitions rule.shape path value).violations = [] ↔
        Conforms definitions rule.shape value)) :
    (rule.checkGiven definitions path (rule.given? (members.get? name))).violations = [] ↔
      (∀ value, rule.Carries members name value → Conforms definitions rule.shape value) ∧
      (rule.required = true → ∃ value, rule.Carries members name value) := by
  simp only [carries_iff]
  cases given : rule.given? (members.get? name) with
  | none => simp [checkGiven]
  | some value =>
    have found := ((rule.given?_eq_some_iff _ value).mp given).1
    simp [checkGiven, agree value found]

theorem checkItems_iff {shape : Shape} (default : Option Json) (path : Path) (position : Nat)
    {items : List Json}
    (agree : ∀ item ∈ items, ∀ path, (check definitions shape path item).violations = [] ↔
      Conforms definitions shape item) :
    (∃ values, checkItems definitions { shape, default } path position items = .ok values) ↔
      ∀ item ∈ items, Conforms definitions shape item := by
  induction items generalizing position with
  | nil => simp [checkItems]
  | cons item rest inductionHypothesis =>
    have given : Rule.given? { shape, default } (some item) = some item := rfl
    have first := agree item List.mem_cons_self (path.index position)
    have others := inductionHypothesis (position + 1)
      fun other listed => agree other (.tail item listed)
    rw [checkItems_cons, given, Rule.checkGiven, List.forall_mem_cons, ← first, ← others]
    split
    next value checked =>
      rw [checked]
      cases checkItems definitions { shape, default } path (position + 1) rest <;>
        simp [Except.map]
    next value violations faulty checked =>
      rw [checked]
      refine iff_of_false ?_ fun both => faulty both.1
      simp

theorem length_filter_eq_one_iff {members : List String} (distinct : members.Nodup)
    (selected : String → Bool) :
    (members.filter selected).length = 1 ↔ ∃! member, member ∈ members ∧ selected member = true := by
  rw [List.length_eq_one_iff]
  constructor
  · rintro ⟨member, only⟩
    refine ⟨member, List.mem_filter.mp (by simp [only]), fun other chosen => ?_⟩
    have listed : other ∈ members.filter selected := List.mem_filter.mpr chosen
    simpa [only] using listed
  · rintro ⟨member, chosen, unique⟩
    -- No member stands twice, so that the only one selected is selected once.
    refine ⟨member, List.perm_singleton.mp ?_⟩
    rw [List.perm_ext_iff_of_nodup (distinct.filter selected) (by simp)]
    intro other
    rw [List.mem_filter, List.mem_singleton]
    exact ⟨unique other, fun same => same ▸ chosen⟩

theorem Group.fault?_eq_none_iff {group : Group} (distinct : group.members.Nodup)
    (provided : List String) :
    group.fault? provided = none ↔
      ∃! member, member ∈ group.members ∧ provided.contains member = true := by
  rw [← length_filter_eq_one_iff distinct fun member => provided.contains member, Group.fault?]
  split
  next none => exact iff_of_false (Option.some_ne_none _) (by rw [none]; decide)
  next one => exact iff_of_true rfl one
  next several => exact iff_of_false (Option.some_ne_none _) several

theorem provided_iff (rule : RecordRule) (path : Path) (members : Members) (name : String) :
    (rule.provided definitions path members).contains name = true ↔
      rule.Provides members name := by
  rw [List.contains_iff_mem, RecordRule.provided, List.mem_map]
  constructor
  · rintro ⟨outcome, listed, rfl⟩
    rw [List.mem_filter, List.mem_map] at listed
    obtain ⟨⟨field, declared, rfl⟩, provided⟩ := listed
    rw [checkField_eq] at provided ⊢
    refine ⟨field, declared, rfl, ?_⟩
    rw [Bool.or_eq_true] at provided
    cases provided with
    | inl given =>
      obtain ⟨value, given⟩ := Option.isSome_iff_exists.mp given
      exact .inl ⟨value, Rule.carries_iff.mpr given⟩
    | inr fills =>
      refine .inr ?_
      simpa [Rule.fills, Option.isSome_iff_exists] using fills
  · rintro ⟨field, declared, rfl, provides⟩
    refine ⟨_, List.mem_filter.mpr ⟨List.mem_map_of_mem declared, ?_⟩, by rw [checkField_eq]⟩
    rw [checkField_eq, Bool.or_eq_true]
    cases provides with
    | inl carries =>
      obtain ⟨value, carries⟩ := carries
      exact .inl (by rw [Rule.carries_iff.mp carries]; rfl)
    | inr fills =>
      refine .inr ?_
      simpa [Rule.fills, Option.isSome_iff_exists] using fills

theorem RecordRule.declares_iff (rule : RecordRule) (name : String) :
    rule.declares name = true ↔ name ∈ rule.fields.map Prod.fst := by
  simp [declares, List.mem_map]

theorem mem_undeclared_iff (rule : RecordRule) (members : Members) (member : String × Json) :
    member ∈ rule.undeclared members ↔
      member ∈ members ∧ member.1 ∉ rule.fields.map Prod.fst := by
  rw [RecordRule.undeclared, List.mem_filter, ← RecordRule.declares_iff]
  simp

theorem undeclared_eq_nil_iff (rule : RecordRule) (members : Members) :
    rule.undeclared members = [] ↔ ∀ member ∈ members, member.1 ∈ rule.fields.map Prod.fst := by
  simp [RecordRule.undeclared, ← RecordRule.declares_iff]

theorem check_members_iff {shape : Shape} {rule : RecordRule}
    (meaning : shape.record? definitions = some rule)
    (distinct : ∀ group ∈ rule.groups, group.members.Nodup) {members : Members}
    (agree : ∀ field ∈ rule.fields, ∀ value, members.get? field.1 = some value → ∀ path,
      ((check definitions field.2.shape path value).violations = [] ↔
        Conforms definitions field.2.shape value)) (path : Path) :
    (check definitions shape path (.obj members)).violations = [] ↔
      Conforms definitions (.record rule) (.obj members) := by
  have fields : (∀ field ∈ rule.fields, (checkField definitions field.1 field.2
      (path.field field.1) members).outcome.violations = []) ↔
      (∀ field ∈ rule.fields, ∀ value, field.2.Carries members field.1 value →
        Conforms definitions field.2.shape value) ∧
      (∀ field ∈ rule.fields, field.2.required = true →
        ∃ value, field.2.Carries members field.1 value) := by
    rw [← forall₂_and]
    refine forall₂_congr fun field declared => ?_
    rw [checkField_eq]
    exact Rule.checkGiven_iff fun value found => agree field declared value found _
  have groups : (∀ group ∈ rule.groups,
      group.fault? (rule.provided definitions path members) = none) ↔
      ∀ group ∈ rule.groups, ∃! member, member ∈ group.members ∧ rule.Provides members member := by
    refine forall₂_congr fun group listed => ?_
    rw [Group.fault?_eq_none_iff (distinct group listed)]
    simp only [provided_iff]
  have declared : (if rule.allowUnknown then [] else rule.undeclared members) = [] ↔
      (rule.allowUnknown = false → ∀ member ∈ members, member.1 ∈ rule.fields.map Prod.fst) := by
    rw [← undeclared_eq_nil_iff]
    cases rule.allowUnknown <;> simp
  rw [check_members meaning, RecordRule.conclude_violations, RecordRule.violations,
    List.append_eq_nil_iff, List.append_eq_nil_iff, List.flatMap_eq_nil_iff, List.forall_mem_map,
    fields, List.map_eq_nil_iff, declared, List.map_eq_nil_iff, List.filterMap_eq_nil_iff,
    ← RecordRule.provided, groups]
  -- The parts that violations are made of are now the conditions of conforming.
  constructor
  · rintro ⟨⟨⟨carried, required⟩, declared⟩, groups⟩
    exact .record declared carried required groups
  · intro conforms
    cases conforms with
    | record declared carried required groups => exact ⟨⟨⟨carried, required⟩, declared⟩, groups⟩

end PayloadSchema
