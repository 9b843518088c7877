import PayloadSchema.Proofs.Rule.Check
import PayloadSchema.Proofs.Rule.Conforms
import PayloadSchema.Proofs.Rule.Equal

/-! # Equal rules in place of one another

What is checked against equal rules comes out alike: with the very same violations, or with
equal values.  The rules may belong to different definitions, as long as each lazy shape
that is met leads to equal records in both. -/

namespace PayloadSchema

/-- Results that hold related values, or the very same violations. -/
abbrev MatchingResults {α : Type} (related : α → α → Prop) :
    Except (List Violation) α → Except (List Violation) α → Prop :=
  AlikeResults (· = ·) related

structure Outcome.Alike (outcome other : Outcome) : Prop where
  value : Option.Rel (fun value other => value.equal other = true) outcome.value other.value
  violations : outcome.violations = other.violations

namespace Outcome.Alike

variable {value other : Json}

theorem accept (equal : value.equal other = true) : (Outcome.accept value).Alike (.accept other) :=
  ⟨.some equal, rfl⟩

theorem refuse (path : Path) (fault : Fault) :
    (Outcome.refuse path fault).Alike (.refuse path fault) :=
  ⟨.none, rfl⟩

theorem judge (equal : value.equal other = true) (path : Path) (fault : Option Fault) :
    (Outcome.judge path value fault).Alike (.judge path other fault) := by
  cases fault with
  | none => exact accept equal
  | some fault => exact refuse path fault

end Outcome.Alike

structure FieldOutcome.Alike (field other : FieldOutcome) : Prop where
  name : field.name = other.name
  provided : field.provided = other.provided
  outcome : field.outcome.Alike other.outcome

theorem FieldOutcome.Alike.member {field other : FieldOutcome} (alike : field.Alike other) :
    Option.Rel (fun member other => member.1 = other.1 ∧ member.2.equal other.2 = true)
      (field.outcome.value.map (field.name, ·)) (other.outcome.value.map (other.name, ·)) := by
  have values := alike.outcome.value
  rw [alike.name]
  generalize field.outcome.value = value at values ⊢
  generalize other.outcome.value = another at values ⊢
  cases values with
  | none => exact .none
  | some equal => exact .some ⟨rfl, equal⟩

namespace Rule

/-- Whether no key is repeated in the default and the empty values of a rule. -/
structure Distinct (rule : Rule) : Prop where
  default : ∀ value, rule.default = some value → value.Distinct
  empty : ∀ value ∈ rule.empty, value.Distinct

variable {rule other : Rule}

theorem isEmpty_of_equal (distinct : rule.Distinct) (equal : rule.equal other = true)
    (value : Json) : rule.isEmpty value = other.isEmpty value := by
  obtain ⟨_, _, _, pairs⟩ := equal_iff.mp equal
  have each := distinct.empty
  rw [isEmpty, isEmpty]
  generalize rule.empty = empty at pairs each
  generalize other.empty = others at pairs
  induction pairs with
  | nil => rfl
  | cons same _ inductionHypothesis =>
    obtain ⟨first, later⟩ := List.forall_mem_cons.mp each
    rw [List.any_cons, List.any_cons, first.congr_equal same, inductionHypothesis later]

theorem given?_of_equal (distinct : rule.Distinct) (equal : rule.equal other = true)
    (value : Option Json) : rule.given? value = other.given? value := by
  simp only [given?, isEmpty_of_equal distinct equal]

theorem fills_of_equal (equal : rule.equal other = true) : rule.fills = other.fills := by
  obtain ⟨_, defaults, required, _⟩ := equal_iff.mp equal
  rw [fills, fills, required]
  generalize rule.default = default at defaults
  generalize other.default = another at defaults
  cases defaults <;> rfl

theorem absent_alike (equal : rule.equal other = true) (path : Path) :
    (rule.absent path).Alike (other.absent path) := by
  obtain ⟨_, defaults, required, _⟩ := equal_iff.mp equal
  rw [absent, absent, required]
  cases other.required with
  | true => exact .refuse path .missing
  | false => exact ⟨defaults, rfl⟩

variable {definitions others : Definitions} {path : Path}

theorem checkGiven_alike (distinct : rule.Distinct) (equal : rule.equal other = true)
    {found : Option Json} (alike : ∀ value, found = some value →
      (check definitions rule.shape path value).Alike (check others other.shape path value)) :
    (rule.checkGiven definitions path (rule.given? found)).Alike
      (other.checkGiven others path (other.given? found)) := by
  rw [← given?_of_equal distinct equal]
  cases given : rule.given? found with
  | none => exact absent_alike equal path
  | some value => exact alike value ((given?_eq_some_iff _ _ _).mp given).1

end Rule

section

variable {definitions others : Definitions}

theorem checkItems_alike {element other : Rule} (distinct : element.Distinct)
    (equal : element.equal other = true) (path : Path) {items : List Json}
    (inside : ∀ item ∈ items, ∀ path,
      (check definitions element.shape path item).Alike (check others other.shape path item))
    (position : Nat) :
    MatchingResults (List.Forall₂ fun value other => value.equal other = true)
      (checkItems definitions element path position items)
      (checkItems others other path position items) := by
  induction items generalizing position with
  | nil =>
    rw [checkItems, checkItems]
    exact .ok .nil
  | cons item rest inductionHypothesis =>
    obtain ⟨first, later⟩ := List.forall_mem_cons.mp inside
    have alike : (element.checkGiven definitions (path.index position)
        (element.given? (some item))).Alike (other.checkGiven others (path.index position)
        (other.given? (some item))) := by
      refine Rule.checkGiven_alike distinct equal fun value same => ?_
      cases same
      exact first (path.index position)
    rw [checkItems_cons, checkItems_cons]
    generalize element.checkGiven definitions (path.index position)
      (element.given? (some item)) = outcome at alike ⊢
    generalize other.checkGiven others (path.index position)
      (other.given? (some item)) = another at alike ⊢
    obtain ⟨value, violations⟩ := outcome
    obtain ⟨_, _⟩ := another
    obtain ⟨values, same⟩ := alike
    cases same
    cases violations with
    | cons violation more => exact .error rfl
    | nil =>
      refine (inductionHypothesis later (position + 1)).map fun _ _ further => .cons ?_ further
      cases values with
      | none => rfl
      | some equal => exact equal

theorem checkField_alike {name : String} {rule other : Rule} (distinct : rule.Distinct)
    (equal : rule.equal other = true) {path : Path} {members : Members}
    (inside : ∀ member ∈ members, ∀ path,
      (check definitions rule.shape path member.2).Alike
        (check others other.shape path member.2)) :
    (checkField definitions name rule path members).Alike
      (checkField others name other path members) := by
  rw [checkField_eq, checkField_eq]
  refine ⟨rfl, ?_, Rule.checkGiven_alike distinct equal fun value found => ?_⟩
  · rw [Rule.given?_of_equal distinct equal, Rule.fills_of_equal equal]
  · exact inside _ (Members.mem_of_get? found) path

end

namespace FieldOutcome

theorem members_sublist (fields : List FieldOutcome) :
    ((fields.filterMap fun field => field.outcome.value.map (field.name, ·)).map
      Prod.fst).Sublist (fields.map (·.name)) := by
  induction fields with
  | nil => exact .slnil
  | cons field rest inductionHypothesis =>
    rw [List.filterMap_cons, List.map_cons]
    cases field.outcome.value with
    | none => exact inductionHypothesis.cons field.name
    | some value => exact inductionHypothesis.cons_cons field.name

namespace Alike

variable {fields seconds : List FieldOutcome}

theorem violations_eq (alike : List.Forall₂ FieldOutcome.Alike fields seconds) :
    fields.flatMap (·.outcome.violations) = seconds.flatMap (·.outcome.violations) := by
  induction alike with
  | nil => rfl
  | cons first _ inductionHypothesis =>
    rw [List.flatMap_cons, List.flatMap_cons, first.outcome.violations, inductionHypothesis]

theorem provided_eq (alike : List.Forall₂ FieldOutcome.Alike fields seconds) :
    (fields.filter (·.provided)).map (·.name) = (seconds.filter (·.provided)).map (·.name) := by
  induction alike with
  | nil => rfl
  | cons first _ inductionHypothesis =>
    rw [List.filter_cons, List.filter_cons, first.provided]
    split
    next => rw [List.map_cons, List.map_cons, first.name, inductionHypothesis]
    next => exact inductionHypothesis

end Alike

end FieldOutcome

/-! ## Objects -/

namespace RecordRule

variable {rule other : RecordRule}

theorem names_of_equal (equal : rule.equal other = true) :
    rule.fields.map Prod.fst = other.fields.map Prod.fst :=
  forall₂_map_eq (fun _ _ same => same.1) (equal_iff.mp equal).2.1

theorem undeclared_of_equal (equal : rule.equal other = true) (members : Members) :
    rule.undeclared members = other.undeclared members := by
  have declares (name : String) : rule.declares name = other.declares name := by
    rw [Bool.eq_iff_iff, declares_iff, declares_iff, names_of_equal equal]
  simp only [undeclared, declares]

theorem violations_of_equal (equal : rule.equal other = true) (path : Path) (members : Members)
    {fields seconds : List FieldOutcome} (alike : List.Forall₂ FieldOutcome.Alike fields seconds) :
    rule.violations path members fields = other.violations path members seconds := by
  obtain ⟨_, _, groups, allowUnknown⟩ := equal_iff.mp equal
  simp only [violations, FieldOutcome.Alike.violations_eq alike,
    FieldOutcome.Alike.provided_eq alike, groups, allowUnknown, undeclared_of_equal equal]

theorem normalized_keys_nodup (names : (rule.fields.map Prod.fst).Nodup) {members : Members}
    (keys : (members.map Prod.fst).Nodup) {fields : List FieldOutcome}
    (complete : fields.map (·.name) = rule.fields.map Prod.fst) :
    ((rule.normalized members fields).map Prod.fst).Nodup := by
  have order := FieldOutcome.members_sublist fields
  rw [complete] at order
  rw [normalized, List.map_append, List.nodup_append]
  refine ⟨names.sublist order, ?_, ?_⟩
  · split
    next => exact keys.sublist (List.filter_sublist.map Prod.fst)
    next => simp
  · rintro name own _ listed rfl
    have declared := order.subset own
    split at listed
    next =>
      obtain ⟨member, among, rfl⟩ := List.mem_map.mp listed
      exact ((mem_undeclared_iff rule members member).mp among).2 declared
    next => cases listed

theorem conclude_alike (equal : rule.equal other = true)
    (names : (rule.fields.map Prod.fst).Nodup) {members : Members}
    (distinct : (Json.obj members).Distinct) {fields seconds : List FieldOutcome}
    (complete : fields.map (·.name) = rule.fields.map Prod.fst)
    (alike : List.Forall₂ FieldOutcome.Alike fields seconds) (path : Path) :
    (rule.conclude path members fields).Alike (other.conclude path members seconds) := by
  rw [conclude, conclude, ← violations_of_equal equal path members alike]
  split
  next =>
    have keys := normalized_keys_nodup names distinct.keys_nodup complete
    refine .accept (Json.equal_of_alike keys ?_)
    -- The fields come out pair by pair, and what is let through is the same.
    apply (Members.Alike.of_pairs (List.rel_filterMap (fun _ _ alike => alike.member) alike)).append
    rw [← undeclared_of_equal equal, ← (equal_iff.mp equal).2.2.2]
    refine .of_pairs (List.forall₂_same.mpr fun member listed => ⟨rfl, ?_⟩)
    split at listed
    next => exact (distinct.member member (List.mem_of_mem_filter listed)).equal_self
    next => cases listed
  next => exact ⟨.none, rfl⟩

end RecordRule

theorem Shape.equal_cases {shape other : Shape} (equal : shape.equal other = true) :
    (shape.isFlat = true ∧ shape = other) ∨
    (∃ message id, shape = .lazy message id ∧ other = .lazy message id) ∨
    (∃ element another, shape = .array element ∧ other = .array another ∧
      element.equal another = true) ∨
    ∃ rule another, shape = .record rule ∧ other = .record another ∧
      rule.equal another = true := by
  cases shape <;> cases other <;> simp_all [Shape.equal, Shape.isFlat]

/-- Whether shapes that are known keep to known shapes, and their lazy shapes lead to equal
    records among two lists of definitions. -/
structure Definitions.Exchange (definitions others : Definitions) (known : Shape → Prop) :
    Prop where
  names : ∀ rule, known (.record rule) → (rule.fields.map Prod.fst).Nodup
  field : ∀ rule, known (.record rule) → ∀ field ∈ rule.fields,
    field.2.Distinct ∧ known field.2.shape
  element : ∀ element, known (.array element) → element.Distinct ∧ known element.shape
  leads : ∀ message id, known (.lazy message id) → ∃ rule other,
    definitions.get? id = some rule ∧ others.get? id = some other ∧
    rule.equal other = true ∧ known (.record rule)

theorem Shape.fault?_of_flat {shape : Shape} (flat : shape.isFlat = true)
    (definitions others : Definitions) (value : Json) :
    shape.fault? definitions value = shape.fault? others value := by
  cases shape <;> cases flat <;> cases value <;> rfl

/-- Whether a value is checked alike against known shapes and against equal ones. -/
def ChecksAlike (definitions others : Definitions) (known : Shape → Prop) (value : Json) : Prop :=
  ∀ shape other, known shape → shape.equal other = true → ∀ path,
    (check definitions shape path value).Alike (check others other path value)

section

variable {definitions others : Definitions} {known : Shape → Prop}
  (exchange : definitions.Exchange others known)

include exchange

theorem check_array_alike {element other : Rule} (inside : known (.array element))
    (equal : element.equal other = true) {value : Json}
    (parts : ∀ part, part.Inside value → ChecksAlike definitions others known part) (path : Path) :
    (check definitions (.array element) path value).Alike
      (check others (.array other) path value) := by
  obtain ⟨modifiers, further⟩ := exchange.element element inside
  obtain ⟨shapes, _⟩ := Rule.equal_iff.mp equal
  rcases value.array_cases with ⟨items, rfl⟩ | scalar
  · have each : ∀ item ∈ items, ∀ path,
        (check definitions element.shape path item).Alike (check others other.shape path item) :=
      fun item listed => parts item (.item listed) _ _ further shapes
    have alike := checkItems_alike modifiers equal path each 0
    rw [check_array, check_array]
    generalize checkItems definitions element path 0 items = result at alike ⊢
    generalize checkItems others other path 0 items = second at alike ⊢
    cases alike with
    | ok values => exact .accept (by rwa [Json.equal, Json.equalItems_iff])
    | error same => exact ⟨.none, same⟩
  · rw [check_not_array _ _ scalar, check_not_array _ _ scalar]
    exact .refuse path _

theorem check_record_alike {shape second : Shape} {rule other : RecordRule}
    (meaning : shape.record? definitions = some rule) (also : second.record? others = some other)
    (inside : known (.record rule)) (equal : rule.equal other = true) {value : Json}
    (distinct : value.Distinct)
    (parts : ∀ part, part.Inside value → ChecksAlike definitions others known part) (path : Path) :
    (check definitions shape path value).Alike (check others second path value) := by
  rcases value.object_cases with ⟨members, rfl⟩ | scalar
  · rw [check_members meaning, check_members also]
    refine RecordRule.conclude_alike equal (exchange.names rule inside) distinct ?_ ?_ path
    · simp [checkField_eq]
    · rw [List.forall₂_map_left_iff, List.forall₂_map_right_iff]
      have pairs := (List.forall₂_and_left _ _).mpr
        ⟨exchange.field rule inside, (RecordRule.equal_iff.mp equal).2.1⟩
      refine pairs.imp fun field second ⟨⟨modifiers, further⟩, name, same⟩ => ?_
      obtain ⟨shapes, _⟩ := Rule.equal_iff.mp same
      rw [← name]
      exact checkField_alike modifiers same fun member listed =>
        parts member.2 (.member listed) _ _ further shapes
  · rw [check_not_object meaning scalar, check_not_object also scalar]
    exact .refuse path _

/-- Every value is checked alike.  The induction is on the value, since lazy shapes may lead back
    to themselves. -/
theorem checksAlike {value : Json} (distinct : value.Distinct) :
    ChecksAlike definitions others known value := by
  induction value using Json.inside_induction with
  | step value inductionHypothesis =>
    have parts : ∀ part, part.Inside value → ChecksAlike definitions others known part :=
      fun part inner => inductionHypothesis part inner (distinct.inside inner)
    intro shape other inside equal path
    rcases Shape.equal_cases equal with ⟨flat, rfl⟩ | ⟨message, id, rfl, rfl⟩ |
      ⟨element, another, rfl, rfl, same⟩ | ⟨rule, another, rfl, rfl, same⟩
    · rw [check_flat _ flat, check_flat _ flat, Shape.fault?_of_flat flat definitions others]
      exact .judge distinct.equal_self path _
    · obtain ⟨rule, another, found, present, same, further⟩ := exchange.leads message id inside
      have meaning : (Shape.lazy message id).record? definitions = some rule := found
      have also : (Shape.lazy message id).record? others = some another := present
      exact check_record_alike exchange meaning also further same distinct parts path
    · exact check_array_alike exchange inside same parts path
    · exact check_record_alike exchange rfl rfl inside same distinct parts path

theorem checkPayload_alike {rule other : RecordRule} (inside : known (.record rule))
    (equal : rule.equal other = true) {payload : Json} (distinct : payload.Distinct) :
    MatchingResults (fun value other => value.equal other = true)
      (rule.checkPayload definitions payload) (other.checkPayload others payload) := by
  have shapes : (Shape.record rule).equal (.record other) = true := by rwa [Shape.equal]
  have alike := checksAlike exchange distinct _ _ inside shapes []
  rw [RecordRule.checkPayload, RecordRule.checkPayload]
  generalize check definitions (.record rule) [] payload = outcome at alike ⊢
  generalize check others (.record other) [] payload = another at alike ⊢
  obtain ⟨value, violations⟩ := outcome
  obtain ⟨_, _⟩ := another
  obtain ⟨values, same⟩ := alike
  cases same
  cases values with
  | none => exact .error rfl
  | some equal =>
    cases violations with
    | nil => exact .ok equal
    | cons violation more => exact .error rfl

end

end PayloadSchema
