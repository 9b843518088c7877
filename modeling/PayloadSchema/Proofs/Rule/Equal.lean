import PayloadSchema.Proofs.Json.Alike
import PayloadSchema.Proofs.Rule.View

/-! # Equal rules

Two rules are equal if they are made in the same way, the defaults and the empty values that they
state being compared as JSON.  The view of a rule loses nothing: views are equal as JSON values
just if the rules are equal.  What belongs to the kind of a shape, and the modifiers that do
something, stand under keys of their own, and the kind itself tells which keys there are. -/

namespace PayloadSchema

def Json.equalIfAny : Option Json → Option Json → Bool
  | none, none => true
  | some value, some other => value.equal other
  | _, _ => false

mutual

def Shape.equal : Shape → Shape → Bool
  | .boolean, .boolean | .number, .number | .binary, .binary | .string, .string | .any, .any => true
  | .integer unsigned, .integer other => unsigned = other
  | .enum name members, .enum other others => name = other && members = others
  | .record rule, .record other => rule.equal other
  | .array element, .array other => element.equal other
  | .lazy message id, .lazy other target => message = other && id = target
  | _, _ => false

def Rule.equal : Rule → Rule → Bool
  | ⟨shape, default, required, empty⟩, ⟨shape', default', required', empty'⟩ =>
    shape.equal shape' && Json.equalIfAny default default' && required = required' &&
      Json.equalItems empty empty'

def RecordRule.equal : RecordRule → RecordRule → Bool
  | ⟨message, fields, groups, allowUnknown⟩, ⟨message', fields', groups', allowUnknown'⟩ =>
    message = message' && equalFields fields fields' && groups = groups' &&
      allowUnknown = allowUnknown'

def equalFields : List (String × Rule) → List (String × Rule) → Bool
  | [], [] => true
  | (name, rule) :: rest, (name', rule') :: rest' =>
    name = name' && rule.equal rule' && equalFields rest rest'
  | _, _ => false

end

theorem Json.equalIfAny_iff {value other : Option Json} :
    equalIfAny value other = true ↔
      Option.Rel (fun value other => value.equal other = true) value other := by
  cases value <;> cases other <;> simp [equalIfAny]

theorem equalFields_iff {fields others : List (String × Rule)} :
    equalFields fields others = true ↔
      List.Forall₂ (fun field other => field.1 = other.1 ∧ field.2.equal other.2 = true)
        fields others := by
  induction fields generalizing others with
  | nil => cases others <;> simp [equalFields]
  | cons field rest inductionHypothesis =>
    cases others with
    | nil => simp [equalFields]
    | cons other further =>
      obtain ⟨name, rule⟩ := field
      obtain ⟨name', rule'⟩ := other
      simp [equalFields, inductionHypothesis]

theorem Rule.equal_iff {rule other : Rule} :
    rule.equal other = true ↔ rule.shape.equal other.shape = true ∧
      Option.Rel (fun value other => value.equal other = true) rule.default other.default ∧
      rule.required = other.required ∧
      List.Forall₂ (fun value other => value.equal other = true) rule.empty other.empty := by
  cases rule
  cases other
  simp [equal, Json.equalIfAny_iff, Json.equalItems_iff, and_assoc]

theorem RecordRule.equal_iff {rule other : RecordRule} :
    rule.equal other = true ↔ rule.message = other.message ∧
      List.Forall₂ (fun field other => field.1 = other.1 ∧ field.2.equal other.2 = true)
        rule.fields other.fields ∧
      rule.groups = other.groups ∧ rule.allowUnknown = other.allowUnknown := by
  cases rule
  cases other
  simp [equal, equalFields_iff, and_assoc]

theorem Json.equal_texts_iff {texts others : List String} :
    (Json.texts texts).equal (Json.texts others) = true ↔ texts = others := by
  simp [Json.texts, equal, equalItems_iff, List.forall₂_map_left_iff, List.forall₂_map_right_iff]

theorem Group.equal_view_iff {group other : Group} :
    group.view.equal other.view = true ↔ group = other := by
  obtain ⟨name, members⟩ := group
  obtain ⟨name', members'⟩ := other
  simp [Group.view, Json.equal, Json.equalMembers, Json.equal_texts_iff, Members.get?_cons_ne]

namespace RecordRule

theorem get?_message (rule : RecordRule) :
    rule.members.get? "message" = some (.str rule.message) := by
  cases rule
  rw [members]
  rfl

theorem get?_groups (rule : RecordRule) :
    rule.members.get? "oneofs" =
      if rule.groups.isEmpty then none else some (.arr (rule.groups.map Group.view)) := by
  obtain ⟨message, fields, groups, allowUnknown⟩ := rule
  rw [members]
  split <;> rfl

theorem get?_allowUnknown (rule : RecordRule) :
    rule.members.get? "allow_unknown" = some (.bool rule.allowUnknown) := by
  obtain ⟨message, fields, groups, allowUnknown⟩ := rule
  rw [members]
  split <;> rfl

variable {rule other : RecordRule}

theorem equal_groups_iff {groups others : List Group} :
    Option.Rel (fun value other : Json => value.equal other = true)
        (if groups.isEmpty then none else some (.arr (groups.map Group.view)))
        (if others.isEmpty then none else some (.arr (others.map Group.view))) ↔
      groups = others := by
  cases groups <;> cases others <;>
    simp [Json.equal, Json.equalItems_iff, List.forall₂_map_left_iff, List.forall₂_map_right_iff,
      Group.equal_view_iff]

theorem equal_members_iff :
    (Json.obj rule.members).equal (.obj other.members) = true ↔
      rule.message = other.message ∧
      (Json.arr (fieldViews rule.fields)).equal (.arr (fieldViews other.fields)) = true ∧
      rule.groups = other.groups ∧ rule.allowUnknown = other.allowUnknown := by
  rw [Json.equal_obj_iff_get? (by decide) rule.members_sublist other.members_sublist]
  simp only [viewKeys, List.forall_mem_cons, get?_message, get?_fields, get?_groups,
    get?_allowUnknown, equal_groups_iff, Option.rel_some_some]
  simp [Json.equal]

end RecordRule

namespace Shape

/-- The keys that the view of a shape may have, in an order that all kinds keep. -/
def viewKeys : List String :=
  ["type", "unsigned", "name", "members"] ++ RecordRule.viewKeys ++ ["element", "id"]

theorem members_sublist (shape : Shape) : (shape.members.map Prod.fst).Sublist viewKeys := by
  cases shape with
  | record rule =>
    have others : RecordRule.viewKeys.Sublist viewKeys.tail := by decide
    rw [members, List.map_cons]
    exact (rule.members_sublist.trans others).cons_cons "type"
  | _ =>
    rw [members]
    simp only [List.map_cons, List.map_nil]
    decide

def kind : Shape → String
  | .boolean => "boolean"
  | .number => "number"
  | .integer _ => "integer"
  | .binary => "binary"
  | .string => "string"
  | .any => "any"
  | .enum _ _ => "enum"
  | .record _ => "object"
  | .array _ => "array"
  | .lazy _ _ => "lazy"

theorem get?_type (shape : Shape) : shape.members.get? "type" = some (.str shape.kind) := by
  cases shape <;> rw [members] <;> rfl

variable {shape other : Shape}

theorem kind_eq_of_view (equal : (Json.obj shape.members).equal (.obj other.members) = true) :
    shape.kind = other.kind := by
  rw [Json.equal_obj_iff_get? (by decide) shape.members_sublist other.members_sublist] at equal
  have kinds := equal "type" (by decide)
  rw [get?_type, get?_type, Option.rel_some_some, Json.equal, decide_eq_true_eq] at kinds
  exact kinds

theorem kind_eq_of_equal (equal : shape.equal other = true) : shape.kind = other.kind := by
  cases shape <;> cases other <;> first | rfl | simp [Shape.equal] at equal

end Shape

namespace Rule

variable {rule other : Rule}

theorem members_eq (rule : Rule) :
    rule.members = rule.shape.members ++ modifiers rule.default rule.required rule.empty := by
  cases rule
  rw [members]

theorem members_sublist (rule : Rule) :
    (rule.members.map Prod.fst).Sublist (Shape.viewKeys ++ modifierKeys) := by
  rw [members_eq, List.map_append]
  exact rule.shape.members_sublist.append (modifiers_sublist ..)

theorem get?_modifier {key : String} (own : key ∈ modifierKeys) :
    rule.members.get? key = (modifiers rule.default rule.required rule.empty).get? key := by
  have apart : ∀ key ∈ modifierKeys, key ∉ Shape.viewKeys := by decide
  have absent : rule.shape.members.get? key = none :=
    Members.get?_eq_none_iff.mpr fun listed =>
      apart key own (rule.shape.members_sublist.subset listed)
  rw [members_eq, Members.get?_append, absent, Option.none_or]

theorem get?_default (rule : Rule) : rule.members.get? "default" = rule.default := by
  rw [get?_modifier (by decide)]
  cases rule.default <;> cases rule.required <;> cases rule.empty <;> rfl

theorem get?_required (rule : Rule) :
    rule.members.get? "required" = if rule.required then some (.bool true) else none := by
  rw [get?_modifier (by decide)]
  cases rule.default <;> cases rule.required <;> cases rule.empty <;> rfl

theorem get?_empty (rule : Rule) :
    rule.members.get? "empty" = if rule.empty.isEmpty then none else some (.arr rule.empty) := by
  rw [get?_modifier (by decide)]
  cases rule.default <;> cases rule.required <;> cases rule.empty <;> rfl

theorem equal_required_iff {required other : Bool} :
    Option.Rel (fun value other : Json => value.equal other = true)
        (if required then some (.bool true) else none) (if other then some (.bool true) else none) ↔
      required = other := by
  cases required <;> cases other <;> simp [Json.equal]

theorem equal_empty_iff {empty others : List Json} :
    Option.Rel (fun value other : Json => value.equal other = true)
        (if empty.isEmpty then none else some (.arr empty))
        (if others.isEmpty then none else some (.arr others)) ↔
      List.Forall₂ (fun value other => value.equal other = true) empty others := by
  cases empty <;> cases others <;> simp [Json.equal, Json.equalItems_iff]

theorem equal_members_iff :
    (Json.obj rule.members).equal (.obj other.members) = true ↔
      (Json.obj rule.shape.members).equal (.obj other.shape.members) = true ∧
      Option.Rel (fun value other => value.equal other = true) rule.default other.default ∧
      rule.required = other.required ∧
      List.Forall₂ (fun value other => value.equal other = true) rule.empty other.empty := by
  have apart : ∀ key ∈ Shape.viewKeys, key ∉ modifierKeys := by decide
  rw [Json.equal_obj_iff_get? (by decide) rule.members_sublist other.members_sublist,
    Json.equal_obj_iff_get? (by decide) rule.shape.members_sublist other.shape.members_sublist,
    List.forall_mem_append]
  refine and_congr (forall₂_congr fun key listed => ?_) ?_
  · rw [rule.get?_members (apart key listed), other.get?_members (apart key listed)]
  · simp only [modifierKeys, List.forall_mem_cons, get?_default, get?_required, get?_empty,
      equal_required_iff, equal_empty_iff]
    simp

theorem equal_members_iff_of_shape
    (shapes : (Json.obj rule.shape.members).equal (.obj other.shape.members) = true ↔
      rule.shape.equal other.shape = true) :
    (Json.obj rule.members).equal (.obj other.members) = true ↔ rule.equal other = true := by
  rw [equal_members_iff, equal_iff, shapes]

end Rule

/-! ## Views -/

theorem equal_fieldView_iff {name other : String} {view another : Json} :
    (Json.arr [.str name, view]).equal (.arr [.str other, another]) = true ↔
      name = other ∧ view.equal another = true := by
  simp [Json.equal, Json.equalItems]

theorem equal_fieldViews_iff {fields others : List (String × Rule)}
    (rules : ∀ field ∈ fields, ∀ other : Rule,
      (Json.obj field.2.members).equal (.obj other.members) = true ↔
        field.2.equal other = true) :
    (Json.arr (fieldViews fields)).equal (.arr (fieldViews others)) = true ↔
      List.Forall₂ (fun field other => field.1 = other.1 ∧ field.2.equal other.2 = true)
        fields others := by
  rw [Json.equal]
  induction fields generalizing others with
  | nil => cases others <;> simp [fieldViews, Json.equalItems]
  | cons field rest inductionHypothesis =>
    obtain ⟨name, rule⟩ := field
    obtain ⟨first, later⟩ := List.forall_mem_cons.mp rules
    cases others with
    | nil => simp [fieldViews, Json.equalItems]
    | cons other further =>
      obtain ⟨name', rule'⟩ := other
      rw [fieldViews, fieldViews, Json.equalItems, Bool.and_eq_true, equal_fieldView_iff,
        inductionHypothesis later, first rule', List.forall₂_cons]

theorem RecordRule.equal_view_iff_of_fields {rule other : RecordRule}
    (rules : ∀ field ∈ rule.fields, ∀ other : Rule,
      (Json.obj field.2.members).equal (.obj other.members) = true ↔
        field.2.equal other = true) :
    (Json.obj rule.members).equal (.obj other.members) = true ↔ rule.equal other = true := by
  rw [equal_members_iff, equal_iff, equal_fieldViews_iff rules]

namespace Shape

theorem equal_record_iff {rule other : RecordRule} :
    (Json.obj (Shape.record rule).members).equal (.obj (Shape.record other).members) = true ↔
      (Json.obj rule.members).equal (.obj other.members) = true := by
  have apart : ∀ key ∈ RecordRule.viewKeys, key ≠ "type" := by decide
  have order (rule : RecordRule) : ((Shape.record rule).members.map Prod.fst).Sublist
      ("type" :: RecordRule.viewKeys) := by
    rw [members, List.map_cons]
    exact rule.members_sublist.cons_cons "type"
  rw [Json.equal_obj_iff_get? (by decide) (order rule) (order other),
    Json.equal_obj_iff_get? (by decide) rule.members_sublist other.members_sublist,
    List.forall_mem_cons, get?_type, get?_type]
  refine (and_iff_right (by simp [kind, Json.equal])).trans (forall₂_congr fun key listed => ?_)
  rw [members, members, Members.get?_cons_ne (apart key listed),
    Members.get?_cons_ne (apart key listed)]

theorem equal_members_iff {shape other : Shape} :
    (Json.obj shape.members).equal (.obj other.members) = true ↔ shape.equal other = true := by
  -- Shapes of different kinds have neither equal views nor are they equal.
  have kinds {shape other : Shape} (apart : shape.kind ≠ other.kind) :
      (Json.obj shape.members).equal (.obj other.members) = true ↔ shape.equal other = true :=
    iff_of_false (fun equal => apart (kind_eq_of_view equal))
      fun equal => apart (kind_eq_of_equal equal)
  induction shape using Shape.induction generalizing other with
  | flat shape flat =>
    by_cases same : shape.kind = other.kind
    · cases shape <;> cases flat <;> cases other <;> simp [kind] at same <;>
        simp [members, Shape.equal, Json.equal, Json.equalMembers, Json.equal_texts_iff,
          Members.get?_cons_ne]
    · exact kinds same
  | lazy message id =>
    cases other with
    | lazy other target =>
      have ids : (Number.int id).equal (.int target) = true ↔ id = target := by
        rw [Number.equal, decide_eq_true_eq]
        exact Int.ofNat_inj
      simp [members, Shape.equal, Json.equal, Json.equalMembers, ids, Members.get?_cons_ne]
    | _ => exact kinds (by simp [kind])
  | array element inductionHypothesis =>
    cases other with
    | array other =>
      rw [Shape.equal, ← Rule.equal_members_iff_of_shape inductionHypothesis, members, members,
        Json.equal]
      have kinds : (Json.str "array").equal (.str "array") = true := by simp [Json.equal]
      simp [Json.equalMembers, Members.get?_cons_ne, kinds]
    | _ => exact kinds (by simp [kind])
  | record rule inductionHypothesis =>
    cases other with
    | record other =>
      rw [equal_record_iff, Shape.equal]
      exact RecordRule.equal_view_iff_of_fields fun field listed other =>
        Rule.equal_members_iff_of_shape (inductionHypothesis field listed)
    | _ => exact kinds (by simp [kind])

end Shape

theorem Rule.equal_view (rule other : Rule) : rule.view.equal other.view = rule.equal other :=
  Bool.eq_iff_iff.mpr (equal_members_iff_of_shape Shape.equal_members_iff)

theorem RecordRule.equal_view (rule other : RecordRule) :
    rule.view.equal other.view = rule.equal other :=
  Bool.eq_iff_iff.mpr <| equal_view_iff_of_fields fun _ _ _ =>
    Rule.equal_members_iff_of_shape Shape.equal_members_iff

end PayloadSchema
