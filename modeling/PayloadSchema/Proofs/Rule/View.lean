import PayloadSchema.Proofs.Json.Members
import PayloadSchema.Proofs.Rule.Lazy
import PayloadSchema.Rule.View

/-! # What a view shows

A view of a rule shows the lazy shapes inside it, each as an object with the identity of its
message: under the fields of records and in the elements of arrays.  A default or an empty value
is shown as well, but it is no rule, whatever it looks like. -/

namespace PayloadSchema

variable {id : MessageId}

/-- Whether the view of a rule shows a lazy shape that refers to a message. -/
inductive Members.Shows (id : MessageId) : Members → Prop where
  | itself {members : Members} (kind : members.get? "type" = some (.str "lazy"))
      (target : members.get? "id" = some (.num (.int id))) : Members.Shows id members
  | field {members inner : Members} {views : List Json} {name : String}
      (fields : members.get? "fields" = some (.arr views))
      (listed : .arr [.str name, .obj inner] ∈ views) (shown : Members.Shows id inner) :
      Members.Shows id members
  | element {members inner : Members} (element : members.get? "element" = some (.obj inner))
      (shown : Members.Shows id inner) : Members.Shows id members

theorem Members.get?_append_of_some {first : Members} {key : String} {value : Json}
    (found : first.get? key = some value) (second : Members) :
    Members.get? (first ++ second) key = some value := by
  rw [get?_append, found, Option.some_or]

theorem mem_fieldViews_iff {fields : List (String × Rule)} {view : Json} :
    view ∈ fieldViews fields ↔
      ∃ field ∈ fields, view = .arr [.str field.1, .obj field.2.members] := by
  induction fields with
  | nil => simp [fieldViews]
  | cons first rest inductionHypothesis =>
    rw [fieldViews, List.mem_cons, inductionHypothesis, List.exists_mem_cons_iff]

theorem RecordRule.get?_fields (rule : RecordRule) :
    rule.members.get? "fields" = some (.arr (fieldViews rule.fields)) := by
  cases rule
  rw [RecordRule.members]
  rfl

namespace RecordRule

def viewKeys : List String := ["message", "fields", "oneofs", "allow_unknown"]

theorem members_sublist (rule : RecordRule) : (rule.members.map Prod.fst).Sublist viewKeys := by
  obtain ⟨message, fields, groups, allowUnknown⟩ := rule
  rw [members]
  split <;> simp [viewKeys]

theorem get?_eq_none (rule : RecordRule) {key : String} (other : key ∈ ["type", "id", "element"]) :
    rule.members.get? key = none := by
  have apart : ∀ key ∈ ["type", "id", "element"], key ∉ viewKeys := by decide
  rw [Members.get?_eq_none_iff]
  exact fun listed => apart key other (rule.members_sublist.subset listed)

end RecordRule

namespace Rule

def modifierKeys : List String := ["default", "required", "empty"]

theorem modifiers_sublist (default : Option Json) (required : Bool) (empty : List Json) :
    ((modifiers default required empty).map Prod.fst).Sublist modifierKeys := by
  cases default <;> cases required <;> cases empty <;> simp [modifiers, modifierKeys]

theorem get?_members (rule : Rule) {key : String} (own : key ∉ modifierKeys) :
    rule.members.get? key = rule.shape.members.get? key := by
  obtain ⟨shape, default, required, empty⟩ := rule
  have absent : (modifiers default required empty).get? key = none :=
    Members.get?_eq_none_iff.mpr fun listed => own ((modifiers_sublist ..).subset listed)
  rw [Rule.members, Members.get?_append, absent, Option.or_none]

end Rule

namespace Shape

variable {shape : Shape}

theorem eq_lazy_of_get? {value : Json} (found : shape.members.get? "id" = some value) :
    ∃ message id, shape = .lazy message id ∧ value = .num (.int id) := by
  cases shape with
  | lazy message id =>
    refine ⟨message, id, rfl, ?_⟩
    rw [members] at found
    exact (Option.some.inj found).symm
  | record rule =>
    rw [members, Members.get?_cons_ne (by decide), rule.get?_eq_none (by decide)] at found
    cases found
  | _ => rw [members] at found; cases found

theorem eq_record_of_get? {value : Json} (found : shape.members.get? "fields" = some value) :
    ∃ rule, shape = .record rule ∧ value = .arr (fieldViews rule.fields) := by
  cases shape with
  | record rule =>
    rw [members, Members.get?_cons_ne (by decide), rule.get?_fields] at found
    exact ⟨rule, rfl, (Option.some.inj found).symm⟩
  | _ => rw [members] at found; cases found

theorem eq_array_of_get? {value : Json} (found : shape.members.get? "element" = some value) :
    ∃ element, shape = .array element ∧ value = .obj element.members := by
  cases shape with
  | array element =>
    refine ⟨element, rfl, ?_⟩
    rw [members] at found
    exact (Option.some.inj found).symm
  | record rule =>
    rw [members, Members.get?_cons_ne (by decide), rule.get?_eq_none (by decide)] at found
    cases found
  | _ => rw [members] at found; cases found

end Shape

theorem Members.Shows.append {first : Members} (shown : first.Shows id) (second : Members) :
    Members.Shows id (first ++ second) := by
  cases shown with
  | itself kind target =>
    exact .itself (get?_append_of_some kind second) (get?_append_of_some target second)
  | field fields listed shown => exact .field (get?_append_of_some fields second) listed shown
  | element element shown => exact .element (get?_append_of_some element second) shown

theorem Rule.shows_of_shape {rule : Rule} (shown : rule.shape.members.Shows id) :
    rule.members.Shows id := by
  cases rule
  rw [Rule.members]
  exact shown.append _

theorem RecordRule.shows_of_field {rule : RecordRule} {field : String × Rule}
    (listed : field ∈ rule.fields) (shown : field.2.members.Shows id) : rule.members.Shows id :=
  .field rule.get?_fields (mem_fieldViews_iff.mpr ⟨field, listed, rfl⟩) shown

theorem Shape.Within.shown {message : String} {shape : Shape}
    (inside : (Shape.lazy message id).Within shape) : shape.members.Shows id := by
  induction inside with
  | whole =>
    rw [Shape.members]
    exact .itself rfl rfl
  | @field rule field listed _ inductionHypothesis =>
    -- The view of a record as a shape is that of the record, with its kind in front.
    rw [Shape.members]
    have fields : Members.get? (("type", .str "object") :: rule.members) "fields" =
        some (.arr (fieldViews rule.fields)) := by
      rw [Members.get?_cons_ne (by decide), rule.get?_fields]
    exact .field fields (mem_fieldViews_iff.mpr ⟨field, listed, rfl⟩)
      (Rule.shows_of_shape inductionHypothesis)
  | element _ inductionHypothesis =>
    rw [Shape.members]
    exact .element rfl (Rule.shows_of_shape inductionHypothesis)

theorem exists_field_of_view {fields : List (String × Rule)} {name : String} {inner : Members}
    (listed : .arr [.str name, .obj inner] ∈ fieldViews fields) :
    ∃ field ∈ fields, inner = field.2.members := by
  obtain ⟨field, declared, same⟩ := mem_fieldViews_iff.mp listed
  cases same
  exact ⟨field, declared, rfl⟩

theorem Rule.within_of_shows {members : Members} (shown : members.Shows id) (rule : Rule)
    (view : members = rule.members) : ∃ message, (Shape.lazy message id).Within rule.shape := by
  -- Each of the three keys stands in the view of one kind of shape only.
  induction shown generalizing rule with
  | itself kind target =>
    subst view
    rw [rule.get?_members (by decide)] at target
    obtain ⟨message, other, same, value⟩ := Shape.eq_lazy_of_get? target
    cases value
    exact ⟨message, same ▸ .whole⟩
  | field fields listed _ inductionHypothesis =>
    subst view
    rw [rule.get?_members (by decide)] at fields
    obtain ⟨record, same, value⟩ := Shape.eq_record_of_get? fields
    cases value
    obtain ⟨field, declared, view⟩ := exists_field_of_view listed
    obtain ⟨message, inner⟩ := inductionHypothesis field.2 view
    exact ⟨message, same ▸ .field declared inner⟩
  | element element _ inductionHypothesis =>
    subst view
    rw [rule.get?_members (by decide)] at element
    obtain ⟨items, same, value⟩ := Shape.eq_array_of_get? element
    cases value
    obtain ⟨message, inner⟩ := inductionHypothesis items rfl
    exact ⟨message, same ▸ .element inner⟩

/-- The view of a rule shows the lazy shapes that stand inside it. -/
theorem RecordRule.shows_iff {rule : RecordRule} :
    rule.members.Shows id ↔ ∃ message, (Shape.lazy message id).Within (.record rule) := by
  constructor
  · intro shown
    cases shown with
    | itself kind _ =>
      rw [rule.get?_eq_none (by decide)] at kind
      cases kind
    | field fields listed shown =>
      rw [rule.get?_fields] at fields
      cases fields
      obtain ⟨field, declared, view⟩ := exists_field_of_view listed
      obtain ⟨message, inner⟩ := Rule.within_of_shows shown field.2 view
      exact ⟨message, .field declared inner⟩
    | element element _ =>
      rw [rule.get?_eq_none (by decide)] at element
      cases element
  · rintro ⟨message, inside⟩
    cases inside with
    | field listed inner => exact shows_of_field listed (Rule.shows_of_shape inner.shown)

end PayloadSchema
