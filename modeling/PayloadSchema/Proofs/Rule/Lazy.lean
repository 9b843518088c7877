import PayloadSchema.Proofs.Rule.Part

/-! # Lazy shapes by their lists

What is listed among the lazy references of a rule are those of the lazy shapes that stand
inside it, at any depth. -/

namespace PayloadSchema

variable {id : MessageId}

theorem Rule.lazyIds_eq (rule : Rule) : rule.lazyIds = rule.shape.lazyIds := by
  cases rule
  rw [Rule.lazyIds]

theorem RecordRule.lazyIds_eq (rule : RecordRule) : rule.lazyIds = fieldLazyIds rule.fields := by
  cases rule
  rw [RecordRule.lazyIds]

mutual

theorem Shape.within_of_lazyIds : ∀ shape : Shape, id ∈ shape.lazyIds →
    ∃ message, (Shape.lazy message id).Within shape
  | .lazy message other, listed => by
    rw [Shape.lazyIds, List.mem_singleton] at listed
    exact ⟨message, listed ▸ .whole⟩
  | .record rule, listed => by
    obtain ⟨field, declared, message, inner⟩ := RecordRule.within_of_lazyIds rule listed
    exact ⟨message, .field declared inner⟩
  | .array ⟨shape, _, _, _⟩, listed => by
    obtain ⟨message, inner⟩ := Shape.within_of_lazyIds shape listed
    exact ⟨message, .element inner⟩

theorem RecordRule.within_of_lazyIds : ∀ rule : RecordRule, id ∈ rule.lazyIds →
    ∃ field ∈ rule.fields, ∃ message, (Shape.lazy message id).Within field.2.shape
  | ⟨_, fields, _, _⟩, listed => fields_within_of_lazyIds fields listed

theorem fields_within_of_lazyIds : ∀ fields : List (String × Rule), id ∈ fieldLazyIds fields →
    ∃ field ∈ fields, ∃ message, (Shape.lazy message id).Within field.2.shape
  | (name, ⟨shape, default, required, empty⟩) :: rest, listed => by
    rw [fieldLazyIds, List.mem_append] at listed
    cases listed with
    | inl first =>
      obtain ⟨message, inner⟩ := Shape.within_of_lazyIds shape first
      exact ⟨_, List.mem_cons_self, message, inner⟩
    | inr later =>
      obtain ⟨field, declared, found⟩ := fields_within_of_lazyIds rest later
      exact ⟨field, .tail _ declared, found⟩

end

theorem mem_fieldLazyIds {fields : List (String × Rule)} {field : String × Rule}
    (declared : field ∈ fields) (listed : id ∈ field.2.shape.lazyIds) :
    id ∈ fieldLazyIds fields := by
  induction fields with
  | nil => cases declared
  | cons first rest inductionHypothesis =>
    rw [fieldLazyIds, List.mem_append]
    cases List.mem_cons.mp declared with
    | inl same =>
      rw [same] at listed
      exact .inl (first.2.lazyIds_eq ▸ listed)
    | inr later => exact .inr (inductionHypothesis later)

theorem Shape.Within.mem_lazyIds {message : String} {shape : Shape}
    (inside : (Shape.lazy message id).Within shape) : id ∈ shape.lazyIds := by
  induction inside with
  | whole => exact List.mem_singleton.mpr rfl
  | @field rule field declared _ inductionHypothesis =>
    rw [Shape.lazyIds, RecordRule.lazyIds_eq]
    exact mem_fieldLazyIds declared inductionHypothesis
  | element _ inductionHypothesis => rwa [Shape.lazyIds, Rule.lazyIds_eq]

theorem RecordRule.mem_lazyIds_iff {rule : RecordRule} :
    id ∈ rule.lazyIds ↔ ∃ message, (Shape.lazy message id).Within (.record rule) := by
  constructor
  · intro listed
    obtain ⟨field, declared, message, inner⟩ := rule.within_of_lazyIds listed
    exact ⟨message, .field declared inner⟩
  · rintro ⟨message, inside⟩
    exact inside.mem_lazyIds

theorem RecordRule.lazyIds_ne_nil_iff {rule : RecordRule} :
    rule.lazyIds ≠ [] ↔ ∃ message id, (Shape.lazy message id).Within (.record rule) := by
  constructor
  · intro some
    obtain ⟨id, listed⟩ := List.exists_mem_of_ne_nil _ some
    obtain ⟨message, inside⟩ := mem_lazyIds_iff.mp listed
    exact ⟨message, id, inside⟩
  · rintro ⟨message, id, inside⟩
    exact List.ne_nil_of_mem (mem_lazyIds_iff.mpr ⟨message, inside⟩)

end PayloadSchema
