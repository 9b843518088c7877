import PayloadSchema.Rule.Scalar

/-! # Parts of shapes

The shapes that stand inside a shape: under the fields of records and in the elements of
arrays, at any depth.  A lazy shape has no parts beside itself; what it leads to
stands among the definitions. -/

namespace PayloadSchema

/-- Whether a shape stands inside another one, or is that one. -/
inductive Shape.Within (part : Shape) : Shape → Prop where
  | whole : part.Within part
  | field {rule : RecordRule} {field : String × Rule} (listed : field ∈ rule.fields)
      (inner : part.Within field.2.shape) : part.Within (.record rule)
  | element {element : Rule} (inner : part.Within element.shape) : part.Within (.array element)

theorem Shape.Within.trans {part middle whole : Shape} (inner : part.Within middle)
    (outer : middle.Within whole) : part.Within whole := by
  induction outer with
  | whole => exact inner
  | field listed _ inductionHypothesis => exact .field listed inductionHypothesis
  | element _ inductionHypothesis => exact .element inductionHypothesis

/-- Whether nothing stands inside a shape, nor behind it among the definitions. -/
def Shape.isFlat : Shape → Bool
  | .record _ | .array _ | .lazy _ _ => false
  | _ => true

/-- Induction over a shape: a list may rely on the shape of its items, and a record on those of its
    fields. -/
@[elab_as_elim]
theorem Shape.induction {motive : Shape → Prop}
    (flat : ∀ shape, shape.isFlat = true → motive shape)
    (lazy : ∀ message id, motive (.lazy message id))
    (array : ∀ element : Rule, motive element.shape → motive (.array element))
    (record : ∀ rule : RecordRule, (∀ field ∈ rule.fields, motive field.2.shape) →
      motive (.record rule)) : ∀ shape, motive shape
  | .lazy message id => lazy message id
  | .array element => array element (induction flat lazy array record element.shape)
  | .record rule => record rule fun field _ => induction flat lazy array record field.2.shape
  | .boolean => flat .boolean rfl
  | .number => flat .number rfl
  | .integer unsigned => flat (.integer unsigned) rfl
  | .binary => flat .binary rfl
  | .string => flat .string rfl
  | .any => flat .any rfl
  | .enum name members => flat (.enum name members) rfl
termination_by shape => sizeOf shape
decreasing_by
  · obtain ⟨shape, default, required, empty⟩ := element
    simp only [Shape.array.sizeOf_spec, Rule.mk.sizeOf_spec]
    omega
  · obtain ⟨message, fields, groups, allowUnknown⟩ := rule
    have smaller := List.sizeOf_lt_of_mem ‹field ∈ fields›
    obtain ⟨name, shape, default, required, empty⟩ := field
    simp only [Shape.record.sizeOf_spec, RecordRule.mk.sizeOf_spec, Prod.mk.sizeOf_spec,
      Rule.mk.sizeOf_spec] at smaller ⊢
    omega

theorem Scalar.shape_isFlat (scalar : Scalar) : scalar.shape.isFlat = true := by
  cases scalar <;> rfl

end PayloadSchema
