import PayloadSchema.Proofs.Except
import PayloadSchema.Rule.Field

/-! # The modifiers of a field

The rule of a field, modifier by modifier, and when the field has one at all: exactly
if its literal, where it states one, may stand as its default. -/

namespace PayloadSchema.Field

variable (field : Field) (shape : Shape) (default : Option Json) (options : Options)

@[simp] theorem ruleOf_required :
    (field.ruleOf shape default options).required = field.required := rfl

@[simp] theorem ruleOf_empty : (field.ruleOf shape default options).empty = options.empty := rfl

@[simp] theorem ruleOf_shape :
    (field.ruleOf shape default options).shape =
      if field.repeated then .array { shape, default } else shape := by
  cases repeated : field.repeated <;> simp [ruleOf, repeated]

@[simp] theorem ruleOf_default :
    (field.ruleOf shape default options).default = if field.repeated then none else default := by
  cases repeated : field.repeated <;> simp [ruleOf, repeated]

variable {field default}

theorem defaultValue_eq_ok_iff {message : String} {form : DefaultForm} :
    field.defaultValue message form = .ok default ↔
      default = field.default.bind form.read? ∧
        ∀ literal, field.default = some literal → (form.read? literal).isSome := by
  cases stated : field.default with
  | none =>
    simp only [defaultValue, stated, Except.ok.injEq, Option.bind_none, reduceCtorEq,
      false_implies, implies_true, and_true]
    exact eq_comm
  | some literal =>
    cases read : form.read? literal with
    | none => simp [defaultValue, stated, read]
    | some value =>
      simp only [defaultValue, stated, read, Except.ok.injEq, Option.bind_some,
        Option.some.injEq, forall_eq', Option.isSome_some, and_true]
      exact eq_comm

theorem defaultValue_eq_error {message : String} {form : DefaultForm} {error : SchemaError}
    (refused : field.defaultValue message form = .error error) :
    ∃ literal, field.default = some literal ∧ form.read? literal = none ∧
      error = .unfitDefault message field.name literal field.typeName := by
  cases stated : field.default with
  | none => simp [defaultValue, stated] at refused
  | some literal =>
    cases read : form.read? literal with
    | none =>
      simp only [defaultValue, stated, read, Except.error.injEq] at refused
      exact ⟨literal, rfl, read, refused.symm⟩
    | some value => simp [defaultValue, stated, read] at refused

theorem rule_eq_ok_iff {options : Options} {message : String} {type : FieldType} {rule : Rule} :
    field.rule message type options = .ok rule ↔
      ∃ default, field.defaultValue message type.defaultForm = .ok default ∧
        field.ruleOf type.shape default options = rule :=
  map_eq_ok_iff

theorem rule_eq_error_iff {options : Options} {message : String} {type : FieldType}
    {error : SchemaError} :
    field.rule message type options = .error error ↔
      field.defaultValue message type.defaultForm = .error error :=
  map_eq_error_iff

end PayloadSchema.Field
