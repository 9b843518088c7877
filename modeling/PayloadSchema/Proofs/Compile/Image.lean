import PayloadSchema.Proofs.Rule.Field
import PayloadSchema.Proofs.Rule.Part
import PayloadSchema.Rule.Message

/-! # Images of messages

A rule is an image of a message if it could have been compiled from it, wherever the
cycles of references are cut: each reference to a message is either the image of that
message in place, or a lazy shape that names it.  The relation looks at the catalog
alone and knows nothing of the order of compilation, of what was being compiled, or of
the definitions. -/

namespace PayloadSchema

variable {catalog : Catalog} {options : Options} {known : List MessageId}

mutual

/-- A shape that stands for a message: its rule, or a lazy reference if it is known. -/
inductive ShapeImage (catalog : Catalog) (options : Options) (known : List MessageId) :
    Shape → catalog.Listed → Prop where
  | record {rule : RecordRule} {target : catalog.Listed}
      (image : RecordImage catalog options known rule target) :
      ShapeImage catalog options known (.record rule) target
  | lazy {target : catalog.Listed} (deferred : target.1.id ∈ known) :
      ShapeImage catalog options known (.lazy target.1.message.name target.1.id) target

/-- A rule that stands for a message. -/
inductive RecordImage (catalog : Catalog) (options : Options) (known : List MessageId) :
    RecordRule → catalog.Listed → Prop where
  | intro {target : catalog.Listed} {fields : List (String × Rule)}
      (images : FieldImages catalog options known target.1 target.1.message.fields fields) :
      RecordImage catalog options known
        { message := target.1.message.name
          fields
          groups := target.1.message.groups
          allowUnknown := options.allowUnknown } target

inductive FieldImages (catalog : Catalog) (options : Options) (known : List MessageId) :
    Entry → List Field → List (String × Rule) → Prop where
  | nil {scope : Entry} : FieldImages catalog options known scope [] []
  | cons {scope : Entry} {field : Field} {rest : List Field} {type : FieldType} {rule : Rule}
      {rules : List (String × Rule)}
      (typed : TypeImage catalog options known scope field.typeName type)
      (composed : field.rule scope.message.name type options = .ok rule)
      (images : FieldImages catalog options known scope rest rules) :
      FieldImages catalog options known scope (field :: rest) ((field.name, rule) :: rules)

/-- What a type name means inside a message. -/
inductive TypeImage (catalog : Catalog) (options : Options) (known : List MessageId) :
    Entry → String → FieldType → Prop where
  | scalar {scope : Entry} {name : String} {scalar : Scalar}
      (named : Scalar.ofName? name = some scalar) :
      TypeImage catalog options known scope name ⟨scalar.shape, .literal scalar.literalKind⟩
  | enum {scope : Entry} {name : String} {enum : EnumType}
      (declared : Scalar.ofName? name = none) (found : catalog.referent scope name = .enum enum) :
      TypeImage catalog options known scope name ⟨.enum enum.name enum.names, .member enum.names⟩
  | message {scope : Entry} {name : String} {target : catalog.Listed} {shape : Shape}
      (declared : Scalar.ofName? name = none)
      (found : catalog.referent scope name = .message target)
      (image : ShapeImage catalog options known shape target) :
      TypeImage catalog options known scope name ⟨shape, .forbidden⟩

end

mutual

theorem ShapeImage.mono {more : List MessageId} (grown : known ⊆ more) :
    ∀ {shape : Shape} {target : catalog.Listed}, ShapeImage catalog options known shape target →
      ShapeImage catalog options more shape target
  | _, _, .record image => .record (image.mono grown)
  | _, _, .lazy deferred => .lazy (grown deferred)

theorem RecordImage.mono {more : List MessageId} (grown : known ⊆ more) :
    ∀ {rule : RecordRule} {target : catalog.Listed}, RecordImage catalog options known rule target →
      RecordImage catalog options more rule target
  | _, _, .intro images => .intro (images.mono grown)

theorem FieldImages.mono {more : List MessageId} (grown : known ⊆ more) :
    ∀ {scope : Entry} {fields : List Field} {rules : List (String × Rule)},
      FieldImages catalog options known scope fields rules →
      FieldImages catalog options more scope fields rules
  | _, _, _, .nil => .nil
  | _, _, _, .cons typed composed images => .cons (typed.mono grown) composed (images.mono grown)

theorem TypeImage.mono {more : List MessageId} (grown : known ⊆ more) :
    ∀ {scope : Entry} {name : String} {type : FieldType},
      TypeImage catalog options known scope name type →
      TypeImage catalog options more scope name type
  | _, _, _, .scalar named => .scalar named
  | _, _, _, .enum declared found => .enum declared found
  | _, _, _, .message declared found image => .message declared found (image.mono grown)

end

namespace FieldImages

variable {scope : Entry} {fields : List Field} {rules : List (String × Rule)}

theorem names (images : FieldImages catalog options known scope fields rules) :
    rules.map Prod.fst = fields.map Field.name := by
  induction fields generalizing rules with
  | nil => cases images; rfl
  | cons field rest inductionHypothesis =>
    cases images with
    | cons typed composed images => simp [inductionHypothesis images]

theorem of_rule (images : FieldImages catalog options known scope fields rules)
    {name : String} {rule : Rule} (listed : (name, rule) ∈ rules) :
    ∃ field ∈ fields, field.name = name ∧ ∃ type,
      TypeImage catalog options known scope field.typeName type ∧
      field.rule scope.message.name type options = .ok rule := by
  induction fields generalizing rules with
  | nil => cases images; cases listed
  | cons field rest inductionHypothesis =>
    cases images with
    | cons typed composed images =>
      rw [List.mem_cons] at listed
      cases listed with
      | inl first =>
        cases first
        exact ⟨field, by simp, rfl, _, typed, composed⟩
      | inr later =>
        obtain ⟨other, member, image⟩ := inductionHypothesis images later
        exact ⟨other, by simp [member], image⟩

theorem of_field (images : FieldImages catalog options known scope fields rules)
    {field : Field} (declared : field ∈ fields) :
    ∃ rule type, (field.name, rule) ∈ rules ∧
      TypeImage catalog options known scope field.typeName type ∧
      field.rule scope.message.name type options = .ok rule := by
  induction fields generalizing rules with
  | nil => cases declared
  | cons first rest inductionHypothesis =>
    cases images with
    | cons typed composed images =>
      rw [List.mem_cons] at declared
      cases declared with
      | inl same =>
        subst same
        exact ⟨_, _, by simp, typed, composed⟩
      | inr later =>
        obtain ⟨rule, type, listed, image⟩ := inductionHypothesis images later
        exact ⟨rule, type, by simp [listed], image⟩

end FieldImages

namespace RecordImage

variable {record : RecordRule} {target : catalog.Listed}

theorem names (image : RecordImage catalog options known record target) :
    record.message = target.1.message.name ∧
      record.fields.map Prod.fst = target.1.message.fields.map Field.name := by
  cases image with
  | intro images => exact ⟨rfl, images.names⟩

theorem groups (image : RecordImage catalog options known record target) :
    record.groups = target.1.message.groups := by
  cases image with
  | intro images => rfl

theorem allowUnknown (image : RecordImage catalog options known record target) :
    record.allowUnknown = options.allowUnknown := by
  cases image with
  | intro images => rfl

theorem names_nodup (image : RecordImage catalog options known record target)
    (distinct : (target.1.message.fields.map Field.name).Nodup) :
    (record.fields.map Prod.fst).Nodup :=
  image.names.2 ▸ distinct

theorem of_rule (image : RecordImage catalog options known record target) {name : String}
    {rule : Rule} (listed : (name, rule) ∈ record.fields) :
    ∃ field ∈ target.1.message.fields, field.name = name ∧ ∃ type,
      TypeImage catalog options known target.1 field.typeName type ∧
      field.rule target.1.message.name type options = .ok rule := by
  cases image with
  | intro images => exact images.of_rule listed

theorem of_field (image : RecordImage catalog options known record target) {field : Field}
    (declared : field ∈ target.1.message.fields) :
    ∃ rule type, (field.name, rule) ∈ record.fields ∧
      TypeImage catalog options known target.1 field.typeName type ∧
      field.rule target.1.message.name type options = .ok rule := by
  cases image with
  | intro images => exact images.of_field declared

end RecordImage

/-- The shapes that images are made of: those of types, the lists of them, and rules of
    messages. -/
inductive PartImage (catalog : Catalog) (options : Options) (known : List MessageId) :
    Shape → Prop where
  | type {scope : Entry} {name : String} {type : FieldType}
      (image : TypeImage catalog options known scope name type) :
      PartImage catalog options known type.shape
  | items {scope : Entry} {name : String} {type : FieldType} {default : Option Json}
      (image : TypeImage catalog options known scope name type) :
      PartImage catalog options known (.array { shape := type.shape, default })
  | rule {rule : RecordRule} {target : catalog.Listed}
      (image : RecordImage catalog options known rule target) :
      PartImage catalog options known (.record rule)

theorem TypeImage.message_of_not_flat {scope : Entry} {name : String} {type : FieldType}
    (image : TypeImage catalog options known scope name type)
    (layered : type.shape.isFlat = false) :
    ∃ target, ShapeImage catalog options known type.shape target := by
  cases image with
  | scalar named =>
    rw [Scalar.shape_isFlat] at layered
    cases layered
  | enum declared found => cases layered
  | message declared found image => exact ⟨_, image⟩

theorem TypeImage.not_array {scope : Entry} {name : String} {type : FieldType}
    (image : TypeImage catalog options known scope name type) (element : Rule) :
    type.shape ≠ .array element := by
  intro list
  obtain ⟨target, image⟩ := image.message_of_not_flat (by rw [list]; rfl)
  rw [list] at image
  cases image

namespace PartImage

variable {shape : Shape}

theorem of_record (image : PartImage catalog options known shape) {rule : RecordRule}
    (same : shape = .record rule) : ∃ target, RecordImage catalog options known rule target := by
  cases image with
  | type image =>
    obtain ⟨target, image⟩ := image.message_of_not_flat (by rw [same]; rfl)
    rw [same] at image
    cases image with
    | record image => exact ⟨target, image⟩
  | items image => cases same
  | rule image =>
    cases same
    exact ⟨_, image⟩

theorem of_lazy (image : PartImage catalog options known shape) {message : String}
    {id : MessageId} (same : shape = .lazy message id) :
    id ∈ known ∧ ∃ target : catalog.Listed, target.1.id = id ∧ target.1.message.name = message := by
  cases image with
  | type image =>
    obtain ⟨target, image⟩ := image.message_of_not_flat (by rw [same]; rfl)
    rw [same] at image
    cases image with
    | lazy deferred => exact ⟨deferred, target, rfl, rfl⟩
  | items image => cases same
  | rule image => cases same

theorem of_array (image : PartImage catalog options known shape) {element : Rule}
    (same : shape = .array element) :
    ∃ scope name type default, TypeImage catalog options known scope name type ∧
      element = { shape := type.shape, default } := by
  cases image with
  | type image => exact absurd same (image.not_array element)
  | items image =>
    cases same
    exact ⟨_, _, _, _, image, rfl⟩
  | rule image => cases same

theorem element {element : Rule} (image : PartImage catalog options known (.array element)) :
    PartImage catalog options known element.shape := by
  obtain ⟨_, _, _, _, typed, rfl⟩ := image.of_array rfl
  exact .type typed

theorem of_field {scope : Entry} {field : Field} {type : FieldType} {rule : Rule}
    (typed : TypeImage catalog options known scope field.typeName type)
    (composed : field.rule scope.message.name type options = .ok rule) :
    PartImage catalog options known rule.shape := by
  obtain ⟨default, _, rfl⟩ := Field.rule_eq_ok_iff.mp composed
  rw [Field.ruleOf_shape]
  cases field.repeated with
  | false => exact .type typed
  | true => exact .items typed

/-- Inside an image, every other part stems from a field: it has the shape of the field's rule,
    or of its type. -/
theorem origin {part whole : Shape} (image : PartImage catalog options known whole)
    (inside : part.Within whole) :
    part = whole ∨
    (∃ scope name type, TypeImage catalog options known scope name type ∧ part = type.shape) ∨
    ∃ (scope : Entry) (field : Field) (type : FieldType) (rule : Rule),
      TypeImage catalog options known scope field.typeName type ∧
      field.rule scope.message.name type options = .ok rule ∧ part = rule.shape := by
  -- The induction climbs down from the whole to the part, one field or element at a time.
  induction inside with
  | whole => exact .inl rfl
  | field listed _ inductionHypothesis =>
    obtain ⟨target, image⟩ := image.of_record rfl
    obtain ⟨field, _, _, type, typed, composed⟩ := image.of_rule listed
    rcases inductionHypothesis (of_field typed composed) with rfl | deeper
    · exact .inr (.inr ⟨target.1, field, type, _, typed, composed, rfl⟩)
    · exact .inr deeper
  | element _ inductionHypothesis =>
    obtain ⟨scope, name, type, _, typed, rfl⟩ := image.of_array rfl
    rcases inductionHypothesis (.type typed) with rfl | deeper
    · exact .inr (.inl ⟨scope, name, type, typed, rfl⟩)
    · exact .inr deeper

theorem within {part whole : Shape} (image : PartImage catalog options known whole)
    (inside : part.Within whole) : PartImage catalog options known part := by
  rcases image.origin inside with rfl | ⟨_, _, _, typed, rfl⟩ | ⟨_, _, _, _, typed, composed, rfl⟩
  · exact image
  · exact .type typed
  · exact of_field typed composed

end PartImage

end PayloadSchema
