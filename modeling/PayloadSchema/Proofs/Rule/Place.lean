import PayloadSchema.Proofs.Json.Members
import PayloadSchema.Proofs.Rule.Part
import PayloadSchema.Rule.Check

/-! # Places

A path leads from a payload to a value inside it, and along the same steps from the shape
of the payload to the shape that is asked about that value: a key leads to the rule of a
field, be the record in place or among the definitions, and a position to the rule of the
items. -/

namespace PayloadSchema

namespace Json

/-- What stands one step inside a value. -/
def part? : Json → Step → Option Json
  | .obj members, .field name => Members.get? members name
  | .arr items, .index position => items[position]?
  | _, _ => none

/-- What stands at a place inside a value. -/
def at? (value : Json) : Path → Option Json
  | [] => some value
  | step :: rest => (value.part? step).bind fun part => part.at? rest

@[simp] theorem at?_nil (value : Json) : value.at? [] = some value := rfl

theorem at?_append (value : Json) (path rest : Path) :
    value.at? (path ++ rest) = (value.at? path).bind fun part => part.at? rest := by
  induction path generalizing value with
  | nil => rfl
  | cons step further inductionHypothesis =>
    rw [List.cons_append, at?, at?, Option.bind_assoc]
    simp only [inductionHypothesis]

theorem at?_field {payload : Json} {path : Path} {members : Members}
    (reached : payload.at? path = some (.obj members)) (name : String) :
    payload.at? (path.field name) = members.get? name := by
  simp [Path.field, at?_append, reached, at?, part?]

theorem at?_index {payload : Json} {path : Path} {items : List Json}
    (reached : payload.at? path = some (.arr items)) (position : Nat) :
    payload.at? (path.index position) = items[position]? := by
  simp [Path.index, at?_append, reached, at?, part?]

end Json

namespace Shape

variable {definitions : Definitions}

/-- The rule that a shape has for what stands one step inside a value. -/
def part? (definitions : Definitions) : Shape → Step → Option Rule
  | shape, .field name => (shape.record? definitions).bind (·.field? name)
  | .array element, .index _ => some element
  | _, .index _ => none

/-- The shape that is asked about the value at a place. -/
def at? (definitions : Definitions) (shape : Shape) : Path → Option Shape
  | [] => some shape
  | step :: rest => (shape.part? definitions step).bind fun rule => rule.shape.at? definitions rest

@[simp] theorem at?_nil (shape : Shape) : shape.at? definitions [] = some shape := rfl

theorem at?_append (shape : Shape) (path rest : Path) :
    shape.at? definitions (path ++ rest) =
      (shape.at? definitions path).bind fun part => part.at? definitions rest := by
  induction path generalizing shape with
  | nil => rfl
  | cons step further inductionHypothesis =>
    rw [List.cons_append, at?, at?, Option.bind_assoc]
    simp only [inductionHypothesis]

theorem at?_field {shape there : Shape} {path : Path}
    (judged : shape.at? definitions path = some there) {rule : RecordRule}
    (meaning : there.record? definitions = some rule)
    (distinct : (rule.fields.map Prod.fst).Nodup) {field : String × Rule}
    (declared : field ∈ rule.fields) :
    shape.at? definitions (path.field field.1) = some field.2.shape := by
  have found : rule.field? field.1 = some field.2 := lookup_of_mem distinct declared
  simp [Path.field, at?_append, judged, at?, part?, meaning, found]

theorem at?_index {shape : Shape} {element : Rule} {path : Path}
    (judged : shape.at? definitions path = some (.array element)) (position : Nat) :
    shape.at? definitions (path.index position) = some element.shape := by
  simp [Path.index, at?_append, judged, at?, part?]

theorem eq_array_of_part? {shape : Shape} {position : Nat} {element : Rule}
    (asked : shape.part? definitions (.index position) = some element) : shape = .array element := by
  cases shape with
  | array own =>
    cases asked
    rfl
  | _ => cases asked

theorem within_of_part? {shape : Shape} {step : Step} {rule : Rule}
    (asked : shape.part? definitions step = some rule) :
    rule.shape.Within shape ∨
      ∃ id stored, definitions.get? id = some stored ∧ rule.shape.Within (.record stored) := by
  cases step with
  | index position =>
    obtain rfl := eq_array_of_part? asked
    exact .inl (.element .whole)
  | field name =>
    obtain ⟨record, meaning, found⟩ := Option.bind_eq_some_iff.mp asked
    obtain ⟨before, after, split, _⟩ := List.lookup_eq_some_iff.mp found
    have listed : (name, rule) ∈ record.fields := by simp [split]
    cases shape with
    | record own =>
      cases meaning
      exact .inl (.field listed .whole)
    | lazy message id => exact .inr ⟨id, record, meaning, .field listed .whole⟩
    | _ => cases meaning

/-- The shape at a place stands inside the shape of the payload, or inside a definition. -/
theorem within_of_at? {shape there : Shape} {path : Path}
    (judged : shape.at? definitions path = some there) :
    there.Within shape ∨
      ∃ id stored, definitions.get? id = some stored ∧ there.Within (.record stored) := by
  induction path generalizing shape with
  | nil =>
    cases judged
    exact .inl .whole
  | cons step rest inductionHypothesis =>
    obtain ⟨rule, asked, further⟩ := Option.bind_eq_some_iff.mp judged
    rcases inductionHypothesis further with inside | stored
    · rcases within_of_part? asked with inner | ⟨id, stored, found, inner⟩
      · exact .inl (inside.trans inner)
      · exact .inr ⟨id, stored, found, inside.trans inner⟩
    · exact .inr stored

end Shape

end PayloadSchema
