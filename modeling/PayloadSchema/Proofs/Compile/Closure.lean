import PayloadSchema.Proofs.Registry
import PayloadSchema.Proofs.Rule.Origin

/-! # No reference dangles

Every lazy shape in a compiled registry, in the rule of a validator or in a definition,
has its definition, and that definition was compiled from the message that the shape
stands for.  A check then never meets a lazy shape without one: what is checked next is
always a shape inside the rule at hand, or a definition. -/

namespace PayloadSchema

namespace Definitions

/-- Whether the lazy shapes inside a shape are defined. -/
def Covers (definitions : Definitions) (shape : Shape) : Prop :=
  ∀ message id, (Shape.lazy message id).Within shape → ∃ rule, definitions.get? id = some rule

def Closed (definitions : Definitions) : Prop :=
  ∀ id rule, definitions.get? id = some rule → definitions.Covers (.record rule)

variable {definitions : Definitions}

theorem Covers.field {rule : RecordRule} (covered : definitions.Covers (.record rule))
    {field : String × Rule} (listed : field ∈ rule.fields) : definitions.Covers field.2.shape :=
  fun message id inside => covered message id (.field listed inside)

theorem Covers.element {element : Rule} (covered : definitions.Covers (.array element)) :
    definitions.Covers element.shape :=
  fun message id inside => covered message id (.element inside)

theorem Covers.record? (closed : definitions.Closed) {shape : Shape} {rule : RecordRule}
    (covered : definitions.Covers shape) (meaning : shape.record? definitions = some rule) :
    definitions.Covers (.record rule) := by
  cases shape with
  | record own =>
    cases meaning
    exact covered
  -- The rule stands among the definitions, which cover their own lazy shapes.
  | lazy message id => exact closed id rule meaning
  | _ => cases meaning

end Definitions

theorem Shape.fault?_eq_undefined {definitions : Definitions} {shape : Shape} {value : Json}
    {message : String} (faulty : shape.fault? definitions value = some (.undefined message)) :
    ∃ id, shape = .lazy message id ∧ definitions.get? id = none := by
  rcases Shape.fault?_cases faulty with ⟨_, _, other⟩ | ⟨_, _, _, _, other⟩ |
    ⟨_, _, _, _, _, _, other⟩ | ⟨_, id, rfl, missing, same⟩
  · cases other
  · cases other
  · cases other
  · cases same
    exact ⟨id, rfl, missing⟩

/-- With closed definitions, no check of a covered shape meets a lazy shape that is not
    defined. -/
theorem check_defined {definitions : Definitions} (closed : definitions.Closed) {shape : Shape}
    (covered : definitions.Covers shape) {path : Path} {value : Json} {violation : Violation}
    (found : violation ∈ (check definitions shape path value).violations) (message : String) :
    violation.fault ≠ .undefined message := by
  induction value using Json.inside_induction generalizing shape path with
  | step value inductionHypothesis =>
    rcases check_violation found with ⟨fault, faulty, rfl⟩ |
      ⟨element, items, rfl, rfl, index, item, listed, inner⟩ |
      ⟨rule, members, meaning, rfl, ⟨field, declared, inner⟩ | accused⟩
    · -- Only a lazy shape without a definition is at fault in this way.
      rintro rfl
      obtain ⟨id, rfl, missing⟩ := Shape.fault?_eq_undefined faulty
      obtain ⟨rule, present⟩ := covered message id .whole
      rw [missing] at present
      cases present
    · rcases Rule.checkGiven_violation inner with ⟨rfl, _⟩ | ⟨value, same, inner⟩
      · exact Fault.noConfusion
      · cases same
        have part := Json.Inside.item (List.mem_of_getElem? listed)
        exact inductionHypothesis item part covered.element inner
    · rcases Rule.checkGiven_violation inner with ⟨rfl, _⟩ | ⟨value, present, inner⟩
      · exact Fault.noConfusion
      · have part := Json.Inside.member (Members.mem_of_get? present)
        exact inductionHypothesis value part ((covered.record? closed meaning).field declared) inner
    · cases accused with
      | undeclared listed refused => exact Fault.noConfusion
      | group listed faulty =>
        rcases Group.fault?_eq_some faulty with ⟨rfl, _⟩ | ⟨rfl, _⟩ <;> exact Fault.noConfusion

/-- Whether a lazy shape is defined by a rule that was compiled from the message it stands
    for. -/
def Definitions.Resolves (catalog : Catalog) (options : Options) (definitions : Definitions)
    (message : String) (id : MessageId) : Prop :=
  ∃ (target : catalog.Listed) (rule : RecordRule), target.1.id = id ∧
    definitions.get? id = some rule ∧ Compiled catalog options target rule ∧
    target.1.message.name = message ∧ rule.message = message ∧
    rule.fields.map Prod.fst = target.1.message.fields.map Field.name

section

variable {catalog : Catalog} {options : Options} {definitions : Definitions}

theorem RecordImage.resolves (sound : definitions.Sound catalog options)
    (identified : catalog.Identified) {rule : RecordRule} {target : catalog.Listed}
    (image : RecordImage catalog options (definitions.map Prod.fst) rule target)
    {message : String} {id : MessageId} (inside : (Shape.lazy message id).Within (.record rule)) :
    definitions.Resolves catalog options message id := by
  obtain ⟨known, target, identity, named⟩ := ((PartImage.rule image).within inside).of_lazy rfl
  obtain ⟨stored, found⟩ := Definitions.get?_of_mem known
  obtain ⟨source, same, compiled, image⟩ := sound.image id stored (Definitions.mem_of_get? found)
  obtain rfl := identified.eq_of_id (same.trans identity.symm)
  cases image with
  | intro images => exact ⟨source, _, same, found, compiled, named, named, images.names⟩

theorem RecordImage.covers (sound : definitions.Sound catalog options)
    (identified : catalog.Identified) {rule : RecordRule} {target : catalog.Listed}
    (image : RecordImage catalog options (definitions.map Prod.fst) rule target) :
    definitions.Covers (.record rule) := by
  intro message id inside
  obtain ⟨_, stored, _, found, _⟩ := image.resolves sound identified inside
  exact ⟨stored, found⟩

theorem Definitions.Sound.closed (sound : definitions.Sound catalog options)
    (identified : catalog.Identified) : definitions.Closed := by
  intro id rule found
  obtain ⟨_, _, _, image⟩ := sound.image id rule (Definitions.mem_of_get? found)
  exact image.covers sound identified

end

/-- Whether no reference of a registry dangles. -/
structure Registry.Closed (catalog : Catalog) (options : Options) (registry : Registry)
    (definitions : Definitions) : Prop where
  shared : ∀ validator ∈ registry.validators, validator.definitions = definitions
  /-- Lazy shapes resolve, in the rules of validators and in definitions. -/
  resolved : ∀ rule,
    ((∃ validator ∈ registry.validators, rule = validator.rule) ∨ ∃ id, (id, rule) ∈ definitions) →
    ∀ message id, (Shape.lazy message id).Within (.record rule) →
      definitions.Resolves catalog options message id
  /-- No payload is refused for want of a definition. -/
  defined : ∀ validator ∈ registry.validators, ∀ payload violations,
    validator.validate payload = .error violations →
    ∀ violation ∈ violations, ∀ message, violation.fault ≠ .undefined message

namespace Schema

variable {schema : Schema} {options : Options} {registry : Registry}

/-- In a compiled registry every lazy shape has the definition of its message, so that no
    payload is ever refused for want of one. -/
theorem compile_closed (compiled : schema.compile options = .ok registry) :
    ∃ definitions, registry.Closed (Catalog.ofSchema schema) options definitions := by
  obtain ⟨definitions, sound, shared⟩ := compile_shares compiled
  have identified := Catalog.ofSchema_identified schema
  refine ⟨definitions, shared, ?_, ?_⟩
  · intro rule origin message id inside
    rcases origin with ⟨validator, listed, rfl⟩ | ⟨key, listed⟩
    · obtain ⟨root, _, serves⟩ := serves_of_mem compiled listed
      rw [← shared validator listed]
      exact serves.image.resolves serves.sound identified inside
    · obtain ⟨target, _, _, image⟩ := sound.image key rule listed
      exact image.resolves sound identified inside
  · intro validator listed payload violations refused violation found message
    obtain ⟨root, _, serves⟩ := serves_of_mem compiled listed
    have closed := serves.sound.closed identified
    have covered := serves.image.covers serves.sound identified
    rw [← checkPayload_eq_error refused] at found
    exact check_defined closed covered found message

theorem accounts_closed :
    ∃ registry, accounts.compile {} = .ok registry ∧
      (registry.get? "Person").map (·.rule.lazyIds) = some [1, 1] ∧
      ∃ definitions, registry.Closed (Catalog.ofSchema accounts) {} definitions := by
  obtain ⟨registry, compiled⟩ := accounts_compile
  have evaluated : (accounts.compile {}).toOption.bind (fun registry =>
      (registry.get? "Person").map (·.rule.lazyIds)) = some [1, 1] := by decide +kernel
  rw [compiled] at evaluated
  exact ⟨registry, compiled, evaluated, compile_closed compiled⟩

end Schema

end PayloadSchema
