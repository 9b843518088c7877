import PayloadSchema.Proofs.Rule.Field
import PayloadSchema.Rule.Message

/-! # The steps of a compilation

Compiling a message is compiling its fields in turn, where a reference to another
message either descends into it or is put off.  The lemmas here say when each of
these steps succeeds and when it fails, and give the induction that follows the
descent: it ends because every message that is entered is one less to enter. -/

namespace PayloadSchema

variable {catalog : Catalog} {options : Options}

/-- Induction along a descent: a message may rely on those that can be entered inside it. -/
theorem Catalog.descent
    {motive : ∀ active (target : catalog.Listed), active.contains target.1.id = false → Prop}
    (enter : ∀ active target fresh, (∀ next known, motive (target.1.id :: active) next known) →
      motive active target fresh)
    (active : List MessageId) (target : catalog.Listed)
    (fresh : active.contains target.1.id = false) : motive active target fresh :=
  enter active target fresh fun next known => descent enter (target.1.id :: active) next known
termination_by catalog.remaining active
decreasing_by exact remaining_cons_lt Entry.id catalog.entries active target.1 target.2 fresh

/-- How a reference is compiled while the messages in `active` are being compiled. -/
def compileReference (catalog : Catalog) (options : Options) (active : List MessageId) :
    Reference catalog := fun next progress =>
  if fresh : active.contains next.1.id = false then
    match compileMessage catalog options active next fresh progress with
    | .ok (rule, progress) => .ok (.record rule, progress)
    | .error error => .error error
  else .ok (.lazy next.1.message.name next.1.id, progress.defer next.1.id)

def Message.ruleOf (message : Message) (options : Options) (fields : List (String × Rule)) :
    RecordRule :=
  { message := message.name, fields, groups := message.groups,
    allowUnknown := options.allowUnknown }

theorem compileMessage_eq (active : List MessageId) (target : catalog.Listed)
    (fresh : active.contains target.1.id = false) (progress : Progress) :
    compileMessage catalog options active target fresh progress =
      match compileFields catalog options
          (compileReference catalog options (target.1.id :: active)) target.1
          target.1.message.fields progress with
      | .error error => .error error
      | .ok (fields, progress) =>
        .ok (target.1.message.ruleOf options fields,
          progress.finish target.1.id (target.1.message.ruleOf options fields)) := by
  rw [compileMessage]
  rfl

theorem compileMessage_eq_ok {active : List MessageId} {target : catalog.Listed}
    {fresh : active.contains target.1.id = false} {before after : Progress} {rule : RecordRule}
    (compiled : compileMessage catalog options active target fresh before = .ok (rule, after)) :
    ∃ fields progress, compileFields catalog options
        (compileReference catalog options (target.1.id :: active)) target.1
        target.1.message.fields before = .ok (fields, progress) ∧
      rule = target.1.message.ruleOf options fields ∧
      after = progress.finish target.1.id rule := by
  rw [compileMessage_eq] at compiled
  split at compiled
  next => cases compiled
  next fields progress succeeded =>
    cases compiled
    exact ⟨fields, progress, succeeded, rfl, rfl⟩

theorem compileMessage_eq_error {active : List MessageId} {target : catalog.Listed}
    {fresh : active.contains target.1.id = false} {before : Progress} {error : SchemaError}
    (failed : compileMessage catalog options active target fresh before = .error error) :
    compileFields catalog options
      (compileReference catalog options (target.1.id :: active)) target.1
      target.1.message.fields before = .error error := by
  rw [compileMessage_eq] at failed
  split at failed
  next refused =>
    cases failed
    exact refused
  next => cases failed

theorem compileReference_eq_ok {active : List MessageId} {next : catalog.Listed}
    {before after : Progress} {shape : Shape}
    (compiled : compileReference catalog options active next before = .ok (shape, after)) :
    (∃ fresh rule, compileMessage catalog options active next fresh before = .ok (rule, after) ∧
      shape = .record rule) ∨
    (next.1.id ∈ active ∧ shape = .lazy next.1.message.name next.1.id ∧
      after = before.defer next.1.id) := by
  rw [compileReference] at compiled
  -- Whether the message is being compiled decides between the two.
  split at compiled
  next fresh =>
    split at compiled
    next rule progress succeeded =>
      cases compiled
      exact .inl ⟨fresh, rule, succeeded, rfl⟩
    next => cases compiled
  next known =>
    cases compiled
    exact .inr ⟨by simpa using known, rfl, rfl⟩

theorem compileReference_eq_error {active : List MessageId} {next : catalog.Listed}
    {before : Progress} {error : SchemaError}
    (failed : compileReference catalog options active next before = .error error) :
    ∃ fresh, compileMessage catalog options active next fresh before = .error error := by
  rw [compileReference] at failed
  split at failed
  next fresh =>
    split at failed
    next => cases failed
    next refused =>
      cases failed
      exact ⟨fresh, refused⟩
  next => cases failed

variable {reference : Reference catalog} {scope : Entry}

theorem fieldType_eq_ok {field : Field} {before after : Progress} {type : FieldType}
    (typed : fieldType catalog reference scope field before = .ok (type, after)) :
    (∃ scalar, Scalar.ofName? field.typeName = some scalar ∧
      type = ⟨scalar.shape, .literal scalar.literalKind⟩ ∧ after = before) ∨
    Scalar.ofName? field.typeName = none ∧
      ((∃ enum, catalog.referent scope field.typeName = .enum enum ∧
        type = ⟨.enum enum.name enum.names, .member enum.names⟩ ∧ after = before) ∨
      ∃ target shape, catalog.referent scope field.typeName = .message target ∧
        reference target before = .ok (shape, after) ∧ type = ⟨shape, .forbidden⟩) := by
  rw [fieldType] at typed
  split at typed
  next scalar named =>
    cases typed
    exact .inl ⟨scalar, named, rfl, rfl⟩
  next declared =>
    split at typed
    next enum found =>
      cases typed
      exact .inr ⟨declared, .inl ⟨enum, found, rfl, rfl⟩⟩
    next target found =>
      split at typed
      next shape progress referred =>
        cases typed
        exact .inr ⟨declared, .inr ⟨target, shape, found, referred, rfl⟩⟩
      next => cases typed
    next => cases typed

theorem fieldType_eq_error {field : Field} {before : Progress} {error : SchemaError}
    (failed : fieldType catalog reference scope field before = .error error) :
    Scalar.ofName? field.typeName = none ∧
      ((catalog.referent scope field.typeName = .nothing ∧
        error = .unknownType scope.message.name field.name field.typeName) ∨
      ∃ target, catalog.referent scope field.typeName = .message target ∧
        reference target before = .error error) := by
  rw [fieldType] at failed
  split at failed
  next => cases failed
  next declared =>
    split at failed
    next => cases failed
    next target found =>
      split at failed
      next => cases failed
      next refused =>
        cases failed
        exact ⟨declared, .inr ⟨target, found, refused⟩⟩
    next found =>
      cases failed
      exact ⟨declared, .inl ⟨found, rfl⟩⟩

theorem compileFields_cons_eq_ok {field : Field} {rest : List Field} {before after : Progress}
    {rules : List (String × Rule)}
    (compiled : compileFields catalog options reference scope (field :: rest) before =
      .ok (rules, after)) :
    ∃ type progress rule others,
      fieldType catalog reference scope field before = .ok (type, progress) ∧
      field.rule scope.message.name type options = .ok rule ∧
      compileFields catalog options reference scope rest progress = .ok (others, after) ∧
      rules = (field.name, rule) :: others := by
  rw [compileFields] at compiled
  split at compiled
  next => cases compiled
  next type progress typed =>
    split at compiled
    next => cases compiled
    next rule composed =>
      split at compiled
      next => cases compiled
      next others final succeeded =>
        cases compiled
        exact ⟨type, progress, rule, others, typed, composed, succeeded, rfl⟩

theorem compileFields_eq_error {fields : List Field} {before : Progress} {error : SchemaError}
    (failed : compileFields catalog options reference scope fields before = .error error) :
    ∃ field ∈ fields, ∃ progress,
      fieldType catalog reference scope field progress = .error error ∨
      ∃ type after, fieldType catalog reference scope field progress = .ok (type, after) ∧
        field.defaultValue scope.message.name type.defaultForm = .error error := by
  induction fields generalizing before with
  | nil => cases failed
  | cons field rest inductionHypothesis =>
    rw [compileFields] at failed
    split at failed
    next refused =>
      cases failed
      exact ⟨field, by simp, before, .inl refused⟩
    next type progress typed =>
      split at failed
      next refused =>
        cases failed
        exact ⟨field, by simp, before, .inr ⟨type, progress, typed,
          Field.rule_eq_error_iff.mp refused⟩⟩
      next rule composed =>
        split at failed
        next refused =>
          cases failed
          obtain ⟨other, later, cause⟩ := inductionHypothesis refused
          exact ⟨other, by simp [later], cause⟩
        next => cases failed

theorem compileFields_keeps {Holds : Progress → Prop} {fields : List Field}
    {before after : Progress} {rules : List (String × Rule)}
    (referred : ∀ field ∈ fields, ∀ target,
      catalog.referent scope field.typeName = .message target → ∀ before shape after,
      reference target before = .ok (shape, after) → Holds before → Holds after)
    (compiled : compileFields catalog options reference scope fields before = .ok (rules, after))
    (holds : Holds before) : Holds after := by
  induction fields generalizing before rules with
  | nil =>
    cases compiled
    exact holds
  | cons field rest inductionHypothesis =>
    obtain ⟨type, progress, _, _, typed, _, succeeded, _⟩ := compileFields_cons_eq_ok compiled
    refine inductionHypothesis (fun other listed => referred other (.tail field listed))
      succeeded ?_
    rcases fieldType_eq_ok typed with ⟨_, _, _, rfl⟩ | ⟨_, ⟨_, _, _, rfl⟩ | reference⟩
    · exact holds
    · exact holds
    · obtain ⟨target, shape, found, succeeded, _⟩ := reference
      exact referred field List.mem_cons_self target found before shape progress succeeded holds

theorem compileRoots_cons_eq_ok {root : catalog.Listed} {rest : List catalog.Listed}
    {before after : Progress} {rules : List RecordRule}
    (compiled : compileRoots catalog options (root :: rest) before = .ok (rules, after)) :
    ∃ rule progress others,
      compileMessage catalog options [] root rfl before = .ok (rule, progress) ∧
      compileRoots catalog options rest progress = .ok (others, after) ∧
      rules = rule :: others := by
  rw [compileRoots] at compiled
  split at compiled
  next => cases compiled
  next rule progress succeeded =>
    split at compiled
    next => cases compiled
    next others final later =>
      cases compiled
      exact ⟨rule, progress, others, succeeded, later, rfl⟩

theorem compileRoots_keeps {Holds : Progress → Prop} {roots : List catalog.Listed}
    {before after : Progress} {rules : List RecordRule}
    (kept : ∀ root ∈ roots, ∀ before rule after,
      compileMessage catalog options [] root rfl before = .ok (rule, after) →
      Holds before → Holds after)
    (compiled : compileRoots catalog options roots before = .ok (rules, after))
    (holds : Holds before) : Holds after := by
  induction roots generalizing before rules with
  | nil =>
    cases compiled
    exact holds
  | cons root rest inductionHypothesis =>
    obtain ⟨rule, progress, others, first, later, _⟩ := compileRoots_cons_eq_ok compiled
    exact inductionHypothesis (fun other listed => kept other (.tail root listed)) later
      (kept root List.mem_cons_self before rule progress first holds)

theorem compileRoots_eq_error {roots : List catalog.Listed} {before : Progress}
    {error : SchemaError}
    (failed : compileRoots catalog options roots before = .error error) :
    ∃ root ∈ roots, ∃ progress,
      compileMessage catalog options [] root rfl progress = .error error := by
  induction roots generalizing before with
  | nil => cases failed
  | cons root rest inductionHypothesis =>
    rw [compileRoots] at failed
    split at failed
    next refused =>
      cases failed
      exact ⟨root, by simp, before, refused⟩
    next rule progress succeeded =>
      split at failed
      next refused =>
        cases failed
        obtain ⟨other, later, cause⟩ := inductionHypothesis refused
        exact ⟨other, by simp [later], cause⟩
      next => cases failed

end PayloadSchema
