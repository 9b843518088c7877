import Mathlib.Data.List.Forall2
import PayloadSchema.Proofs.Compile.Image
import PayloadSchema.Proofs.Compile.Steps
import PayloadSchema.Proofs.Schema.Catalog
import PayloadSchema.Rule.Check

/-! # Compilation gives images

Whatever is being compiled around it, a message compiles to an image of itself.  Its lazy
shapes name messages that were put off, and each of those has its definition already or
gets it later: it is still being compiled.  At the end nothing is being compiled any
more, so that every lazy shape has its definition. -/

namespace PayloadSchema

variable {catalog : Catalog} {options : Options} {active : List MessageId}

/-- Whether a rule was compiled from a message while others were being compiled around it. -/
def CompiledInside (catalog : Catalog) (options : Options) (active : List MessageId)
    (target : catalog.Listed) (rule : RecordRule) : Prop :=
  ∃ fresh before after,
    compileMessage catalog options active target fresh before = .ok (rule, after)

/-- Whether a rule was compiled from a message, whatever was being compiled around it. -/
def Compiled (catalog : Catalog) (options : Options) (target : catalog.Listed)
    (rule : RecordRule) : Prop :=
  ∃ active, CompiledInside catalog options active target rule

namespace Definitions

theorem mem_of_get? {definitions : Definitions} {id : MessageId} {rule : RecordRule}
    (found : definitions.get? id = some rule) : (id, rule) ∈ definitions := by
  obtain ⟨before, after, split, _⟩ := List.lookup_eq_some_iff.mp found
  simp [split]

theorem get?_of_mem {definitions : Definitions} {id : MessageId}
    (defined : id ∈ definitions.map Prod.fst) : ∃ rule, definitions.get? id = some rule := by
  induction definitions with
  | nil => cases defined
  | cons first rest inductionHypothesis =>
    obtain ⟨key, rule⟩ := first
    by_cases same : id = key
    · exact ⟨rule, by simp [Definitions.get?, same]⟩
    · have later : id ∈ rest.map Prod.fst := by simpa [same] using defined
      obtain ⟨found, lookup⟩ := inductionHypothesis later
      have differs : (id == key) = false := by simpa using same
      exact ⟨found, by simpa [Definitions.get?, List.lookup_cons, differs] using lookup⟩

end Definitions

/-- What holds of the progress of a compilation at any time. -/
structure Progress.Sound (catalog : Catalog) (options : Options) (active : List MessageId)
    (progress : Progress) : Prop where
  /-- A message that is put off has a definition, or is still being compiled. -/
  covered : ∀ id ∈ progress.deferred, id ∈ active ∨ id ∈ progress.definitions.map Prod.fst
  /-- A definition was compiled from its message. -/
  defined : ∀ id rule, (id, rule) ∈ progress.definitions →
    ∃ target : catalog.Listed, target.1.id = id ∧ Compiled catalog options target rule ∧
      RecordImage catalog options progress.deferred rule target

/-- What a step of a compilation does to its progress. -/
structure Progress.Advance (catalog : Catalog) (options : Options) (active : List MessageId)
    (before after : Progress) : Prop where
  grown : before.deferred ⊆ after.deferred
  sound : before.Sound catalog options active → after.Sound catalog options active

namespace Progress

variable {before middle after : Progress}

theorem Sound.empty : Progress.Sound catalog options active {} :=
  ⟨fun _ deferred => (List.not_mem_nil deferred).elim,
    fun _ _ listed => (List.not_mem_nil listed).elim⟩

theorem Sound.enter {progress : Progress} (sound : progress.Sound catalog options active)
    (id : MessageId) : progress.Sound catalog options (id :: active) := by
  refine ⟨fun other deferred => ?_, sound.defined⟩
  cases sound.covered other deferred with
  | inl waiting => exact .inl (List.mem_cons_of_mem id waiting)
  | inr finished => exact .inr finished

theorem Advance.refl (progress : Progress) : Advance catalog options active progress progress :=
  ⟨fun _ listed => listed, fun sound => sound⟩

theorem Advance.trans (first : Advance catalog options active before middle)
    (second : Advance catalog options active middle after) :
    Advance catalog options active before after :=
  ⟨fun _ listed => second.grown (first.grown listed), fun sound => second.sound (first.sound sound)⟩

theorem Advance.defer {id : MessageId} (waiting : id ∈ active) (progress : Progress) :
    Advance catalog options active progress (progress.defer id) := by
  have grown : progress.deferred ⊆ (progress.defer id).deferred := List.subset_cons_self _ _
  refine ⟨grown, fun sound => ⟨fun other deferred => ?_, fun other rule listed => ?_⟩⟩
  · cases List.mem_cons.mp deferred with
    | inl same => exact .inl (same ▸ waiting)
    | inr earlier => exact sound.covered other earlier
  · obtain ⟨target, identity, compiled, image⟩ := sound.defined other rule listed
    exact ⟨target, identity, compiled, image.mono grown⟩

theorem finish_deferred (progress : Progress) (id : MessageId) (rule : RecordRule) :
    (progress.finish id rule).deferred = progress.deferred := by
  rw [finish]
  split <;> rfl

theorem Sound.finish {progress : Progress} {target : catalog.Listed} {rule : RecordRule}
    (sound : progress.Sound catalog options (target.1.id :: active))
    (compiled : Compiled catalog options target rule)
    (image : RecordImage catalog options progress.deferred rule target) :
    (progress.finish target.1.id rule).Sound catalog options active := by
  rw [Progress.finish]
  split
  next kept =>
    refine ⟨fun id deferred => ?_, fun id other listed => ?_⟩
    · cases sound.covered id deferred with
      | inl waiting =>
        cases List.mem_cons.mp waiting with
        | inl same => exact .inr (by simp [same])
        | inr outer => exact .inl outer
      | inr finished => exact .inr (List.mem_cons_of_mem _ finished)
    · cases List.mem_cons.mp listed with
      | inl new =>
        cases new
        exact ⟨target, rfl, compiled, image⟩
      | inr earlier => exact sound.defined id other earlier
  next dropped =>
    refine ⟨fun id deferred => ?_, sound.defined⟩
    cases sound.covered id deferred with
    | inl waiting =>
      cases List.mem_cons.mp waiting with
      | inl same =>
        -- The rule was not kept although its message is deferred, so there is one already.
        subst same
        cases found : progress.definitions.get? target.1.id with
        | none => simp [deferred, found] at dropped
        | some rule =>
          exact .inr (List.mem_map_of_mem (Definitions.mem_of_get? found))
      | inr outer => exact .inl outer
    | inr finished => exact .inr finished

end Progress

section

variable {reference : Reference catalog} {scope : Entry}

theorem fieldType_image {field : Field} {before after : Progress} {type : FieldType}
    (referred : ∀ target before shape after, reference target before = .ok (shape, after) →
      before.Advance catalog options active after ∧
        ShapeImage catalog options after.deferred shape target)
    (typed : fieldType catalog reference scope field before = .ok (type, after)) :
    before.Advance catalog options active after ∧
      TypeImage catalog options after.deferred scope field.typeName type := by
  rcases fieldType_eq_ok typed with ⟨scalar, named, rfl, rfl⟩ | ⟨declared, meaning⟩
  · exact ⟨.refl _, .scalar named⟩
  · rcases meaning with ⟨enum, found, rfl, rfl⟩ | ⟨target, shape, found, succeeded, rfl⟩
    · exact ⟨.refl _, .enum declared found⟩
    · obtain ⟨advance, image⟩ := referred target before shape after succeeded
      exact ⟨advance, .message declared found image⟩

theorem compileFields_images {fields : List Field} {before after : Progress}
    {rules : List (String × Rule)}
    (referred : ∀ target before shape after, reference target before = .ok (shape, after) →
      before.Advance catalog options active after ∧
        ShapeImage catalog options after.deferred shape target)
    (compiled : compileFields catalog options reference scope fields before = .ok (rules, after)) :
    before.Advance catalog options active after ∧
      FieldImages catalog options after.deferred scope fields rules := by
  induction fields generalizing before rules with
  | nil =>
    cases compiled
    exact ⟨.refl _, .nil⟩
  | cons field rest inductionHypothesis =>
    obtain ⟨type, progress, rule, others, typed, composed, succeeded, rfl⟩ :=
      compileFields_cons_eq_ok compiled
    obtain ⟨first, image⟩ := fieldType_image referred typed
    obtain ⟨second, images⟩ := inductionHypothesis succeeded
    exact ⟨first.trans second, .cons (image.mono second.grown) composed images⟩

end

/-- A message compiles to an image of itself, whatever is being compiled around it. -/
theorem compileMessage_image {target : catalog.Listed}
    {fresh : active.contains target.1.id = false} {before after : Progress} {rule : RecordRule}
    (compiled : compileMessage catalog options active target fresh before = .ok (rule, after)) :
    before.Advance catalog options active after ∧
      RecordImage catalog options after.deferred rule target := by
  induction active, target, fresh using Catalog.descent generalizing before rule after with
  | enter active target fresh inductionHypothesis =>
    obtain ⟨fields, progress, succeeded, rfl, rfl⟩ := compileMessage_eq_ok compiled
    -- A reference from inside the message is entered, or its target is being compiled.
    have referred : ∀ next before shape after,
        compileReference catalog options (target.1.id :: active) next before = .ok (shape, after) →
        before.Advance catalog options (target.1.id :: active) after ∧
          ShapeImage catalog options after.deferred shape next := by
      intro next before shape after referred
      rcases compileReference_eq_ok referred with
        ⟨entered, rule, inner, rfl⟩ | ⟨waiting, rfl, rfl⟩
      · obtain ⟨advance, image⟩ := inductionHypothesis next entered inner
        exact ⟨advance, .record image⟩
      · exact ⟨.defer waiting before, .lazy List.mem_cons_self⟩
    obtain ⟨advance, images⟩ := compileFields_images referred succeeded
    have image := RecordImage.intro images
    refine ⟨⟨?_, fun sound => ?_⟩, ?_⟩
    · rw [Progress.finish_deferred]
      exact advance.grown
    · exact (advance.sound (sound.enter target.1.id)).finish
        ⟨active, fresh, before, _, compiled⟩ image
    · rw [Progress.finish_deferred]
      exact image

theorem compileRoots_images {roots : List catalog.Listed} {before after : Progress}
    {rules : List RecordRule}
    (compiled : compileRoots catalog options roots before = .ok (rules, after)) :
    before.Advance catalog options [] after ∧
      List.Forall₂ (RecordImage catalog options after.deferred) rules roots := by
  induction roots generalizing before rules with
  | nil =>
    cases compiled
    exact ⟨.refl _, .nil⟩
  | cons root rest inductionHypothesis =>
    obtain ⟨rule, progress, others, first, later, rfl⟩ := compileRoots_cons_eq_ok compiled
    obtain ⟨advance, image⟩ := compileMessage_image first
    obtain ⟨further, images⟩ := inductionHypothesis later
    exact ⟨advance.trans further, .cons (image.mono further.grown) images⟩

/-- Definitions that make the lazy shapes of images meaningful. -/
structure Definitions.Sound (catalog : Catalog) (options : Options) (definitions : Definitions) :
    Prop where
  /-- A definition is an image of its message, and refers to defined messages only. -/
  image : ∀ id rule, (id, rule) ∈ definitions →
    ∃ target : catalog.Listed, target.1.id = id ∧ Compiled catalog options target rule ∧
      RecordImage catalog options (definitions.map Prod.fst) rule target

/-- Through sound definitions, a shape that stands for a message leads to a rule of it. -/
theorem ShapeImage.meaning {definitions : Definitions} (sound : definitions.Sound catalog options)
    (identified : catalog.Identified) {shape : Shape} {target : catalog.Listed}
    (image : ShapeImage catalog options (definitions.map Prod.fst) shape target) :
    ∃ rule, shape.record? definitions = some rule ∧
      RecordImage catalog options (definitions.map Prod.fst) rule target := by
  cases image with
  | record image => exact ⟨_, rfl, image⟩
  | lazy deferred =>
    obtain ⟨rule, found⟩ := Definitions.get?_of_mem deferred
    obtain ⟨other, identity, _, image⟩ := sound.image _ _ (Definitions.mem_of_get? found)
    -- Whichever compilation left the definition, it was one of this message.
    have same := identified.eq_of_id identity
    exact ⟨rule, found, same ▸ image⟩

/-- Through sound definitions, the rule that a shape has for the members of an object is one of
    a message. -/
theorem PartImage.record? {definitions : Definitions} (sound : definitions.Sound catalog options)
    {shape : Shape} (image : PartImage catalog options (definitions.map Prod.fst) shape)
    {rule : RecordRule} (meaning : shape.record? definitions = some rule) :
    ∃ target, RecordImage catalog options (definitions.map Prod.fst) rule target := by
  cases shape with
  | record own =>
    cases meaning
    exact image.of_record rfl
  | lazy message id =>
    obtain ⟨target, _, _, image⟩ := sound.image id rule (Definitions.mem_of_get? meaning)
    exact ⟨target, image⟩
  | _ => cases meaning

theorem Catalog.compile_image {rules : List RecordRule} {definitions : Definitions}
    (compiled : catalog.compile options = .ok (rules, definitions)) :
    definitions.Sound catalog options ∧
      List.Forall₂ (RecordImage catalog options (definitions.map Prod.fst)) rules
        catalog.topLevel := by
  rw [Catalog.compile] at compiled
  split at compiled
  next => cases compiled
  next found progress succeeded =>
    cases compiled
    obtain ⟨advance, images⟩ := compileRoots_images succeeded
    -- Nothing is being compiled any more, so what was put off is defined.
    have sound := advance.sound .empty
    have finished : progress.deferred ⊆ progress.definitions.map Prod.fst := by
      intro id deferred
      cases sound.covered id deferred with
      | inl waiting => cases waiting
      | inr finished => exact finished
    refine ⟨⟨fun id rule listed => ?_⟩, images.imp fun _ _ image => image.mono finished⟩
    obtain ⟨target, identity, compiled, image⟩ := sound.defined id rule listed
    exact ⟨target, identity, compiled, image.mono finished⟩

end PayloadSchema
