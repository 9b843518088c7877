import PayloadSchema.Proofs.Interpretation.Agreement
import PayloadSchema.Proofs.Schema.Referent
import PayloadSchema.Proofs.Rule.Lazy

/-! # Lazy shapes lead to top-level messages

A nested message is in sight of its parent only, so that it is always entered right inside
its parent.  A reference that comes upon it while it is being compiled would have to come
from its parent once more, and the parent cannot be entered a second time before it is left.
What is put off is therefore declared at the top, where a name stands for one message, and
the definition of that message means what the validator of the name means. -/

namespace PayloadSchema

namespace Catalog

variable {catalog : Catalog}

/-- Messages that are being compiled inside one another, the innermost first.  None of them
    stands there twice, and a nested one stands right inside its parent. -/
inductive Descends (catalog : Catalog) : List MessageId → Prop where
  | nil : Descends catalog []
  | cons {target : catalog.Listed} {outer : List MessageId} (fresh : target.1.id ∉ outer)
      (seen : target.1.parent = none ∨ target.1.parent = outer.head?)
      (within : Descends catalog outer) : Descends catalog (target.1.id :: outer)

theorem Descends.nodup {active : List MessageId} (descends : catalog.Descends active) :
    active.Nodup := by
  induction descends with
  | nil => exact .nil
  | cons fresh _ _ inductionHypothesis => exact .cons fresh inductionHypothesis

theorem Descends.parent_mem (identified : catalog.Identified) {active : List MessageId}
    (descends : catalog.Descends active) {target : catalog.Listed}
    (waiting : target.1.id ∈ active) {parent : MessageId}
    (nested : target.1.parent = some parent) : parent ∈ active.tail := by
  induction descends with
  | nil => cases waiting
  | @cons first outer fresh seen within inductionHypothesis =>
    rw [List.tail_cons]
    cases List.mem_cons.mp waiting with
    | inl same =>
      obtain rfl := identified.eq_of_id same
      rw [nested] at seen
      cases seen with
      | inl top => cases top
      | inr inner => exact List.mem_of_mem_head? inner.symm
    | inr later => exact List.mem_of_mem_tail (inductionHypothesis later)

/-- A reference leads to a message that is being compiled only if that is a top-level one. -/
theorem Descends.topLevel_of_waiting (identified : catalog.Identified) {scope : catalog.Listed}
    {outer : List MessageId} (descends : catalog.Descends (scope.1.id :: outer)) {name : String}
    {target : catalog.Listed} (found : catalog.referent scope.1 name = .message target)
    (waiting : target.1.id ∈ scope.1.id :: outer) : target ∈ catalog.topLevel := by
  rw [mem_topLevel_iff]
  cases (referent_eq_message found).1 with
  | inr top => exact top
  | inl nested =>
    -- The parent is the innermost message, and would have to be an outer one too.
    have again : scope.1.id ∈ outer := descends.parent_mem identified waiting nested
    exact absurd again (List.nodup_cons.mp descends.nodup).1

end Catalog

section

variable {catalog : Catalog} {options : Options}

/-- Whether an identity is that of a top-level message, and of no other message. -/
def Catalog.IsTopLevel (catalog : Catalog) (id : MessageId) : Prop :=
  ∃ root ∈ catalog.topLevel, ∀ entry : catalog.Listed, entry.1.id = id ↔ entry = root

theorem Catalog.Identified.isTopLevel (identified : catalog.Identified) {root : catalog.Listed}
    (top : root ∈ catalog.topLevel) : catalog.IsTopLevel root.1.id :=
  ⟨root, top, fun _ => ⟨identified.eq_of_id, fun same => same ▸ rfl⟩⟩

/-- Whether top-level messages only were put off and defined. -/
structure Progress.TopLevel (catalog : Catalog) (progress : Progress) : Prop where
  deferred : ∀ id ∈ progress.deferred, catalog.IsTopLevel id
  defined : ∀ id ∈ progress.definitions.map Prod.fst, catalog.IsTopLevel id

namespace Progress.TopLevel

variable {progress : Progress}

theorem empty : Progress.TopLevel catalog {} :=
  ⟨fun _ deferred => (List.not_mem_nil deferred).elim,
    fun _ defined => (List.not_mem_nil defined).elim⟩

theorem defer (only : progress.TopLevel catalog) {id : MessageId}
    (top : catalog.IsTopLevel id) : (progress.defer id).TopLevel catalog := by
  refine ⟨fun other deferred => ?_, only.defined⟩
  cases List.mem_cons.mp deferred with
  | inl same => exact same ▸ top
  | inr earlier => exact only.deferred other earlier

theorem finish (only : progress.TopLevel catalog) (id : MessageId) (rule : RecordRule) :
    (progress.finish id rule).TopLevel catalog := by
  rw [Progress.finish]
  split
  next kept =>
    refine ⟨only.deferred, fun other defined => ?_⟩
    cases List.mem_cons.mp defined with
    | inl same =>
      -- A definition is kept only if its message was put off.
      rw [Bool.and_eq_true, List.contains_iff_mem] at kept
      exact same ▸ only.deferred id kept.1
    | inr earlier => exact only.defined other earlier
  next => exact only

end Progress.TopLevel

theorem compileMessage_topLevel (identified : catalog.Identified) {active : List MessageId}
    {target : catalog.Listed} {fresh : active.contains target.1.id = false}
    (descends : catalog.Descends (target.1.id :: active)) {before after : Progress}
    {rule : RecordRule}
    (compiled : compileMessage catalog options active target fresh before = .ok (rule, after))
    (only : before.TopLevel catalog) : after.TopLevel catalog := by
  induction active, target, fresh using Catalog.descent generalizing before rule after with
  | enter active target fresh inductionHypothesis =>
    obtain ⟨fields, progress, succeeded, rfl, rfl⟩ := compileMessage_eq_ok compiled
    refine (compileFields_keeps ?_ succeeded only).finish _ _
    intro field _ next found before shape after referred only
    rcases compileReference_eq_ok referred with ⟨entered, rule, inner, rfl⟩ | ⟨waiting, _, rfl⟩
    · -- The next message is entered from inside this one, where its name was in sight.
      have absent : next.1.id ∉ target.1.id :: active := by simpa using entered
      refine inductionHypothesis next entered (.cons absent ?_ descends) inner only
      exact (Catalog.referent_eq_message found).1.symm
    · have top := descends.topLevel_of_waiting identified found waiting
      exact only.defer (identified.isTopLevel top)

theorem Catalog.compile_topLevel (identified : catalog.Identified) {rules : List RecordRule}
    {definitions : Definitions} (compiled : catalog.compile options = .ok (rules, definitions)) :
    ∀ id ∈ definitions.map Prod.fst, catalog.IsTopLevel id := by
  rw [Catalog.compile] at compiled
  split at compiled
  next => cases compiled
  next found progress succeeded =>
    cases compiled
    have kept : progress.TopLevel catalog := by
      refine compileRoots_keeps (fun root top before rule after compiled only => ?_) succeeded
        Progress.TopLevel.empty
      have outermost : catalog.Descends [root.1.id] :=
        .cons List.not_mem_nil (.inl (mem_topLevel_iff.mp top)) .nil
      exact compileMessage_topLevel identified outermost compiled only
    exact kept.defined

end

/-- What a lazy shape of a registry stands for: a top-level message, the only one of its name,
    whose definition means what the validator of that name means. -/
structure Registry.Targets (catalog : Catalog) (registry : Registry) (definitions : Definitions)
    (message : String) (id : MessageId) : Prop where
  topLevel : catalog.IsTopLevel id
  named : ∀ root ∈ catalog.topLevel, root.1.message.name = message ↔ root.1.id = id
  served : ∃ validator rule, registry.get? message = some validator ∧
    definitions.get? id = some rule ∧
    ∀ payload, rule.checkPayload definitions payload = validator.validate payload

namespace Schema

variable {schema : Schema} {options : Options} {registry : Registry}

theorem compile_definitions (compiled : schema.compile options = .ok registry)
    {validator : Validator} (listed : validator ∈ registry.validators) :
    ∀ id ∈ validator.definitions.map Prod.fst, (Catalog.ofSchema schema).IsTopLevel id := by
  obtain ⟨_, _, rules, definitions, succeeded, rfl⟩ := compile_eq_ok_iff.mp compiled
  obtain ⟨rule, _, rfl⟩ := List.mem_map.mp (Registry.mem_ofList listed)
  exact Catalog.compile_topLevel (Catalog.ofSchema_identified schema) succeeded

theorem targets_of_image (compiled : schema.compile options = .ok registry)
    {definitions : Definitions} (sound : definitions.Sound (Catalog.ofSchema schema) options)
    (topLevel : ∀ id ∈ definitions.map Prod.fst, (Catalog.ofSchema schema).IsTopLevel id)
    {rule : RecordRule} {owner : (Catalog.ofSchema schema).Listed}
    (image : RecordImage (Catalog.ofSchema schema) options (definitions.map Prod.fst) rule owner)
    {message : String} {id : MessageId} (inside : (Shape.lazy message id).Within (.record rule)) :
    registry.Targets (Catalog.ofSchema schema) definitions message id := by
  obtain ⟨names, scopes, _⟩ := compile_eq_ok_iff.mp compiled
  have identified := Catalog.ofSchema_identified schema
  obtain ⟨defined, target, rfl, rfl⟩ := ((PartImage.rule image).within inside).of_lazy rfl
  obtain ⟨root, top, only⟩ := topLevel _ defined
  obtain rfl := (only target).mp rfl
  refine ⟨topLevel _ defined, fun other listed => ⟨fun same => ?_, fun same => ?_⟩, ?_⟩
  · rw [List.inj_on_of_nodup_map (topLevel_names_nodup scopes) listed top same]
  · rw [identified.eq_of_id same]
  · obtain ⟨validator, lookup, serves⟩ := serves_of_root compiled top
    obtain ⟨stored, found⟩ := Definitions.get?_of_mem defined
    obtain ⟨source, same, _, image⟩ := sound.image _ stored (Definitions.mem_of_get? found)
    obtain rfl := identified.eq_of_id same
    -- The definition and the rule of the validator are images of one message.
    refine ⟨validator, stored, lookup, found, fun payload => ?_⟩
    rw [validate_of_serves compiled serves payload]
    exact checkPayload_eq_interpretMessage sound identified (fieldsDistinct_of_checkNames names)
      image payload

/-- In a compiled registry, lazy shapes and definitions are about top-level messages only, and
    what a lazy shape leads to means what the validator of its name means. -/
theorem compile_targets (compiled : schema.compile options = .ok registry)
    {validator : Validator} (listed : validator ∈ registry.validators) :
    (∀ id ∈ validator.definitions.map Prod.fst, (Catalog.ofSchema schema).IsTopLevel id) ∧
    ∀ rule, (rule = validator.rule ∨ ∃ id, (id, rule) ∈ validator.definitions) →
      ∀ message id, (Shape.lazy message id).Within (.record rule) →
        registry.Targets (Catalog.ofSchema schema) validator.definitions message id := by
  obtain ⟨root, _, serves⟩ := serves_of_mem compiled listed
  have topLevel := compile_definitions compiled listed
  refine ⟨topLevel, fun rule origin message id inside => ?_⟩
  rcases origin with rfl | ⟨key, defined⟩
  · exact targets_of_image compiled serves.sound topLevel serves.image inside
  · obtain ⟨_, _, _, image⟩ := serves.sound.image key rule defined
    exact targets_of_image compiled serves.sound topLevel image inside

theorem person_targets :
    ∃ registry, accounts.compile {} = .ok registry ∧
      ∃ validator ∈ registry.validators, validator.name = "Person" ∧
        ∃ message, registry.Targets (Catalog.ofSchema accounts) validator.definitions message 1 := by
  have evaluated : (accounts.compile {}).toOption.bind (fun registry =>
      (registry.get? "Person").map (·.rule.lazyIds)) = some [1, 1] := by decide +kernel
  obtain ⟨registry, succeeded, served⟩ := Option.bind_eq_some_iff.mp evaluated
  have compiled := toOption_eq_some_iff.mp succeeded
  obtain ⟨validator, found, lazyIds⟩ := Option.map_eq_some_iff.mp served
  have listed := List.mem_of_find?_eq_some found
  have named : validator.name = "Person" := by simpa using List.find?_some found
  have lazily : 1 ∈ (Shape.record validator.rule).lazyIds := by
    rw [Shape.lazyIds, lazyIds]
    decide
  obtain ⟨message, inside⟩ := Shape.within_of_lazyIds _ lazily
  exact ⟨registry, compiled, validator, listed, named, message,
    (compile_targets compiled listed).2 _ (.inl rfl) message 1 inside⟩

end Schema

end PayloadSchema
