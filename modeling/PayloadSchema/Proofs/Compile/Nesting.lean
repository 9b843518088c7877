import Mathlib.Logic.Relation
import Mathlib.Data.List.Perm.Subperm
import PayloadSchema.Proofs.Registry
import PayloadSchema.Proofs.Rule.Route
import PayloadSchema.Proofs.Schema.Referent

/-! # How compiled rules nest

A message is compiled inside others that wait for it.  What it refers to stands right inside its
rule: the rule of a message that does not wait yet, compiled with one more message waiting, or a
lazy shape for one that does.  Along a route the rules therefore stem from messages that refer to
one another, and no message occurs twice. -/

namespace PayloadSchema

def Catalog.Refers (catalog : Catalog) (scope next : catalog.Listed) : Prop :=
  ∃ field ∈ scope.1.message.fields, field.LeadsTo catalog scope.1 next

def Shape.isReference : Shape → Bool
  | .record _ | .lazy _ _ => true
  | _ => false

theorem Scalar.shape_isReference (scalar : Scalar) : scalar.shape.isReference = false := by
  cases scalar <;> rfl

theorem Scalar.shape_ne_array (scalar : Scalar) (element : Rule) :
    scalar.shape ≠ .array element := by
  cases scalar <;> exact Shape.noConfusion

namespace Field

variable {field : Field} {message : String} {type : FieldType} {options : Options} {rule : Rule}

theorem underlies_rule (composed : field.rule message type options = .ok rule) :
    type.shape.Underlies rule.shape := by
  obtain ⟨default, _, rfl⟩ := rule_eq_ok_iff.mp composed
  rw [ruleOf_shape]
  cases field.repeated with
  | false => exact .itself
  | true => exact .items .itself

theorem eq_of_underlies (composed : field.rule message type options = .ok rule)
    (single : ∀ element, type.shape ≠ .array element) {part : Shape}
    (underlies : part.Underlies rule.shape) (reference : part.isReference = true) :
    part = type.shape := by
  obtain ⟨default, _, rfl⟩ := rule_eq_ok_iff.mp composed
  rw [ruleOf_shape] at underlies
  cases repeated : field.repeated with
  | false =>
    rw [repeated, if_neg Bool.false_ne_true] at underlies
    exact underlies.eq_of_single single
  | true =>
    rw [repeated, if_pos rfl] at underlies
    cases underlies with
    | itself => cases reference
    | items inner => exact inner.eq_of_single single

end Field

section

variable {catalog : Catalog} {options : Options} {active : List MessageId}

/-- What a reference to a message becomes while others are being compiled. -/
inductive ReferenceInside (catalog : Catalog) (options : Options) (active : List MessageId)
    (next : catalog.Listed) : Shape → Prop where
  | entered {rule : RecordRule} (compiled : CompiledInside catalog options active next rule) :
      ReferenceInside catalog options active next (.record rule)
  | deferred (waiting : next.1.id ∈ active) :
      ReferenceInside catalog options active next (.lazy next.1.message.name next.1.id)

theorem fieldType_inside {scope : Entry} {field : Field} {before after : Progress}
    {type : FieldType}
    (typed : fieldType catalog (compileReference catalog options active) scope field before =
      .ok (type, after)) :
    (∀ element, type.shape ≠ .array element) ∧
      ((type.shape.isReference = false ∧ ∀ next, ¬ field.LeadsTo catalog scope next) ∨
        ∃ next, field.LeadsTo catalog scope next ∧
          ReferenceInside catalog options active next type.shape) := by
  rcases fieldType_eq_ok typed with ⟨scalar, named, rfl, rfl⟩ | ⟨declared, meaning⟩
  · refine ⟨scalar.shape_ne_array, .inl ⟨scalar.shape_isReference, fun next leads => ?_⟩⟩
    cases leads.1.symm.trans named
  · rcases meaning with ⟨enum, found, rfl, rfl⟩ | ⟨next, shape, found, referred, rfl⟩
    · exact ⟨nofun, .inl ⟨rfl, fun next leads => by cases leads.2.symm.trans found⟩⟩
    · rcases compileReference_eq_ok referred with
        ⟨fresh, rule, compiled, rfl⟩ | ⟨waiting, rfl, rfl⟩
      · exact ⟨nofun, .inr ⟨next, ⟨declared, found⟩, .entered ⟨fresh, before, after, compiled⟩⟩⟩
      · exact ⟨nofun, .inr ⟨next, ⟨declared, found⟩, .deferred waiting⟩⟩

theorem compileFields_forall₂ {reference : Reference catalog} {scope : Entry} {fields : List Field}
    {before after : Progress} {rules : List (String × Rule)}
    (compiled : compileFields catalog options reference scope fields before = .ok (rules, after)) :
    List.Forall₂ (fun field pair => ∃ before type after,
      fieldType catalog reference scope field before = .ok (type, after) ∧
      field.rule scope.message.name type options = .ok pair.2 ∧ pair.1 = field.name)
      fields rules := by
  induction fields generalizing before rules with
  | nil =>
    cases compiled
    exact .nil
  | cons field rest inductionHypothesis =>
    obtain ⟨type, progress, rule, others, typed, composed, succeeded, rfl⟩ :=
      compileFields_cons_eq_ok compiled
    exact .cons ⟨before, type, progress, typed, composed, rfl⟩ (inductionHypothesis succeeded)

namespace CompiledInside

variable {target : catalog.Listed} {rule : RecordRule}

theorem compiled (inside : CompiledInside catalog options active target rule) :
    Compiled catalog options target rule := ⟨active, inside⟩

theorem not_waiting (inside : CompiledInside catalog options active target rule) :
    target.1.id ∉ active := by
  obtain ⟨fresh, _⟩ := inside
  simpa using fresh

theorem fields (inside : CompiledInside catalog options active target rule) :
    List.Forall₂ (fun field pair => ∃ before type after,
      fieldType catalog (compileReference catalog options (target.1.id :: active)) target.1 field
        before = .ok (type, after) ∧
      field.rule target.1.message.name type options = .ok pair.2 ∧ pair.1 = field.name)
      target.1.message.fields rule.fields := by
  obtain ⟨fresh, before, after, compiled⟩ := inside
  obtain ⟨rules, progress, succeeded, rfl, _⟩ := compileMessage_eq_ok compiled
  exact compileFields_forall₂ succeeded

/-- What a rule holds for a message is there for a reference of its own message. -/
theorem reference_of_holds (inside : CompiledInside catalog options active target rule)
    {part : Shape} (holds : rule.Holds part) (reference : part.isReference = true) :
    ∃ next, catalog.Refers target next ∧
      ReferenceInside catalog options (target.1.id :: active) next part := by
  obtain ⟨pair, listed, underlies⟩ := holds
  obtain ⟨field, declared, before, type, after, typed, composed, _⟩ :=
    forall₂_left_of_mem inside.fields listed
  obtain ⟨single, meaning⟩ := fieldType_inside typed
  obtain rfl := Field.eq_of_underlies composed single underlies reference
  rcases meaning with ⟨other, _⟩ | ⟨next, leads, image⟩
  · rw [reference] at other
    cases other
  · exact ⟨next, ⟨field, declared, leads⟩, image⟩

/-- For each reference of its message a rule holds what it becomes. -/
theorem holds_of_refers (inside : CompiledInside catalog options active target rule)
    {next : catalog.Listed} (refers : catalog.Refers target next) :
    ∃ part, rule.Holds part ∧
      ReferenceInside catalog options (target.1.id :: active) next part := by
  obtain ⟨field, declared, leads⟩ := refers
  obtain ⟨pair, listed, before, type, after, typed, composed, _⟩ :=
    forall₂_right_of_mem inside.fields declared
  rcases (fieldType_inside typed).2 with ⟨_, astray⟩ | ⟨other, found, image⟩
  · exact absurd leads (astray next)
  · cases leads.2.symm.trans found.2
    exact ⟨type.shape, ⟨pair, listed, Field.underlies_rule composed⟩, image⟩

end CompiledInside

/-! ## Along a route -/

/-- What the rules of a route stem from: each was compiled from a message, which a field of the
    message before refers to, and no message occurs twice. -/
structure Stem (catalog : Catalog) (options : Options) (messages : List catalog.Listed)
    (rules : List RecordRule) : Prop where
  compiled : List.Forall₂ (Compiled catalog options) messages rules
  linked : messages.IsChain catalog.Refers
  distinct : messages.Nodup

/-- What holds of the messages on a route from a message on, while others wait around it, up to
    the last one, which is compiled inside `outer`. -/
structure Thread (catalog : Catalog) (active : List MessageId) (target : catalog.Listed)
    (messages : List catalog.Listed) (last : catalog.Listed) (outer : List MessageId) : Prop where
  first : messages.head? = some target
  apart : ∀ message ∈ messages, message.1.id ∉ active
  between : ∀ message ∈ messages,
    Relation.ReflTransGen catalog.Refers target message ∧
    Relation.ReflTransGen catalog.Refers message last
  /-- Besides the messages on the route, only those wait that did so before. -/
  waits : ∀ id ∈ last.1.id :: outer, id ∈ active ∨ ∃ message ∈ messages, message.1.id = id

namespace Thread

variable {target next last : catalog.Listed} {messages : List catalog.Listed}
  {outer : List MessageId}

theorem single (fresh : target.1.id ∉ active) :
    Thread catalog active target [target] target active where
  first := rfl
  apart message listed := List.mem_singleton.mp listed ▸ fresh
  between message listed := List.mem_singleton.mp listed ▸ ⟨.refl, .refl⟩
  waits id listed := by
    cases List.mem_cons.mp listed with
    | inl same => exact .inr ⟨target, List.mem_cons_self, same.symm⟩
    | inr waiting => exact .inl waiting

theorem not_mem (thread : Thread catalog (target.1.id :: active) next messages last outer) :
    target ∉ messages :=
  fun listed => thread.apart target listed List.mem_cons_self

theorem cons (fresh : target.1.id ∉ active) (refers : catalog.Refers target next)
    (thread : Thread catalog (target.1.id :: active) next messages last outer) :
    Thread catalog active target (target :: messages) last outer where
  first := rfl
  apart message listed := by
    rcases List.mem_cons.mp listed with rfl | later
    · exact fresh
    · exact fun waits => thread.apart message later (.tail _ waits)
  between message listed := by
    have start : next ∈ messages := List.mem_of_mem_head? thread.first
    rcases List.mem_cons.mp listed with rfl | later
    · exact ⟨.refl, .head refers (thread.between next start).2⟩
    · exact ⟨.head refers (thread.between message later).1, (thread.between message later).2⟩
  waits id listed := by
    rcases thread.waits id listed with waiting | ⟨message, among, same⟩
    · -- What waited further inside is the message itself, or waited around it.
      cases List.mem_cons.mp waiting with
      | inl own => exact .inr ⟨target, List.mem_cons_self, own.symm⟩
      | inr outside => exact .inl outside
    · exact .inr ⟨message, .tail _ among, same⟩

end Thread

/-- A route through a rule follows references of messages, each of them compiled while those
    before it wait. -/
theorem CompiledInside.thread {target : catalog.Listed} {rule innermost : RecordRule}
    {rules : List RecordRule} (inside : CompiledInside catalog options active target rule)
    (route : rule.Route rules innermost) :
    ∃ messages last outer, Stem catalog options messages rules ∧
      Thread catalog active target messages last outer ∧
      CompiledInside catalog options outer last innermost := by
  induction route generalizing active target with
  | here rule =>
    have stem : Stem catalog options [target] [rule] :=
      ⟨.cons inside.compiled .nil, .singleton target, List.nodup_singleton target⟩
    exact ⟨[target], target, active, stem, .single inside.not_waiting, inside⟩
  | inside held deeper inductionHypothesis =>
    obtain ⟨next, refers, image⟩ := inside.reference_of_holds held rfl
    cases image with
    | entered compiled =>
      obtain ⟨messages, last, outer, stem, thread, innermost⟩ := inductionHypothesis compiled
      obtain ⟨others, rfl⟩ := List.head?_eq_some_iff.mp thread.first
      -- The message waits while the others are compiled, so that it is none of them.
      have distinct := List.nodup_cons.mpr ⟨thread.not_mem, stem.distinct⟩
      refine ⟨target :: next :: others, last, outer, ⟨?_, ?_, distinct⟩,
        thread.cons inside.not_waiting refers, innermost⟩
      · exact .cons inside.compiled stem.compiled
      · exact .cons_cons refers stem.linked

/-- There are no more messages on a route than in the catalog. -/
theorem Stem.length_le {messages : List catalog.Listed} {rules : List RecordRule}
    (stem : Stem catalog options messages rules) : rules.length ≤ catalog.entries.length := by
  have listed : messages ⊆ catalog.listed := fun message _ => List.mem_attach _ message
  calc rules.length
      = messages.length := stem.compiled.length_eq.symm
    _ ≤ catalog.listed.length := (stem.distinct.subperm listed).length_le
    _ = catalog.entries.length := List.length_attach

theorem compileRoots_forall₂ {roots : List catalog.Listed} {before after : Progress}
    {rules : List RecordRule}
    (compiled : compileRoots catalog options roots before = .ok (rules, after)) :
    List.Forall₂ (fun rule root => CompiledInside catalog options [] root rule) rules roots := by
  induction roots generalizing before rules with
  | nil =>
    cases compiled
    exact .nil
  | cons root rest inductionHypothesis =>
    obtain ⟨rule, progress, others, first, later, rfl⟩ := compileRoots_cons_eq_ok compiled
    exact .cons ⟨rfl, before, progress, first⟩ (inductionHypothesis later)

theorem Catalog.compile_forall₂ {rules : List RecordRule} {definitions : Definitions}
    (compiled : catalog.compile options = .ok (rules, definitions)) :
    List.Forall₂ (fun rule root => CompiledInside catalog options [] root rule) rules
      catalog.topLevel := by
  rw [Catalog.compile] at compiled
  split at compiled
  next => cases compiled
  next found progress succeeded =>
    cases compiled
    exact compileRoots_forall₂ succeeded

theorem CompiledInside.message {target : catalog.Listed} {rule : RecordRule}
    (inside : CompiledInside catalog options active target rule) :
    rule.message = target.1.message.name := by
  obtain ⟨fresh, before, after, compiled⟩ := inside
  obtain ⟨_, _, _, rfl, _⟩ := compileMessage_eq_ok compiled
  rfl

end

namespace Schema

variable {schema : Schema} {options : Options} {registry : Registry}

theorem compiled_of_mem (compiled : schema.compile options = .ok registry) {validator : Validator}
    (listed : validator ∈ registry.validators) :
    ∃ root ∈ (Catalog.ofSchema schema).topLevel,
      validator.name = root.1.message.name ∧
      CompiledInside (Catalog.ofSchema schema) options [] root validator.rule := by
  obtain ⟨_, _, rules, definitions, succeeded, rfl⟩ := compile_eq_ok_iff.mp compiled
  obtain ⟨rule, among, rfl⟩ := List.mem_map.mp (Registry.mem_ofList listed)
  obtain ⟨root, top, inside⟩ := forall₂_right_of_mem (Catalog.compile_forall₂ succeeded) among
  exact ⟨root, top, inside.message, inside⟩

theorem exists_compiledInside (compiled : schema.compile options = .ok registry)
    {validator : Validator} (listed : validator ∈ registry.validators) {rule : RecordRule}
    (origin : rule = validator.rule ∨ ∃ id, (id, rule) ∈ validator.definitions) :
    ∃ active target, CompiledInside (Catalog.ofSchema schema) options active target rule := by
  rcases origin with rfl | ⟨id, defined⟩
  · obtain ⟨root, _, _, inside⟩ := compiled_of_mem compiled listed
    exact ⟨[], root, inside⟩
  · obtain ⟨_, _, serves⟩ := serves_of_mem compiled listed
    obtain ⟨target, _, ⟨active, inside⟩, _⟩ := serves.sound.image id rule defined
    exact ⟨active, target, inside⟩

theorem compiled_of_root (compiled : schema.compile options = .ok registry)
    {root : (Catalog.ofSchema schema).Listed} (top : root ∈ (Catalog.ofSchema schema).topLevel) :
    ∃ validator ∈ registry.validators,
      registry.get? root.1.message.name = some validator ∧
      CompiledInside (Catalog.ofSchema schema) options [] root validator.rule := by
  obtain ⟨_, scopes, _⟩ := compile_eq_ok_iff.mp compiled
  obtain ⟨validator, found, serves⟩ := serves_of_root compiled top
  have listed := List.mem_of_find?_eq_some found
  obtain ⟨other, among, named, inside⟩ := compiled_of_mem compiled listed
  -- No other top-level message has the name.
  obtain rfl : other = root :=
    List.inj_on_of_nodup_map (topLevel_names_nodup scopes) among top (named.symm.trans serves.name)
  exact ⟨validator, listed, found, inside⟩

end Schema

end PayloadSchema
