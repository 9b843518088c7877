import PayloadSchema.Proofs.Compile.Closure
import PayloadSchema.Proofs.Reach
import PayloadSchema.Proofs.Rule.View

/-! # What a validator describes

No message is defined twice while a schema is compiled, and no reference dangles afterwards.  The
definitions that a validator lists are therefore exactly those that its rule needs, and its
description explains every lazy shape that it shows. -/

namespace PayloadSchema

section

variable {catalog : Catalog} {options : Options}

/-- What is kept by putting messages off and by finishing them is kept by a compilation. -/
theorem compileMessage_keeps (Holds : Progress → Prop)
    (deferred : ∀ progress id, Holds progress → Holds (progress.defer id))
    (finished : ∀ progress id rule, Holds progress → Holds (progress.finish id rule))
    {active : List MessageId} {target : catalog.Listed}
    {fresh : active.contains target.1.id = false} {before after : Progress} {rule : RecordRule}
    (compiled : compileMessage catalog options active target fresh before = .ok (rule, after))
    (holds : Holds before) : Holds after := by
  -- Along the descent: the messages that are entered inside this one keep it already.
  induction active, target, fresh using Catalog.descent generalizing before rule after with
  | enter active target fresh inductionHypothesis =>
    obtain ⟨fields, progress, succeeded, _, rfl⟩ := compileMessage_eq_ok compiled
    refine finished _ _ _ (compileFields_keeps ?_ succeeded holds)
    intro field _ next _ before shape after referred holds
    rcases compileReference_eq_ok referred with ⟨entered, rule, inner, _⟩ | ⟨_, _, rfl⟩
    · exact inductionHypothesis next entered inner holds
    · exact deferred before next.1.id holds

def Progress.DefinedOnce (progress : Progress) : Prop :=
  (progress.definitions.map Prod.fst).Nodup

theorem Progress.DefinedOnce.finish {progress : Progress} (once : progress.DefinedOnce)
    (id : MessageId) (rule : RecordRule) : (progress.finish id rule).DefinedOnce := by
  rw [Progress.finish]
  split
  next kept =>
    rw [Bool.and_eq_true, Option.isNone_iff_eq_none] at kept
    refine List.nodup_cons.mpr ⟨fun defined => ?_, once⟩
    -- A definition is added only where there is none.
    obtain ⟨stored, present⟩ := Definitions.get?_of_mem defined
    cases kept.2.symm.trans present
  next => exact once

theorem Catalog.compile_definedOnce {rules : List RecordRule} {definitions : Definitions}
    (compiled : catalog.compile options = .ok (rules, definitions)) :
    (definitions.map Prod.fst).Nodup := by
  rw [Catalog.compile] at compiled
  split at compiled
  next => cases compiled
  next found progress succeeded =>
    cases compiled
    have once : progress.DefinedOnce := by
      refine compileRoots_keeps (fun root _ before rule after compiled once => ?_) succeeded
        List.nodup_nil
      exact compileMessage_keeps Progress.DefinedOnce (fun _ _ once => once)
        (fun _ id rule once => once.finish id rule) compiled once
    exact once

end

theorem RecordRule.Needs.defined {definitions : Definitions} (closed : definitions.Closed)
    {rule : RecordRule} (covered : definitions.Covers (.record rule)) {id : MessageId}
    (needed : rule.Needs definitions id) : ∃ stored, definitions.get? id = some stored := by
  cases needed with
  | inside inside => exact covered _ _ inside
  | behind _ present inside => exact closed _ _ present _ _ inside

namespace Members

/-- The keys that lazy shapes lead to, from a view and then through entries under these keys. -/
inductive Leads (shown entries : Members) : String → Prop where
  | shown {id : MessageId} (shows : shown.Shows id) : Leads shown entries (toString id)
  | entry {key : String} {inner : Members} {id : MessageId} (led : Leads shown entries key)
      (present : entries.get? key = some (.obj inner)) (shows : inner.Shows id) :
      Leads shown entries (toString id)

/-- Whether entries explain each lazy shape that a view or an entry shows, and whether the view
    leads to all of them. -/
structure SelfContained (shown entries : Members) : Prop where
  distinct : (entries.map Prod.fst).Nodup
  explained : ∀ id,
    (shown.Shows id ∨ ∃ key, ∃ inner : Members, (key, .obj inner) ∈ entries ∧ inner.Shows id) →
    ∃ inner, entries.get? (toString id) = some (.obj inner)
  led : ∀ key ∈ entries.map Prod.fst, shown.Leads entries key

end Members

theorem toString_injective {first second : MessageId} (same : toString first = toString second) :
    first = second := by
  rw [Nat.toString_eq_ofList_toDigits, Nat.toString_eq_ofList_toDigits] at same
  have digits := congrArg (fun text : String => Nat.ofDigitChars 10 text.toList 0) same
  simpa only [String.toList_ofList, Nat.ofDigitChars_ten_toDigits] using digits

def Definitions.entries (definitions : Definitions) : Members :=
  definitions.map fun definition => (toString definition.1, definition.2.view)

namespace Definitions

variable {definitions : Definitions} {id : MessageId} {stored : RecordRule}

theorem entries_keys (definitions : Definitions) :
    definitions.entries.map Prod.fst = (definitions.map Prod.fst).map toString := by
  rw [entries, List.map_map, List.map_map]
  rfl

theorem entries_distinct (distinct : (definitions.map Prod.fst).Nodup) :
    (definitions.entries.map Prod.fst).Nodup := by
  rw [entries_keys]
  exact distinct.map fun _ _ same => toString_injective same

theorem get?_entries (distinct : (definitions.map Prod.fst).Nodup)
    (listed : (id, stored) ∈ definitions) :
    definitions.entries.get? (toString id) = some (.obj stored.members) := by
  have entry : (toString id, Json.obj stored.members) ∈ definitions.entries :=
    List.mem_map.mpr ⟨(id, stored), listed, rfl⟩
  exact lookup_of_mem (entries_distinct distinct) entry

end Definitions

/-- What the listed definitions of a validator and its description are. -/
structure Validator.Exact (validator : Validator) : Prop where
  /-- As many turns are enough as there are lazy shapes in the rule and in the definitions. -/
  ends : ∀ turns,
    validator.rule.lazyIds.length + validator.definitions.unspent [] ≤ turns →
    ∃ reached, validator.definitions.walk turns validator.rule.lazyIds [] = some reached ∧
      validator.recursive = .sorted
        (validator.definitions.filter fun definition => reached.contains definition.1)
  ordered : (validator.recursive.map Prod.fst).Pairwise (· < ·)
  needed : ∀ id, id ∈ validator.recursive.map Prod.fst ↔
    validator.rule.Needs validator.definitions id
  stored : ∀ id rule, (id, rule) ∈ validator.recursive →
    validator.definitions.get? id = some rule
  described : ∃ shown entries : Members,
    validator.describe = .obj [("message", .str validator.name), ("rule", .obj shown),
      ("recursive", .obj entries)] ∧
    shown.SelfContained entries

structure Validator.Grounded (validator : Validator) : Prop where
  distinct : (validator.definitions.map Prod.fst).Nodup
  closed : validator.definitions.Closed
  covered : validator.definitions.Covers (.record validator.rule)

namespace Validator.Grounded

variable {validator : Validator} {id : MessageId} {stored : RecordRule}

theorem mem_recursive_keys_iff (grounded : validator.Grounded) :
    id ∈ validator.recursive.map Prod.fst ↔
      validator.rule.Needs validator.definitions id := by
  rw [List.mem_map]
  constructor
  · rintro ⟨definition, listed, rfl⟩
    exact ((mem_recursive_iff grounded.distinct).mp listed).1
  · intro needed
    obtain ⟨stored, present⟩ := needed.defined grounded.closed grounded.covered
    exact ⟨(id, stored), (mem_recursive_iff grounded.distinct).mpr ⟨needed, present⟩, rfl⟩

theorem recursive_distinct (grounded : validator.Grounded) :
    (validator.recursive.map Prod.fst).Nodup :=
  (recursive_pairwise grounded.distinct).imp Nat.ne_of_lt

theorem get?_entries (grounded : validator.Grounded)
    (needed : validator.rule.Needs validator.definitions id)
    (present : validator.definitions.get? id = some stored) :
    validator.recursive.entries.get? (toString id) = some (.obj stored.members) :=
  Definitions.get?_entries grounded.recursive_distinct
    ((mem_recursive_iff grounded.distinct).mpr ⟨needed, present⟩)

theorem leads_of_needs (grounded : validator.Grounded)
    (needed : validator.rule.Needs validator.definitions id) :
    validator.rule.members.Leads validator.recursive.entries (toString id) := by
  induction needed with
  | inside inside => exact .shown (RecordRule.shows_iff.mpr ⟨_, inside⟩)
  | behind source present inside inductionHypothesis =>
    exact .entry inductionHypothesis (grounded.get?_entries source present)
      (RecordRule.shows_iff.mpr ⟨_, inside⟩)

/-- Whatever is shown, by the rule or in an entry, is needed. -/
theorem needs_of_shows (grounded : validator.Grounded)
    (shows : validator.rule.members.Shows id ∨ ∃ key, ∃ inner : Members,
      (key, .obj inner) ∈ validator.recursive.entries ∧ inner.Shows id) :
    validator.rule.Needs validator.definitions id := by
  rcases shows with shows | ⟨key, inner, listed, shows⟩
  · obtain ⟨message, inside⟩ := RecordRule.shows_iff.mp shows
    exact .inside inside
  · obtain ⟨⟨source, stored⟩, among, same⟩ := List.mem_map.mp listed
    cases same
    obtain ⟨message, inside⟩ := RecordRule.shows_iff.mp shows
    obtain ⟨needed, present⟩ := (mem_recursive_iff grounded.distinct).mp among
    exact .behind needed present inside

theorem selfContained (grounded : validator.Grounded) :
    validator.rule.members.SelfContained validator.recursive.entries where
  distinct := Definitions.entries_distinct grounded.recursive_distinct
  explained id shows := by
    have needed := grounded.needs_of_shows shows
    obtain ⟨stored, present⟩ := needed.defined grounded.closed grounded.covered
    exact ⟨stored.members, grounded.get?_entries needed present⟩
  led key listed := by
    rw [Definitions.entries_keys, List.mem_map] at listed
    obtain ⟨id, among, rfl⟩ := listed
    exact grounded.leads_of_needs (grounded.mem_recursive_keys_iff.mp among)

end Validator.Grounded

namespace Schema

variable {schema : Schema} {options : Options} {registry : Registry}

theorem grounded_of_mem (compiled : schema.compile options = .ok registry)
    {validator : Validator} (listed : validator ∈ registry.validators) : validator.Grounded := by
  have identified := Catalog.ofSchema_identified schema
  obtain ⟨root, _, serves⟩ := serves_of_mem compiled listed
  refine ⟨?_, serves.sound.closed identified, serves.image.covers serves.sound identified⟩
  obtain ⟨_, _, rules, definitions, succeeded, rfl⟩ := compile_eq_ok_iff.mp compiled
  obtain ⟨rule, _, rfl⟩ := List.mem_map.mp (Registry.mem_ofList listed)
  exact Catalog.compile_definedOnce succeeded

/-- Every validator of a compiled registry lists the definitions that its rule needs, and these
    only, and its description explains every lazy shape that it shows. -/
theorem compile_exact (compiled : schema.compile options = .ok registry) {validator : Validator}
    (listed : validator ∈ registry.validators) : validator.Exact := by
  have grounded := grounded_of_mem compiled listed
  exact {
    ends := fun turns enough => ⟨_, Definitions.walk_eq_reach enough, rfl⟩
    ordered := Validator.recursive_pairwise grounded.distinct
    needed := fun id => grounded.mem_recursive_keys_iff
    stored := fun id rule among => ((Validator.mem_recursive_iff grounded.distinct).mp among).2
    described := ⟨_, _, rfl, grounded.selfContained⟩ }

/-- The rule of a person shows persons only, whose definition leads on to accounts. -/
theorem person_exact :
    ∃ registry, accounts.compile {} = .ok registry ∧
      ∃ validator ∈ registry.validators, validator.name = "Person" ∧
        validator.rule.lazyIds = [1, 1] ∧ validator.recursive.map Prod.fst = [0, 1] ∧
        validator.Exact := by
  have evaluated : (accounts.compile {}).toOption.bind (fun registry =>
      (registry.get? "Person").map fun validator =>
        (validator.rule.lazyIds, validator.definitions.unspent [],
          (validator.definitions.walk 8 validator.rule.lazyIds []).map fun reached =>
            (Definitions.sorted (validator.definitions.filter
              fun definition => reached.contains definition.1)).map Prod.fst)) =
      some ([1, 1], 4, some [0, 1]) := by decide +kernel
  obtain ⟨registry, succeeded, served⟩ := Option.bind_eq_some_iff.mp evaluated
  have compiled := toOption_eq_some_iff.mp succeeded
  obtain ⟨validator, found, same⟩ := Option.map_eq_some_iff.mp served
  obtain ⟨lazyIds, rest⟩ := Prod.mk.inj same
  obtain ⟨unspent, walked⟩ := Prod.mk.inj rest
  have listed := List.mem_of_find?_eq_some found
  have named : validator.name = "Person" := by simpa using List.find?_some found
  have exact := compile_exact compiled listed
  obtain ⟨reached, ended, same⟩ := exact.ends 8 (by rw [lazyIds, unspent]; decide)
  rw [ended, Option.map_some, ← same] at walked
  exact ⟨registry, compiled, validator, listed, named, lazyIds, Option.some.inj walked, exact⟩

end Schema

end PayloadSchema
