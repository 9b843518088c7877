import PayloadSchema.Proofs.Compile.Nesting

/-! # Compiling on one stack

A compilation can keep the messages that are being compiled on one stack: a message is put on it
when it is entered, and taken off again when it is left, with its rule or with an error.  Run
within a bound on how deep the calls may go, such a compilation may come to no end.  It does come
to one as soon as the bound is the number of messages, whatever the references are, and its result
is the one of `Catalog.compile`; every call finds distinct messages on the stack, and leaves it as
it was. -/

namespace PayloadSchema

/-- A call, with the messages that were on the stack when it began and when it ended. -/
structure Call where
  before : List MessageId
  after : List MessageId

structure Work where
  /-- The messages that are being compiled, the innermost first. -/
  stack : List MessageId := []
  progress : Progress := {}
  /-- The calls that have ended, the latest first. -/
  calls : List Call := []

namespace Work

def push (work : Work) (id : MessageId) : Work := { work with stack := id :: work.stack }

def pop (work : Work) : Work := { work with stack := work.stack.tail }

def defer (work : Work) (id : MessageId) : Work :=
  { work with progress := work.progress.defer id }

def finish (work : Work) (id : MessageId) (rule : RecordRule) : Work :=
  { work with progress := work.progress.finish id rule }

def ended (work : Work) (before : List MessageId) : Work :=
  { work with calls := ⟨before, work.stack⟩ :: work.calls }

end Work

/-- A part of a compilation: its result or its error, with the work done in either case, or
    nothing if it did not end within the bound. -/
abbrev Task (α : Type) := Work → Option (Except SchemaError α × Work)

namespace Task

variable {α β : Type}

def asCall (task : Task α) : Task α := fun work =>
  (task work).map fun (result, after) => (result, after.ended work.stack)

def map (function : α → β) (task : Task α) : Task β := fun work =>
  (task work).map fun (result, after) => (result.map function, after)

/-- A task and then the next one, unless the first fails. -/
def andThen (task : Task α) (next : α → Task β) : Task β := fun work =>
  match task work with
  | none => none
  | some (.error error, after) => some (.error error, after)
  | some (.ok value, after) => next value after

end Task

section

variable (catalog : Catalog) (options : Options) (enter : catalog.Listed → Task RecordRule)

/-- Compiles a reference, given how a message is entered. -/
def referenceTask (next : catalog.Listed) : Task Shape := .asCall fun work =>
  if work.stack.contains next.1.id then
    some (.ok (.lazy next.1.message.name next.1.id), work.defer next.1.id)
  else (enter next).map .record work

def typeTask (scope : Entry) (field : Field) : Task FieldType :=
  match Scalar.ofName? field.typeName with
  | some scalar => fun work => some (.ok ⟨scalar.shape, .literal scalar.literalKind⟩, work)
  | none =>
    match catalog.referent scope field.typeName with
    | .enum enum => fun work => some (.ok ⟨.enum enum.name enum.names, .member enum.names⟩, work)
    | .message target => (referenceTask catalog enter target).map (⟨·, .forbidden⟩)
    | .nothing => fun work =>
      some (.error (.unknownType scope.message.name field.name field.typeName), work)

def fieldTask (scope : Entry) (field : Field) : Task Rule :=
  .asCall <| (typeTask catalog enter scope field).andThen fun type work =>
    some (field.rule scope.message.name type options, work)

def fieldsTask (scope : Entry) : List Field → Task (List (String × Rule))
  | [] => fun work => some (.ok [], work)
  | field :: rest =>
    (fieldTask catalog options enter scope field).andThen fun rule =>
      (fieldsTask scope rest).map ((field.name, rule) :: ·)

/-- Compiles a message, with at most `bound` messages entered inside one another. -/
def messageTask : Nat → catalog.Listed → Task RecordRule
  | 0, _ => fun _ => none
  | bound + 1, target => .asCall fun work =>
    match fieldsTask catalog options (messageTask bound) target.1 target.1.message.fields
        (work.push target.1.id) with
    | none => none
    | some (.error error, after) => some (.error error, after.pop)
    | some (.ok fields, after) =>
      let rule := target.1.message.ruleOf options fields
      some (.ok rule, after.pop.finish target.1.id rule)

def rootsTask (bound : Nat) : List catalog.Listed → Task (List RecordRule)
  | [] => fun work => some (.ok [], work)
  | root :: rest => fun work =>
    (messageTask catalog options bound root).andThen (fun rule =>
      (rootsTask bound rest).map (rule :: ·)) { work with stack := [] }

end

/-! ## What a call leaves behind -/

section

variable {catalog : Catalog} {options : Options} {α β : Type}

/-- Whether the messages on a stack are distinct ones of the catalog. -/
structure Stacked (catalog : Catalog) (stack : List MessageId) : Prop where
  distinct : stack.Nodup
  listed : ∀ id ∈ stack, ∃ entry ∈ catalog.entries, entry.id = id

theorem Stacked.push {stack : List MessageId} (stacked : Stacked catalog stack)
    {target : catalog.Listed} (fresh : target.1.id ∉ stack) :
    Stacked catalog (target.1.id :: stack) :=
  ⟨List.nodup_cons.mpr ⟨fresh, stacked.distinct⟩,
    List.forall_mem_cons.mpr ⟨⟨target.1, target.2, rfl⟩, stacked.listed⟩⟩

theorem Stacked.length_le {stack : List MessageId} (stacked : Stacked catalog stack) :
    stack.length ≤ catalog.entries.length := by
  have among : stack ⊆ catalog.entries.map Entry.id := fun id waiting =>
    List.mem_map.mpr (stacked.listed id waiting)
  simpa using (stacked.distinct.subperm among).length_le

/-- Whether a call finds distinct messages of the catalog on the stack, no more than there are,
    and leaves it as it was. -/
structure Call.Orderly (catalog : Catalog) (call : Call) : Prop where
  stacked : Stacked catalog call.before
  bounded : call.before.length ≤ catalog.entries.length
  restored : call.after = call.before

/-- Whether the stack is as before, and the calls in between were orderly. -/
structure Work.Keeps (catalog : Catalog) (before after : Work) : Prop where
  stack : after.stack = before.stack
  calls : ∀ call ∈ after.calls, call ∈ before.calls ∨ call.Orderly catalog

namespace Work.Keeps

variable {before middle after : Work}

theorem refl (work : Work) : work.Keeps catalog work := ⟨rfl, fun _ listed => .inl listed⟩

theorem trans (first : before.Keeps catalog middle) (second : middle.Keeps catalog after) :
    before.Keeps catalog after := by
  refine ⟨second.stack.trans first.stack, fun call listed => ?_⟩
  cases second.calls call listed with
  | inl earlier => exact first.calls call earlier
  | inr orderly => exact .inr orderly

theorem ended (keeps : before.Keeps catalog after) (stacked : Stacked catalog before.stack) :
    before.Keeps catalog (after.ended before.stack) := by
  refine ⟨keeps.stack, List.forall_mem_cons.mpr ⟨.inr ?_, keeps.calls⟩⟩
  exact ⟨stacked, stacked.length_le, keeps.stack⟩

theorem orderly (keeps : Keeps catalog {} after) : ∀ call ∈ after.calls, call.Orderly catalog :=
  fun call listed => (keeps.calls call listed).resolve_left List.not_mem_nil

end Work.Keeps

/-- Whether a task ends as a compilation does that is handed the waiting messages, with the stack
    as before. -/
inductive Follows (catalog : Catalog) (work : Work) :
    Except SchemaError (α × Progress) → Option (Except SchemaError α × Work) → Prop where
  | ok {value : α} {after : Work} (keeps : work.Keeps catalog after) :
      Follows catalog work (.ok (value, after.progress)) (some (.ok value, after))
  | error {error : SchemaError} {after : Work} (keeps : work.Keeps catalog after) :
      Follows catalog work (.error error) (some (.error error, after))

namespace Follows

variable {work : Work} {outcome : Except SchemaError (α × Progress)} {task : Task α}

theorem asCall (follows : Follows catalog work outcome (task work))
    (stacked : Stacked catalog work.stack) : Follows catalog work outcome (task.asCall work) := by
  rw [Task.asCall]
  generalize task work = ended at follows
  cases follows with
  | ok keeps => exact .ok (keeps.ended stacked)
  | error keeps => exact .error (keeps.ended stacked)

theorem map (function : α → β) (follows : Follows catalog work outcome (task work)) :
    Follows catalog work (outcome.map fun result => (function result.1, result.2))
      (task.map function work) := by
  rw [Task.map]
  generalize task work = ended at follows
  cases follows with
  | ok keeps => exact .ok keeps
  | error keeps => exact .error keeps

theorem andThen {next : α → Task β} {nextOutcome : α × Progress → Except SchemaError (β × Progress)}
    (follows : Follows catalog work outcome (task work))
    (later : ∀ value after, work.Keeps catalog after →
      Follows catalog after (nextOutcome (value, after.progress)) (next value after)) :
    Follows catalog work (outcome.bind nextOutcome) (task.andThen next work) := by
  rw [Task.andThen]
  generalize task work = ended at follows
  cases follows with
  | error keeps => exact .error keeps
  | @ok value after keeps =>
    have second := later value after keeps
    dsimp only [Except.bind]
    generalize nextOutcome (value, after.progress) = outcome at second
    generalize next value after = ended at second
    cases second with
    | ok further => exact .ok (keeps.trans further)
    | error further => exact .error (keeps.trans further)

end Follows

variable {active : List MessageId} {reference : Reference catalog}

theorem compileReference_of_fresh {next : catalog.Listed}
    (fresh : active.contains next.1.id = false) (progress : Progress) :
    compileReference catalog options active next progress =
      (compileMessage catalog options active next fresh progress).map fun result =>
        (.record result.1, result.2) := by
  rw [compileReference, dif_pos fresh]
  cases compileMessage catalog options active next fresh progress <;> rfl

def compileField (catalog : Catalog) (options : Options) (reference : Reference catalog)
    (scope : Entry) (field : Field) (progress : Progress) :
    Except SchemaError (Rule × Progress) :=
  (fieldType catalog reference scope field progress).bind fun typed =>
    (field.rule scope.message.name typed.1 options).map (·, typed.2)

theorem compileFields_cons (scope : Entry) (field : Field) (rest : List Field)
    (progress : Progress) :
    compileFields catalog options reference scope (field :: rest) progress =
      (compileField catalog options reference scope field progress).bind fun result =>
        (compileFields catalog options reference scope rest result.2).map fun others =>
          ((field.name, result.1) :: others.1, others.2) := by
  rw [compileFields, compileField]
  cases fieldType catalog reference scope field progress with
  | error error => rfl
  | ok typed =>
    dsimp only [Except.bind]
    cases field.rule scope.message.name typed.1 options with
    | error error => rfl
    | ok rule =>
      dsimp only [Except.map]
      cases compileFields catalog options reference scope rest typed.2 <;> rfl

theorem compileRoots_cons (root : catalog.Listed) (rest : List catalog.Listed)
    (progress : Progress) :
    compileRoots catalog options (root :: rest) progress =
      (compileMessage catalog options [] root rfl progress).bind fun result =>
        (compileRoots catalog options rest result.2).map fun others =>
          (result.1 :: others.1, others.2) := by
  rw [compileRoots]
  cases compileMessage catalog options [] root rfl progress with
  | error error => rfl
  | ok result =>
    dsimp only [Except.bind]
    cases compileRoots catalog options rest result.2 <;> rfl

/-! ## What a compilation on a stack follows -/

/-- Whether messages are entered as a compilation enters them, from inside those that wait. -/
def Enters (catalog : Catalog) (options : Options) (active : List MessageId)
    (enter : catalog.Listed → Task RecordRule) : Prop :=
  ∀ next fresh (work : Work), work.stack = active →
    Follows catalog work (compileMessage catalog options active next fresh work.progress)
      (enter next work)

variable {enter : catalog.Listed → Task RecordRule} {work : Work}

theorem referenceTask_follows (enters : Enters catalog options active enter)
    (stacked : Stacked catalog active) (waiting : work.stack = active) (next : catalog.Listed) :
    Follows catalog work (compileReference catalog options active next work.progress)
      (referenceTask catalog enter next work) := by
  subst waiting
  refine Follows.asCall ?_ stacked
  by_cases fresh : work.stack.contains next.1.id = false
  · rw [compileReference_of_fresh fresh, if_neg (by simpa using fresh)]
    exact (enters next fresh work rfl).map Shape.record
  · rw [compileReference, dif_neg fresh, if_pos (by simpa using fresh)]
    have keeps : work.Keeps catalog (work.defer next.1.id) := ⟨rfl, fun _ listed => .inl listed⟩
    exact .ok keeps

theorem typeTask_follows (enters : Enters catalog options active enter)
    (stacked : Stacked catalog active) (waiting : work.stack = active) (scope : Entry)
    (field : Field) :
    Follows catalog work
      (fieldType catalog (compileReference catalog options active) scope field work.progress)
      (typeTask catalog enter scope field work) := by
  rw [fieldType, typeTask]
  cases Scalar.ofName? field.typeName with
  | some scalar => exact .ok (.refl work)
  | none =>
    cases catalog.referent scope field.typeName with
    | enum enum => exact .ok (.refl work)
    | nothing => exact .error (.refl work)
    | message target =>
      have follows := (referenceTask_follows enters stacked waiting target).map
        (FieldType.mk · .forbidden)
      dsimp only
      cases referred : compileReference catalog options active target work.progress <;>
        rw [referred] at follows <;> exact follows

theorem fieldTask_follows (enters : Enters catalog options active enter)
    (stacked : Stacked catalog active) (waiting : work.stack = active) (scope : Entry)
    (field : Field) :
    Follows catalog work
      (compileField catalog options (compileReference catalog options active) scope field
        work.progress)
      (fieldTask catalog options enter scope field work) := by
  refine Follows.asCall ?_ (waiting ▸ stacked)
  refine (typeTask_follows enters stacked waiting scope field).andThen fun type after keeps => ?_
  dsimp only
  cases field.rule scope.message.name type options with
  | error error => exact .error (.refl after)
  | ok rule => exact .ok (.refl after)

theorem fieldsTask_follows (enters : Enters catalog options active enter)
    (stacked : Stacked catalog active) (waiting : work.stack = active) (scope : Entry)
    (fields : List Field) :
    Follows catalog work
      (compileFields catalog options (compileReference catalog options active) scope fields
        work.progress)
      (fieldsTask catalog options enter scope fields work) := by
  induction fields generalizing work with
  | nil => exact .ok (.refl work)
  | cons field rest inductionHypothesis =>
    rw [compileFields_cons, fieldsTask]
    refine (fieldTask_follows enters stacked waiting scope field).andThen fun rule after keeps => ?_
    -- The stack is as before, so that the other fields find the same messages waiting.
    exact (inductionHypothesis (keeps.stack.trans waiting)).map ((field.name, rule) :: ·)

theorem Work.Keeps.pop {id : MessageId} {after : Work}
    (keeps : (work.push id).Keeps catalog after) : work.Keeps catalog after.pop :=
  ⟨congrArg List.tail keeps.stack, keeps.calls⟩

/-- Within as many messages as do not wait yet, entering a message comes to an end. -/
theorem messageTask_enters {bound : Nat} (enough : catalog.remaining active ≤ bound)
    (stacked : Stacked catalog active) :
    Enters catalog options active (messageTask catalog options bound) := by
  induction bound generalizing active with
  | zero =>
    intro next fresh
    have less := remaining_cons_lt Entry.id catalog.entries active next.1 next.2 fresh
    exact absurd (Nat.lt_of_lt_of_le less enough) (Nat.not_lt_zero _)
  | succ bound inductionHypothesis =>
    intro target fresh work waiting
    have less := remaining_cons_lt Entry.id catalog.entries active target.1 target.2 fresh
    have inside : Stacked catalog (target.1.id :: active) := stacked.push (by simpa using fresh)
    have enters := inductionHypothesis (Nat.le_of_lt_succ (Nat.lt_of_lt_of_le less enough)) inside
    have follows : Follows catalog (work.push target.1.id)
        (compileFields catalog options (compileReference catalog options (target.1.id :: active))
          target.1 target.1.message.fields work.progress)
        (fieldsTask catalog options (messageTask catalog options bound) target.1
          target.1.message.fields (work.push target.1.id)) :=
      fieldsTask_follows enters inside (congrArg (target.1.id :: ·) waiting) target.1
        target.1.message.fields
    refine Follows.asCall ?_ (waiting ▸ stacked)
    rw [compileMessage_eq]
    generalize compileFields catalog options (compileReference catalog options
      (target.1.id :: active)) target.1 target.1.message.fields work.progress = outcome at follows
    generalize fieldsTask catalog options (messageTask catalog options bound) target.1
      target.1.message.fields (work.push target.1.id) = ended at follows
    cases follows with
    | error keeps => exact .error keeps.pop
    | @ok fields after keeps =>
      have finished : work.Keeps catalog
          (after.pop.finish target.1.id (target.1.message.ruleOf options fields)) :=
        ⟨keeps.pop.stack, keeps.pop.calls⟩
      exact .ok finished

theorem Stacked.empty : Stacked catalog [] :=
  ⟨.nil, fun _ waiting => (List.not_mem_nil waiting).elim⟩

theorem rootsTask_follows {bound : Nat} (enough : catalog.entries.length ≤ bound)
    (waiting : work.stack = []) (roots : List catalog.Listed) :
    Follows catalog work (compileRoots catalog options roots work.progress)
      (rootsTask catalog options bound roots work) := by
  induction roots generalizing work with
  | nil => exact .ok (.refl work)
  | cons root rest inductionHypothesis =>
    have fits : catalog.remaining [] ≤ bound := Nat.le_trans List.countP_le_length enough
    have empty : { work with stack := [] } = work := by rw [← waiting]
    rw [compileRoots_cons]
    simp only [rootsTask, empty]
    have entered : Follows catalog work
        (compileMessage catalog options [] root rfl work.progress)
        (messageTask catalog options bound root work) :=
      messageTask_enters fits .empty root rfl work waiting
    refine entered.andThen fun rule after keeps => ?_
    exact (inductionHypothesis (keeps.stack.trans waiting)).map (rule :: ·)

end

namespace Schema

/-- Compiling on one stack comes to the result of `Catalog.compile`, once as many messages as the
    schema has may be entered inside one another, and every call of it is orderly.  Along every
    route of a compiled rule the rules stem from distinct messages, so that it is no longer. -/
theorem compile_ends (schema : Schema) (options : Options) :
    (∀ bound, (Catalog.ofSchema schema).entries.length ≤ bound →
      ∃ result work,
        rootsTask (Catalog.ofSchema schema) options bound (Catalog.ofSchema schema).topLevel {} =
          some (result, work) ∧
        (Catalog.ofSchema schema).compile options =
          result.map (fun rules => (rules, work.progress.definitions)) ∧
        work.stack = [] ∧ ∀ call ∈ work.calls, call.Orderly (Catalog.ofSchema schema)) ∧
    ∀ registry, schema.compile options = .ok registry →
      ∀ validator ∈ registry.validators,
      ∀ rule, (rule = validator.rule ∨ ∃ id, (id, rule) ∈ validator.definitions) →
      ∀ rules innermost, rule.Route rules innermost →
        rules.length ≤ (Catalog.ofSchema schema).entries.length ∧
        ∃ messages, Stem (Catalog.ofSchema schema) options messages rules := by
  constructor
  · intro bound enough
    have follows : Follows (Catalog.ofSchema schema) {}
        (compileRoots (Catalog.ofSchema schema) options (Catalog.ofSchema schema).topLevel {})
        (rootsTask (Catalog.ofSchema schema) options bound (Catalog.ofSchema schema).topLevel {}) :=
      rootsTask_follows enough rfl (Catalog.ofSchema schema).topLevel
    rw [Catalog.compile]
    generalize compileRoots (Catalog.ofSchema schema) options _ _ = outcome at follows
    generalize rootsTask (Catalog.ofSchema schema) options bound _ _ = ended at follows
    cases follows with
    | ok keeps => exact ⟨_, _, rfl, rfl, keeps.stack, keeps.orderly⟩
    | error keeps => exact ⟨_, _, rfl, rfl, keeps.stack, keeps.orderly⟩
  · intro registry compiled validator listed rule origin rules innermost route
    obtain ⟨active, target, inside⟩ := exists_compiledInside compiled listed origin
    obtain ⟨messages, _, _, stem, _⟩ := inside.thread route
    exact ⟨stem.length_le, messages, stem⟩

/-- While accounts are compiled inside persons and persons inside accounts, no call goes deeper
    than the two messages. -/
theorem accounts_end :
    (∃ result work,
      rootsTask (Catalog.ofSchema accounts) {} 2 (Catalog.ofSchema accounts).topLevel {} =
        some (result, work) ∧
      work.calls.any (·.before = [0, 1]) = true ∧ work.calls.any (·.before = [1, 0]) = true ∧
      ∀ call ∈ work.calls, call.Orderly (Catalog.ofSchema accounts)) ∧
    ∃ registry, accounts.compile {} = .ok registry ∧ ∃ validator ∈ registry.validators,
      ∀ rules innermost, validator.rule.Route rules innermost → rules.length ≤ 2 := by
  obtain ⟨ends, routes⟩ := compile_ends accounts {}
  have size : (Catalog.ofSchema accounts).entries.length = 2 := by decide +kernel
  have waiting : (rootsTask (Catalog.ofSchema accounts) {} 2
      (Catalog.ofSchema accounts).topLevel {}).map (fun ended =>
        (ended.2.calls.any (·.before = [0, 1]), ended.2.calls.any (·.before = [1, 0]))) =
      some (true, true) := by decide +kernel
  have served : (accounts.compile {}).toOption.bind (fun registry =>
      (registry.get? "Person").map fun _ => ()) = some () := by decide +kernel
  obtain ⟨registry, compiled, found⟩ := Option.bind_eq_some_iff.mp served
  obtain ⟨validator, named, _⟩ := Option.map_eq_some_iff.mp found
  have succeeded := toOption_eq_some_iff.mp compiled
  have listed := List.mem_of_find?_eq_some named
  obtain ⟨result, work, ended, _, _, orderly⟩ := ends 2 (Nat.le_of_eq size)
  rw [ended, Option.map_some, Option.some.injEq, Prod.mk.injEq] at waiting
  refine ⟨⟨result, work, ended, waiting.1, waiting.2, orderly⟩, registry, succeeded, validator,
    listed, fun rules innermost route => ?_⟩
  have bounded := (routes registry succeeded validator listed _ (.inl rfl) rules innermost route).1
  rwa [size] at bounded

end Schema

end PayloadSchema
