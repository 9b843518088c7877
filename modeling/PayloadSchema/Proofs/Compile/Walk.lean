import PayloadSchema.Proofs.Compile.Stack
import PayloadSchema.Proofs.Compile.Success

/-! # The error of a compilation

A message is compiled anew on every way that leads to it.  What a compilation reports is
nevertheless what a plain walk reports that goes from the top-level messages on, depth first, and
visits no message twice.  Where the walk passes over a message, it is inside it, and the
compilation cuts the reference; or it has left it.  In the second case every field of the message
was found to fit, and leads to messages that were visited too, so that compiling it again meets
nothing new, whichever messages wait around it. -/

namespace PayloadSchema

/-- The messages that are visited, once those in `start` are. -/
abbrev Visits (start : List MessageId) := { visited : List MessageId // start ⊆ visited }

namespace Visits

def begin (start : List MessageId) : Visits start := ⟨start, List.Subset.refl start⟩

def since {start later : List MessageId} (visits : Visits later) (earlier : start ⊆ later) :
    Visits start := ⟨visits.1, List.Subset.trans earlier visits.2⟩

theorem remaining_lt {catalog : Catalog} {visited : List MessageId}
    {target : catalog.Listed} (new : visited.contains target.1.id = false)
    (visits : Visits (target.1.id :: visited)) :
    catalog.remaining visits.1 < catalog.remaining visited :=
  Nat.lt_of_le_of_lt (remaining_le_of_subset Entry.id catalog.entries visits.2)
    (remaining_cons_lt Entry.id catalog.entries visited target.1 target.2 new)

end Visits

/-- How the walk goes on to a message. -/
abbrev Passage (catalog : Catalog) (start : List MessageId) :=
  catalog.Listed → Visits start → Except SchemaError (Visits start)

section

variable (catalog : Catalog) {start : List MessageId} (passage : Passage catalog start)
  (scope : Entry)

/-- What may stand as the default of a field, once the message that its type names is visited. -/
def visitType (field : Field) (visits : Visits start) :
    Except SchemaError (DefaultForm × Visits start) :=
  match Scalar.ofName? field.typeName with
  | some scalar => .ok (.literal scalar.literalKind, visits)
  | none =>
    match catalog.referent scope field.typeName with
    | .enum enum => .ok (.member enum.names, visits)
    | .message target => (passage target visits).map (.forbidden, ·)
    | .nothing => .error (.unknownType scope.message.name field.name field.typeName)

/-- Visits what the type of a field names, and then checks its default. -/
def visitField (field : Field) (visits : Visits start) : Except SchemaError (Visits start) :=
  (visitType catalog passage scope field visits).bind fun formed =>
    (field.defaultValue scope.message.name formed.1).map fun _ => formed.2

def visitFields : List Field → Visits start → Except SchemaError (Visits start)
  | [], visits => .ok visits
  | field :: rest, visits =>
    (visitField catalog passage scope field visits).bind (visitFields rest)

end

namespace Catalog

/-- Visits a message and what its fields lead to, unless that was done before.  The message
    visited last comes first. -/
def visit (catalog : Catalog) (visited : List MessageId) (target : catalog.Listed) :
    Except SchemaError (Visits visited) :=
  if _new : visited.contains target.1.id = false then
    let passage : Passage catalog (target.1.id :: visited) := fun next visits =>
      (visit catalog visits.1 next).map (·.since visits.2)
    (visitFields catalog passage target.1 target.1.message.fields (.begin _)).map
      (·.since (List.subset_cons_self _ _))
  else .ok (.begin visited)
termination_by catalog.remaining visited
decreasing_by exact visits.remaining_lt _new

def visitRoots (catalog : Catalog) :
    List catalog.Listed → List MessageId → Except SchemaError (List MessageId)
  | [], visited => .ok visited
  | root :: rest, visited =>
    (catalog.visit visited root).bind fun after => catalog.visitRoots rest after.1

/-- Visits every top-level message, in declared order, and what it leads to. -/
def walk (catalog : Catalog) : Except SchemaError (List MessageId) :=
  catalog.visitRoots catalog.topLevel []

def passage (catalog : Catalog) (start : List MessageId) : Passage catalog start :=
  fun next visits => (catalog.visit visits.1 next).map (·.since visits.2)

variable {catalog : Catalog} {visited : List MessageId} {target : catalog.Listed}

theorem visit_of_mem (known : target.1.id ∈ visited) :
    catalog.visit visited target = .ok (.begin visited) := by
  rw [visit, dif_neg (by simpa using known)]

theorem visit_of_not_mem (new : target.1.id ∉ visited) :
    catalog.visit visited target =
      (visitFields catalog (catalog.passage (target.1.id :: visited)) target.1
        target.1.message.fields (.begin _)).map (·.since (List.subset_cons_self _ _)) := by
  rw [visit, dif_pos (by simpa using new)]
  rfl

end Catalog

/-! ## What was visited -/

structure Field.Inspected (catalog : Catalog) (visited : List MessageId) (scope : Entry)
    (field : Field) : Prop where
  fits : field.Fits catalog scope
  leads : ∀ next, field.LeadsTo catalog scope next → next.1.id ∈ visited

/-- What holds of the visited messages while the walk is inside those in `path`. -/
structure Walked (catalog : Catalog) (path visited : List MessageId) : Prop where
  distinct : visited.Nodup
  reached : ∀ id ∈ visited, ∃ target, Reachable catalog target ∧ target.1.id = id
  entered : path ⊆ visited
  /-- The walk has left every other message that it visited, and all is well with its fields. -/
  left : ∀ target : catalog.Listed, target.1.id ∈ visited → target.1.id ∉ path →
    ∀ field ∈ target.1.message.fields, field.Inspected catalog visited target.1

section

variable {catalog : Catalog} {options : Options} {path visited after : List MessageId}

theorem Field.Inspected.mono {scope : Entry} {field : Field}
    (inspected : field.Inspected catalog visited scope) (more : visited ⊆ after) :
    field.Inspected catalog after scope :=
  ⟨inspected.fits, fun next leads => more (inspected.leads next leads)⟩

namespace Walked

variable {target : catalog.Listed}

theorem start (catalog : Catalog) : Walked catalog [] [] where
  distinct := .nil
  reached _ listed := (List.not_mem_nil listed).elim
  entered := List.Subset.refl []
  left _ listed := (List.not_mem_nil listed).elim

theorem enter (walked : Walked catalog path visited) (reached : Reachable catalog target)
    (new : target.1.id ∉ visited) :
    Walked catalog (target.1.id :: path) (target.1.id :: visited) where
  distinct := List.nodup_cons.mpr ⟨new, walked.distinct⟩
  reached := List.forall_mem_cons.mpr ⟨⟨target, reached, rfl⟩, walked.reached⟩
  entered := List.cons_subset_cons _ walked.entered
  left other listed outside field declared := by
    rw [List.mem_cons, not_or] at outside
    have earlier := (List.mem_cons.mp listed).resolve_left outside.1
    exact (walked.left other earlier outside.2 field declared).mono (List.subset_cons_self _ _)

theorem leave (walked : Walked catalog (target.1.id :: path) visited)
    (identified : catalog.Identified)
    (inspected : ∀ field ∈ target.1.message.fields, field.Inspected catalog visited target.1) :
    Walked catalog path visited where
  distinct := walked.distinct
  reached := walked.reached
  entered := List.Subset.trans (List.subset_cons_self _ _) walked.entered
  left other listed outside := by
    by_cases same : other.1.id = target.1.id
    · rw [identified.eq_of_id same]
      exact inspected
    · exact walked.left other listed (by simp [same, outside])

/-- Compiling a visited message again brings no error, whichever messages wait around it besides
    those that the walk is inside of. -/
theorem compiles (walked : Walked catalog path visited) {active : List MessageId}
    {fresh : active.contains target.1.id = false} (around : path ⊆ active)
    (listed : target.1.id ∈ visited) (progress : Progress) (error : SchemaError) :
    compileMessage catalog options active target fresh progress ≠ .error error := by
  induction active, target, fresh using Catalog.descent generalizing progress with
  | enter active target fresh inductionHypothesis =>
    intro failed
    have outside : target.1.id ∉ path := fun inside => by simp [around inside] at fresh
    obtain ⟨field, declared, progress, cause⟩ :=
      compileFields_eq_error (compileMessage_eq_error failed)
    obtain ⟨fits, leads⟩ := walked.left target listed outside field declared
    -- A field that fits is not at fault itself, and what it leads to was visited as well.
    rcases cause with untyped | ⟨type, after, typed, refused⟩
    · obtain ⟨unscalar, ⟨missing, rfl⟩ | ⟨next, found, refused⟩⟩ := fieldType_eq_error untyped
      · exact fits.not_blamed _ (.unknownType unscalar missing)
      · obtain ⟨entered, failed⟩ := compileReference_eq_error refused
        have further := List.Subset.trans around (List.subset_cons_self target.1.id active)
        exact inductionHypothesis next entered further (leads next ⟨unscalar, found⟩) progress
          failed
    · exact fits.not_blamed error (defaultValue_blames typed refused)

/-- Once the walk is over, every message that it was led to is visited. -/
theorem mem_of_reachable (walked : Walked catalog [] visited)
    (roots : ∀ root ∈ catalog.topLevel, root.1.id ∈ visited)
    (reached : Reachable catalog target) : target.1.id ∈ visited := by
  induction reached with
  | root top => exact roots _ top
  | field _ listed declared found inductionHypothesis =>
    have inspected := walked.left _ inductionHypothesis List.not_mem_nil _ listed
    exact inspected.leads _ ⟨declared, found⟩

end Walked

/-- Steps that end with one error, or with values that are related. -/
abbrev EndsAlike {ε α β : Type} (related : α → β → Prop) : Except ε α → Except ε β → Prop :=
  AlikeResults (· = ·) related

namespace EndsAlike

variable {ε α β γ : Type} {related : α → β → Prop} {first : Except ε α} {second : Except ε β}

theorem map_left {function : α → γ} {later : γ → β → Prop} (alike : EndsAlike related first second)
    (keeps : ∀ value image, related value image → later (function value) image) :
    EndsAlike later (first.map function) second := by
  cases alike with
  | ok holds => exact .ok (keeps _ _ holds)
  | error same => exact .error same

theorem map_unit (alike : EndsAlike related first second) :
    first.map (fun _ => ()) = second.map fun _ => () := by
  cases alike with
  | ok => rfl
  | error same => exact congrArg Except.error same

end EndsAlike

/-! ## The compilation ends as the walk does -/

/-- What a part of the walk adds to the visited messages. -/
structure WalksOn (catalog : Catalog) (path before after : List MessageId) : Prop where
  walked : Walked catalog path after
  kept : before ⊆ after

theorem WalksOn.stay (walked : Walked catalog path visited) :
    WalksOn catalog path visited visited := ⟨walked, List.Subset.refl visited⟩

theorem WalksOn.trans (first : WalksOn catalog path visited after) {last : List MessageId}
    (second : WalksOn catalog path after last) : WalksOn catalog path visited last :=
  ⟨second.walked, List.Subset.trans first.kept second.kept⟩

theorem fits_of_typed {reference : Reference catalog} {scope : Entry} {field : Field}
    {type : FieldType} {before progress : Progress} {default : Option Json}
    (typed : fieldType catalog reference scope field before = .ok (type, progress))
    (valued : field.defaultValue scope.message.name type.defaultForm = .ok default) :
    field.Fits catalog scope := by
  rcases fieldType_eq_ok typed with ⟨scalar, named, rfl, rfl⟩ | ⟨declared, meaning⟩
  · exact .of_literal named valued
  · rcases meaning with ⟨enum, found, rfl, rfl⟩ | ⟨target, shape, found, _, rfl⟩
    · exact .of_member declared found valued
    · exact .of_forbidden declared found valued

section

variable {start : List MessageId}

/-- Whether references are followed as a walk inside the messages in `path` follows them. -/
def Passes (catalog : Catalog) (options : Options) (path : List MessageId)
    (passage : Passage catalog start) : Prop :=
  ∀ next (visits : Visits start) progress, Reachable catalog next → Walked catalog path visits.1 →
    EndsAlike (fun _ after => WalksOn catalog path visits.1 after.1 ∧ next.1.id ∈ after.1)
      (compileReference catalog options path next progress) (passage next visits)

variable {passage : Passage catalog start} {scope : catalog.Listed} {visits : Visits start}

theorem visitType_alike (passes : Passes catalog options path passage)
    (reached : Reachable catalog scope) (walked : Walked catalog path visits.1) {field : Field}
    (declared : field ∈ scope.1.message.fields) (progress : Progress) :
    EndsAlike (fun typed formed => typed.1.defaultForm = formed.1 ∧
        WalksOn catalog path visits.1 formed.2.1 ∧
        ∀ next, field.LeadsTo catalog scope.1 next → next.1.id ∈ formed.2.1)
      (fieldType catalog (compileReference catalog options path) scope.1 field progress)
      (visitType catalog passage scope.1 field visits) := by
  rw [fieldType, visitType]
  cases named : Scalar.ofName? field.typeName with
  | some scalar =>
    refine .ok ⟨rfl, .stay walked, fun next leads => ?_⟩
    cases named.symm.trans leads.1
  | none =>
    cases found : catalog.referent scope.1 field.typeName with
    | enum enum =>
      refine .ok ⟨rfl, .stay walked, fun next leads => ?_⟩
      cases found.symm.trans leads.2
    | nothing => exact .error rfl
    | message target =>
      have alike := passes target visits progress (.field reached declared named found) walked
      dsimp only
      generalize compileReference catalog options path target progress = referred at alike
      generalize passage target visits = passed at alike
      cases alike with
      | error cause => exact .error cause
      | ok holds =>
        refine .ok ⟨rfl, holds.1, fun next leads => ?_⟩
        cases found.symm.trans leads.2
        exact holds.2

theorem visitField_alike (passes : Passes catalog options path passage)
    (reached : Reachable catalog scope) (walked : Walked catalog path visits.1) {field : Field}
    (declared : field ∈ scope.1.message.fields) (progress : Progress) :
    EndsAlike (fun _ after => WalksOn catalog path visits.1 after.1 ∧
        field.Inspected catalog after.1 scope.1)
      (compileField catalog options (compileReference catalog options path) scope.1 field progress)
      (visitField catalog passage scope.1 field visits) := by
  refine (visitType_alike passes reached walked declared progress).bind ?_
  rintro typed ⟨form, after⟩ succeeded ⟨rfl, on, leads⟩
  cases valued : field.defaultValue scope.1.message.name typed.1.defaultForm with
  | error error =>
    rw [Field.rule, valued]
    exact .error rfl
  | ok default =>
    rw [Field.rule, valued]
    exact .ok ⟨on, fits_of_typed succeeded valued, leads⟩

theorem visitFields_alike (passes : Passes catalog options path passage)
    (reached : Reachable catalog scope) (walked : Walked catalog path visits.1)
    {fields : List Field} (declared : fields ⊆ scope.1.message.fields) (progress : Progress) :
    EndsAlike (fun _ after => WalksOn catalog path visits.1 after.1 ∧
        ∀ field ∈ fields, field.Inspected catalog after.1 scope.1)
      (compileFields catalog options (compileReference catalog options path) scope.1 fields
        progress)
      (visitFields catalog passage scope.1 fields visits) := by
  induction fields generalizing visits progress with
  | nil => exact .ok ⟨.stay walked, nofun⟩
  | cons field rest inductionHypothesis =>
    obtain ⟨first, others⟩ := List.cons_subset.mp declared
    rw [compileFields_cons, visitFields]
    refine (visitField_alike passes reached walked first progress).bind ?_
    rintro result middle _ ⟨on, inspected⟩
    refine (inductionHypothesis on.walked others result.2).map_left ?_
    rintro _ last ⟨further, rest⟩
    exact ⟨on.trans further, List.forall_mem_cons.mpr ⟨inspected.mono further.kept, rest⟩⟩

end

/-- A message is compiled as the walk visits it, inside the messages that the walk is inside of. -/
theorem visit_alike {path visited : List MessageId} (identified : catalog.Identified)
    {target : catalog.Listed} (reached : Reachable catalog target)
    (walked : Walked catalog path visited) (fresh : path.contains target.1.id = false)
    (progress : Progress) :
    EndsAlike (fun _ after => WalksOn catalog path visited after.1 ∧ target.1.id ∈ after.1)
      (compileMessage catalog options path target fresh progress)
      (catalog.visit visited target) := by
  by_cases known : target.1.id ∈ visited
  · -- The walk passes over the message, and compiling it once more goes well.
    rw [Catalog.visit_of_mem known]
    cases compiled : compileMessage catalog options path target fresh progress with
    | ok result => exact .ok ⟨.stay walked, known⟩
    | error error =>
      exact absurd compiled (walked.compiles (List.Subset.refl _) known progress error)
  · have passes : Passes catalog options (target.1.id :: path)
        (catalog.passage (target.1.id :: visited)) := by
      intro next visits progress reached walked
      by_cases fresh : (target.1.id :: path).contains next.1.id = false
      · rw [compileReference_of_fresh fresh]
        exact (visit_alike identified reached walked fresh progress).map
          fun _ _ (holds : WalksOn catalog _ visits.1 _ ∧ next.1.id ∈ _) => holds
      · have waiting := List.contains_iff_mem.mp (eq_true_of_ne_false fresh)
        have listed := walked.entered waiting
        rw [compileReference, dif_neg fresh, Catalog.passage, Catalog.visit_of_mem listed]
        exact .ok ⟨.stay walked, listed⟩
    have entered : Walked catalog _ (Visits.begin (target.1.id :: visited)).1 :=
      walked.enter reached known
    have alike := visitFields_alike passes reached entered (List.Subset.refl _) progress
    rw [compileMessage_eq, Catalog.visit_of_not_mem known]
    generalize compileFields catalog options _ target.1 _ progress = compiled at alike
    generalize visitFields catalog _ target.1 _ _ = ended at alike
    cases alike with
    | error cause => exact .error cause
    | ok holds =>
      obtain ⟨⟨inside, kept⟩, inspected⟩ := holds
      exact .ok ⟨⟨inside.leave identified inspected,
        List.Subset.trans (List.subset_cons_self _ _) kept⟩, kept List.mem_cons_self⟩
termination_by catalog.remaining visited
decreasing_by exact visits.remaining_lt (by simpa using known)

theorem visitRoots_alike (identified : catalog.Identified) {roots : List catalog.Listed}
    (top : roots ⊆ catalog.topLevel) (walked : Walked catalog [] visited) (progress : Progress) :
    EndsAlike (fun _ after => WalksOn catalog [] visited after ∧
        ∀ root ∈ roots, root.1.id ∈ after)
      (compileRoots catalog options roots progress) (catalog.visitRoots roots visited) := by
  induction roots generalizing visited progress with
  | nil => exact .ok ⟨.stay walked, nofun⟩
  | cons root rest inductionHypothesis =>
    obtain ⟨first, others⟩ := List.cons_subset.mp top
    rw [compileRoots_cons, Catalog.visitRoots]
    refine (visit_alike identified (.root first) walked rfl progress).bind ?_
    rintro result middle _ ⟨on, known⟩
    refine (inductionHypothesis others on.walked result.2).map_left ?_
    rintro _ last ⟨further, rest⟩
    exact ⟨on.trans further, List.forall_mem_cons.mpr ⟨further.kept known, rest⟩⟩

theorem walk_alike (identified : catalog.Identified) (options : Options) :
    EndsAlike (fun _ visited => Walked catalog [] visited ∧
        ∀ root ∈ catalog.topLevel, root.1.id ∈ visited)
      (catalog.compile options) catalog.walk := by
  have alike : EndsAlike _ (compileRoots catalog options catalog.topLevel {}) catalog.walk :=
    visitRoots_alike identified (List.Subset.refl _) (.start catalog) {}
  rw [Catalog.compile]
  generalize compileRoots catalog options catalog.topLevel {} = compiled at alike
  generalize catalog.walk = ended at alike
  cases alike with
  | error cause => exact .error cause
  | ok holds => exact .ok ⟨holds.1.walked, holds.2⟩

end

namespace Schema

/-- A schema with distinct names compiles, or fails with an error, exactly as the walk ends that
    visits no message twice.  A walk that ends well has visited the messages that are reached. -/
theorem compile_walks {schema : Schema} (names : schema.checkNames = .ok ())
    (scopes : schema.checkScopes = .ok ()) (options : Options) :
    (schema.compile options).map (fun _ => ()) =
      (Catalog.ofSchema schema).walk.map (fun _ => ()) ∧
    ∀ visited, (Catalog.ofSchema schema).walk = .ok visited →
      visited.Nodup ∧
      ∀ target : (Catalog.ofSchema schema).Listed,
        target.1.id ∈ visited ↔ Reachable (Catalog.ofSchema schema) target := by
  have identified := Catalog.ofSchema_identified schema
  have alike := walk_alike identified options
  constructor
  · calc (schema.compile options).map (fun _ => ())
        = ((Catalog.ofSchema schema).compile options).map (fun _ => ()) := by
          rw [Schema.compile, names, scopes]
          cases (Catalog.ofSchema schema).compile options <;> rfl
      _ = (Catalog.ofSchema schema).walk.map (fun _ => ()) := alike.map_unit
  · intro visited ended
    rw [ended] at alike
    generalize (Catalog.ofSchema schema).compile options = compiled at alike
    cases alike with
    | ok holds =>
      obtain ⟨walked, roots⟩ := holds
      refine ⟨walked.distinct, fun target => ⟨fun listed => ?_, walked.mem_of_reachable roots⟩⟩
      obtain ⟨other, reached, same⟩ := walked.reached _ listed
      exact identified.eq_of_id same ▸ reached

/-- Inside an order a person is compiled three times, and visited once, before the default of a
    weight turns out to be none. -/
def heavy : Schema where
  messages := [
    { name := "Order"
      fields := [
        { name := "customer", typeName := "Person" },
        { name := "recipient", typeName := "Person" },
        { name := "note", typeName := "Note" }] },
    { name := "Person"
      fields := [
        { name := "orders", typeName := "Order", repeated := true },
        { name := "friend", typeName := "Person" }] },
    { name := "Note"
      fields := [
        { name := "author", typeName := "Person" },
        { name := "weight", typeName := "uint32", default := some "heavy" }] }]

theorem heavy_walks :
    heavy.checkNames = .ok () ∧ heavy.checkScopes = .ok () ∧
    (heavy.compile {}).map (fun _ => ()) =
      .error (.unfitDefault "Note" "weight" "heavy" "uint32") := by
  have names : heavy.checkNames = .ok () := by decide +kernel
  have scopes : heavy.checkScopes = .ok () := by decide +kernel
  have ended : (Catalog.ofSchema heavy).walk.map (fun _ => ()) =
      .error (.unfitDefault "Note" "weight" "heavy" "uint32") := by decide +kernel
  exact ⟨names, scopes, (compile_walks names scopes {}).1.trans ended⟩

end Schema

end PayloadSchema
