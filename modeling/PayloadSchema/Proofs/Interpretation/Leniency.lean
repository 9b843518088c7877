import Mathlib.Data.List.Forall2
import PayloadSchema.Proofs.Compile.Success
import PayloadSchema.Proofs.Interpretation.Agreement

/-! # Letting unknown keys through

A schema may be compiled strictly or leniently, the one refusing and the other letting through
keys that are no fields.  What is accepted strictly is accepted leniently and gives the same
value, and what only the lenient reading accepts has no fault but unknown keys: a field whose
value is refused for such a key counts as provided all the same, so that nothing else about the
objects around it changes. -/

namespace PayloadSchema

/-- Whether two results say the same of a value, except that the first may refuse it for
    unknown keys. -/
inductive Relaxed {α : Type} : Except (List Violation) α → Except (List Violation) α → Prop where
  | same (value : α) : Relaxed (.ok value) (.ok value)
  | excused {violations : List Violation}
      (unknown : ∀ violation ∈ violations, violation.fault = .undeclared) (value : α) :
      Relaxed (.error violations) (.ok value)
  | refused (violations others : List Violation) : Relaxed (.error violations) (.error others)

namespace Relaxed

variable {α β : Type} {strict lenient : Except (List Violation) α}

theorem refl (result : Except (List Violation) α) : Relaxed result result := by
  cases result with
  | ok value => exact .same value
  | error violations => exact .refused violations violations

theorem map (relaxed : Relaxed strict lenient) (function : α → β) :
    Relaxed (strict.map function) (lenient.map function) := by
  cases relaxed with
  | same value => exact .same _
  | excused unknown value => exact .excused unknown _
  | refused violations others => exact .refused _ _

theorem bind (relaxed : Relaxed strict lenient)
    {strictly leniently : α → Except (List Violation) β}
    (next : ∀ value, Relaxed (strictly value) (leniently value)) :
    Relaxed (strict >>= strictly) (lenient >>= leniently) := by
  cases relaxed with
  | same value => exact next value
  | excused unknown value =>
    show Relaxed (.error _) (leniently value)
    cases leniently value with
    | ok result => exact .excused unknown result
    | error others => exact .refused _ others
  | refused violations others => exact .refused violations others

theorem eq_ok {value : α} (relaxed : Relaxed (.ok value) lenient) : lenient = .ok value := by
  cases relaxed with
  | same => rfl

end Relaxed

/-- The options that refuse keys that are no fields. -/
def Options.strict (empty : List Json) : Options := { empty, allowUnknown := false }

def Options.lenient (empty : List Json) : Options := { empty, allowUnknown := true }

/-- Whether a field reads the same twice, except that its value may be refused for unknown keys
    the first time.  It is provided in both cases. -/
structure Reading.Relaxed (strict lenient : Reading) : Prop where
  field : strict.field = lenient.field
  given : strict.given = lenient.given
  provided : strict.provided = lenient.provided
  result : PayloadSchema.Relaxed strict.result lenient.result

theorem Reading.Relaxed.eq_of_ok {strict lenient : Reading} (relaxed : strict.Relaxed lenient)
    {output : Option Json} (accepted : strict.result = .ok output) : strict = lenient := by
  obtain ⟨field, given, result⟩ := strict
  obtain ⟨other, provided, loose⟩ := lenient
  obtain ⟨sameField, sameGiven, _, sameResult⟩ := relaxed
  simp only at accepted sameField sameGiven sameResult
  rw [accepted] at sameResult
  rw [accepted, sameField, sameGiven, sameResult.eq_ok]

namespace Catalog

variable {catalog : Catalog} {empty : List Json}

structure ReadsRelaxed (catalog : Catalog) (empty : List Json) (value : Json) : Prop where
  single : ∀ scope name path,
    Relaxed (catalog.interpret (.strict empty) scope name path value)
      (catalog.interpret (.lenient empty) scope name path value)
  list : ∀ scope name path,
    Relaxed (catalog.interpretList (.strict empty) scope name path value)
      (catalog.interpretList (.lenient empty) scope name path value)

theorem interpretField_relaxed {scope : Entry} {field : Field} {path : Path} {members : Members}
    (inside : ∀ member ∈ members, catalog.ReadsRelaxed empty member.2) :
    (catalog.interpretField (.strict empty) scope field path members).Relaxed
      (catalog.interpretField (.lenient empty) scope field path members) := by
  -- What counts as absent is the same for both.
  cases given : members.given? (.strict empty) field.name with
  | none =>
    have absent : members.given? (.lenient empty) field.name = none := given
    rw [interpretField_of_absent given, interpretField_of_absent absent]
    exact ⟨rfl, rfl, rfl, .refl _⟩
  | some value =>
    have also : members.given? (.lenient empty) field.name = some value := given
    have reads := inside _ (Members.mem_of_get? (Option.filter_eq_some_iff.mp given).1)
    rw [interpretField_of_given given, interpretField_of_given also]
    refine ⟨rfl, rfl, rfl, Relaxed.map ?_ some⟩
    cases field.repeated with
    | false => exact reads.single scope field.typeName path
    | true => exact reads.list scope field.typeName path

theorem readings_relaxed {target : Entry} {path : Path} {members : Members}
    (inside : ∀ member ∈ members, catalog.ReadsRelaxed empty member.2) :
    List.Forall₂ Reading.Relaxed (catalog.readings (.strict empty) target path members)
      (catalog.readings (.lenient empty) target path members) := by
  rw [readings, readings, List.forall₂_map_left_iff, List.forall₂_map_right_iff]
  exact List.forall₂_same.mpr fun field _ => interpretField_relaxed inside

theorem conclude_of_strict {target : Entry} {path : Path} {members : Members} {value : Json}
    (inside : ∀ member ∈ members, catalog.ReadsRelaxed empty member.2)
    (accepted : target.message.conclude (.strict empty) path members
      (catalog.readings (.strict empty) target path members) = .ok value) :
    target.message.conclude (.lenient empty) path members
      (catalog.readings (.lenient empty) target path members) = .ok value := by
  obtain ⟨clean, known, alternatives, rfl⟩ := Message.conclude_eq_ok_iff.mp accepted
  have none := known rfl
  have same : catalog.readings (.strict empty) target path members =
      catalog.readings (.lenient empty) target path members := by
    refine List.map_congr_left fun field declared => ?_
    obtain ⟨output, read⟩ := interpretField_accepted (clean _ (List.mem_map_of_mem declared))
    exact (interpretField_relaxed inside).eq_of_ok read
  rw [← same, Message.conclude_eq_ok_iff]
  exact ⟨clean, fun _ => none, alternatives, by simp [Message.passed, none]⟩

theorem conclude_of_lenient {target : Entry} {path : Path} {members : Members} {value : Json}
    {violations : List Violation}
    (inside : ∀ member ∈ members, catalog.ReadsRelaxed empty member.2)
    (accepted : target.message.conclude (.lenient empty) path members
      (catalog.readings (.lenient empty) target path members) = .ok value)
    (refused : target.message.conclude (.strict empty) path members
      (catalog.readings (.strict empty) target path members) = .error violations) :
    ∀ violation ∈ violations, violation.fault = .undeclared := by
  obtain ⟨clean, _, alternatives, _⟩ := Message.conclude_eq_ok_iff.mp accepted
  obtain ⟨_, rfl⟩ := Message.conclude_eq_error_iff.mp refused
  -- Of the alternatives exactly one is provided, in the strict reading as well.
  have provided : (tagsOf target.message.fields).filterMap (target.message.alternativesFault?
      (catalog.readings (.strict empty) target path members)) = [] := by
    rw [Message.alternativesFault?_congr ((readings_relaxed inside).imp
      fun _ _ relaxed => ⟨relaxed.field, relaxed.provided⟩), List.filterMap_eq_nil_iff]
    exact alternatives
  intro violation found
  rw [Message.faults, provided, List.map_nil, List.append_nil, List.mem_append] at found
  cases found with
  | inl own =>
    obtain ⟨reading, listed, raised⟩ := List.mem_flatMap.mp own
    obtain ⟨field, declared, rfl⟩ := List.mem_map.mp listed
    obtain ⟨output, read⟩ := interpretField_accepted (clean _ (List.mem_map_of_mem declared))
    have relaxed : Relaxed
        (catalog.interpretField (.strict empty) target field (path.field field.name) members).result
        (catalog.interpretField (.lenient empty) target field (path.field field.name) members).result :=
      (interpretField_relaxed inside).result
    rw [read] at relaxed
    rw [Reading.violations] at raised
    generalize (catalog.interpretField (.strict empty) target field (path.field field.name)
      members).result = result at relaxed raised
    cases relaxed with
    | same => cases raised
    | excused unknown => exact unknown violation raised
  | inr stranger =>
    obtain ⟨member, _, rfl⟩ := List.mem_map.mp stranger
    rfl

theorem interpretMessage_relaxed_of_inside {target : Entry} {path : Path} {value : Json}
    (inside : ∀ part, part.Inside value → catalog.ReadsRelaxed empty part) :
    Relaxed (catalog.interpretMessage (.strict empty) target path value)
      (catalog.interpretMessage (.lenient empty) target path value) := by
  cases value with
  | obj members =>
    have members : ∀ member ∈ members, catalog.ReadsRelaxed empty member.2 :=
      fun member listed => inside member.2 (.member listed)
    rw [interpretMessage, interpretMessage, ← readings, ← readings]
    cases strict : target.message.conclude _ path _ (catalog.readings (.strict empty) ..) with
    | ok value =>
      rw [conclude_of_strict members strict]
      exact .same value
    | error violations =>
      cases lenient : target.message.conclude _ path _ (catalog.readings (.lenient empty) ..) with
      | ok value => exact .excused (conclude_of_lenient members lenient strict) value
      | error others => exact .refused violations others
  | _ =>
    rw [interpretMessage_not_object (by simp), interpretMessage_not_object (by simp)]
    exact .refl _

theorem interpretItems_relaxed {scope : Entry} {name : String} {path : Path} {position : Nat}
    {items : List Json} (inside : ∀ item ∈ items, catalog.ReadsRelaxed empty item) :
    Relaxed (catalog.interpretItems (.strict empty) scope name path position items)
      (catalog.interpretItems (.lenient empty) scope name path position items) := by
  induction items generalizing position with
  | nil =>
    rw [interpretItems, interpretItems]
    exact .refl _
  | cons item rest inductionHypothesis =>
    obtain ⟨first, others⟩ := List.forall_mem_cons.mp inside
    rw [interpretItems, interpretItems]
    apply (first.single scope name (path.index position)).bind
    intro value
    apply (inductionHypothesis others).bind
    intro values
    exact .refl _

theorem readsRelaxed (catalog : Catalog) (empty : List Json) (value : Json) :
    catalog.ReadsRelaxed empty value := by
  induction value using Json.inside_induction with
  | step value inductionHypothesis =>
    constructor
    · intro scope name path
      rw [interpret, interpret]
      cases Scalar.ofName? name with
      | some scalar => exact .refl _
      | none =>
        cases catalog.referent scope name with
        | enum enum => exact .refl _
        | message target => exact interpretMessage_relaxed_of_inside inductionHypothesis
        | nothing => exact .refl _
    · intro scope name path
      cases value with
      | arr items =>
        rw [interpretList, interpretList]
        apply (interpretItems_relaxed _).map
        exact fun item listed => inductionHypothesis item (.item listed)
      | _ =>
        rw [interpretList_not_array (by simp), interpretList_not_array (by simp)]
        exact .refl _

theorem interpretMessage_relaxed (catalog : Catalog) (empty : List Json) (target : Entry)
    (path : Path) (value : Json) :
    Relaxed (catalog.interpretMessage (.strict empty) target path value)
      (catalog.interpretMessage (.lenient empty) target path value) :=
  interpretMessage_relaxed_of_inside fun part _ => catalog.readsRelaxed empty part

end Catalog

namespace Schema

/-- A schema compiles strictly if it does so leniently.  What is valid strictly is valid
    leniently and has the same value, and what is valid leniently is valid strictly as well,
    or has no violations but unknown keys. -/
theorem validate_relaxed (schema : Schema) (empty : List Json) :
    ((∃ strict, schema.compile (.strict empty) = .ok strict) ↔
      ∃ lenient, schema.compile (.lenient empty) = .ok lenient) ∧
    ∀ strict lenient, schema.compile (.strict empty) = .ok strict →
      schema.compile (.lenient empty) = .ok lenient → ∀ name payload value,
      (strict.validate name payload = .ok value → lenient.validate name payload = .ok value) ∧
      (lenient.validate name payload = .ok value →
        strict.validate name payload = .ok value ∨
        ∃ violations, strict.validate name payload = .error (.invalid violations) ∧
          ∀ violation ∈ violations, violation.fault = .undeclared) := by
  constructor
  · constructor
    · rintro ⟨strict, compiled⟩
      exact compiles_of_compile compiled _
    · rintro ⟨lenient, compiled⟩
      exact compiles_of_compile compiled _
  · intro strict lenient strictly leniently name payload value
    constructor
    · intro accepted
      obtain ⟨root, top, named, read⟩ := (validate_eq_ok_iff strictly).mp accepted
      have relaxed := (Catalog.ofSchema schema).interpretMessage_relaxed empty root.1 [] payload
      rw [read] at relaxed
      exact (validate_eq_ok_iff leniently).mpr ⟨root, top, named, relaxed.eq_ok⟩
    · intro accepted
      obtain ⟨root, top, rfl, read⟩ := (validate_eq_ok_iff leniently).mp accepted
      have relaxed := (Catalog.ofSchema schema).interpretMessage_relaxed empty root.1 [] payload
      rw [read] at relaxed
      rw [validate_of_root strictly top payload]
      generalize (Catalog.ofSchema schema).interpretMessage (.strict empty) root.1 [] payload =
        result at relaxed
      cases relaxed with
      | same => exact .inl rfl
      | excused unknown => exact .inr ⟨_, rfl, unknown⟩

def nicknamed : Json :=
  .obj [("iban", .str "A1"), ("owner", .obj [("accounts", .arr [.obj [("local", .num (.int 7)),
    ("owner", .obj [("nickname", .str "Al")])]])])]

theorem nicknamed_relaxed :
    ∃ strict lenient, accounts.compile (.strict []) = .ok strict ∧
      accounts.compile (.lenient []) = .ok lenient ∧
      (∃ value, strict.validate "Account" owned = .ok value ∧
        lenient.validate "Account" owned = .ok value) ∧
      (∃ value, lenient.validate "Account" nicknamed = .ok value) ∧
      ∃ violations, strict.validate "Account" nicknamed = .error (.invalid violations) ∧
        ∀ violation ∈ violations, violation.fault = .undeclared := by
  obtain ⟨compiles, relaxed⟩ := validate_relaxed accounts []
  obtain ⟨strict, strictly⟩ : ∃ strict, accounts.compile (.strict []) = .ok strict :=
    exists_of_isOk (by decide +kernel)
  obtain ⟨lenient, leniently⟩ := compiles.mp ⟨strict, strictly⟩
  have evaluated : (accounts.compile (.strict [])).toOption.map (fun strict =>
      ((strict.validate "Account" owned).isOk, (strict.validate "Account" nicknamed).isOk)) =
      some (true, false) := by decide +kernel
  have loosely : (accounts.compile (.lenient [])).toOption.map (fun lenient =>
      (lenient.validate "Account" nicknamed).isOk) = some true := by decide +kernel
  rw [strictly] at evaluated
  rw [leniently] at loosely
  obtain ⟨valid, invalid⟩ := Prod.mk.inj (Option.some.inj evaluated)
  obtain ⟨value, accepted⟩ := exists_of_isOk valid
  obtain ⟨loose, passed⟩ := exists_of_isOk (Option.some.inj loosely)
  have agree := relaxed strict lenient strictly leniently "Account"
  refine ⟨strict, lenient, strictly, leniently,
    ⟨value, accepted, (agree owned value).1 accepted⟩, ⟨loose, passed⟩, ?_⟩
  rcases (agree nicknamed loose).2 passed with same | unknown
  · rw [same] at invalid
    cases invalid
  · exact unknown

end Schema

end PayloadSchema
