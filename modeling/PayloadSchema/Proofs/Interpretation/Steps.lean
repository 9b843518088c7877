import Mathlib.Data.List.Forall2
import PayloadSchema.Proofs.Except
import PayloadSchema.Proofs.Interpretation.Basic

/-! # The steps of an interpretation

When each step of an interpretation accepts what it reads, and what it then gives: a value by
its type, an object by its fields, a field by what it is given, a list item by item.  A step
that refuses says why, so that a list of violations that is empty means acceptance. -/

namespace PayloadSchema

theorem Reading.members_sublist (readings : List Reading) :
    ((readings.filterMap member?).map Prod.fst).Sublist
      ((readings.map Reading.field).map Field.name) := by
  induction readings with
  | nil => simp
  | cons reading rest inductionHypothesis =>
    obtain ⟨field, given, result⟩ := reading
    match result with
    | .error _ | .ok none =>
      simpa [List.filterMap_cons, member?] using inductionHypothesis.cons field.name
    | .ok (some _) => simpa [List.filterMap_cons, member?] using inductionHypothesis

namespace Message

variable {message : Message} {options : Options} {path : Path} {members : Members}
  {readings : List Reading}

def passed (message : Message) (options : Options) (members : Members) : Members :=
  if options.allowUnknown then message.strangers members else []

def faults (message : Message) (options : Options) (path : Path) (members : Members)
    (readings : List Reading) : List Violation :=
  readings.flatMap Reading.violations ++
    (if options.allowUnknown then []
      else (message.strangers members).map fun member => ⟨path.field member.1, .undeclared⟩) ++
    ((tagsOf message.fields).filterMap (message.alternativesFault? readings)).map (⟨path, ·⟩)

theorem conclude_of_faults :
    message.conclude options path members readings =
      if message.faults options path members readings = [] then
        .ok (.obj (readings.filterMap Reading.member? ++ message.passed options members))
      else .error (message.faults options path members readings) := rfl

theorem faults_eq_nil_iff :
    message.faults options path members readings = [] ↔
      (∀ reading ∈ readings, reading.violations = []) ∧
      (options.allowUnknown = false → message.strangers members = []) ∧
      ∀ tag ∈ tagsOf message.fields, message.alternativesFault? readings tag = none := by
  have known : (if options.allowUnknown then [] else (message.strangers members).map fun member =>
      Violation.mk (path.field member.1) .undeclared) = [] ↔
      (options.allowUnknown = false → message.strangers members = []) := by
    cases options.allowUnknown <;> simp
  rw [faults, List.append_eq_nil_iff, List.append_eq_nil_iff, known, List.flatMap_eq_nil_iff,
    List.map_eq_nil_iff, List.filterMap_eq_nil_iff, and_assoc]

theorem conclude_eq_ok_iff {value : Json} :
    message.conclude options path members readings = .ok value ↔
      (∀ reading ∈ readings, reading.violations = []) ∧
      (options.allowUnknown = false → message.strangers members = []) ∧
      (∀ tag ∈ tagsOf message.fields, message.alternativesFault? readings tag = none) ∧
      value = .obj (readings.filterMap Reading.member? ++ message.passed options members) := by
  rw [conclude_of_faults, ite_eq_ok_iff, faults_eq_nil_iff, and_assoc, and_assoc]

theorem conclude_eq_error_iff {violations : List Violation} :
    message.conclude options path members readings = .error violations ↔
      message.faults options path members readings ≠ [] ∧
      violations = message.faults options path members readings := by
  rw [conclude_of_faults, ite_eq_error_iff]

theorem passed_names {field : Field} (declared : field ∈ message.fields) :
    field.name ∉ (message.passed options members).map Prod.fst := by
  intro listed
  obtain ⟨member, kept, named⟩ := List.mem_map.mp listed
  rw [passed] at kept
  split at kept
  next =>
    have stranger := (List.mem_filter.mp kept).2
    simp only [Bool.not_eq_true', List.any_eq_false, decide_eq_true_eq] at stranger
    exact stranger field declared named.symm
  next => cases kept

theorem mem_append_passed_iff {field : Field} (declared : field ∈ message.fields)
    (own : Members) :
    field.name ∈ (own ++ message.passed options members).map Prod.fst ↔
      field.name ∈ own.map Prod.fst := by
  rw [List.map_append, List.mem_append, or_iff_left (passed_names declared)]

theorem alternativesFault?_congr {others : List Reading}
    (same : List.Forall₂ (fun reading other => reading.field = other.field ∧
      reading.provided = other.provided) readings others) :
    message.alternativesFault? readings = message.alternativesFault? others := by
  funext tag
  have counted : (readings.countP fun reading =>
        reading.field.group = some tag && reading.provided) =
      others.countP fun reading => reading.field.group = some tag && reading.provided := by
    induction same with
    | nil => rfl
    | cons first _ inductionHypothesis =>
      rw [List.countP_cons, List.countP_cons, inductionHypothesis, first.1, first.2]
  rw [alternativesFault?, counted]
  rfl

theorem conclude_error {violations : List Violation}
    (refused : message.conclude options path members readings = .error violations) :
    violations ≠ [] := by
  obtain ⟨faulty, rfl⟩ := conclude_eq_error_iff.mp refused
  exact faulty

end Message

/-! ## Values -/

theorem accuse_eq_ok_iff {path : Path} {value output : Json} {fault : Option Fault} :
    accuse path value fault = .ok output ↔ fault = none ∧ output = value := by
  cases fault with
  | none => simp [accuse, eq_comm]
  | some fault => simp [accuse]

theorem accuse_error {path : Path} {value : Json} {fault : Option Fault}
    {violations : List Violation} (refused : accuse path value fault = .error violations) :
    violations ≠ [] := by
  cases fault with
  | none => cases refused
  | some fault =>
    cases refused
    simp

namespace Catalog

variable {catalog : Catalog} {options : Options} {scope : Entry} {name : String} {path : Path}
  {value output : Json} {violations : List Violation}

def readings (catalog : Catalog) (options : Options) (target : Entry) (path : Path)
    (members : Members) : List Reading :=
  target.message.fields.map fun field =>
    catalog.interpretField options target field (path.field field.name) members

theorem interpretMessage_not_object {target : Entry} (other : ∀ members, value ≠ .obj members) :
    catalog.interpretMessage options target path value =
      .error [⟨path, .mismatch "object" value.kindName⟩] := by
  cases value with
  | obj members => exact absurd rfl (other members)
  | _ =>
    rw [interpretMessage]
    simp

theorem interpretMessage_eq_ok {target : Entry}
    (accepted : catalog.interpretMessage options target path value = .ok output) :
    ∃ members, value = .obj members ∧
      target.message.conclude options path members
        (catalog.readings options target path members) = .ok output := by
  cases value with
  | obj members =>
    rw [interpretMessage] at accepted
    exact ⟨members, rfl, accepted⟩
  | _ =>
    rw [interpretMessage_not_object (by simp)] at accepted
    cases accepted

theorem interpretMessage_error {target : Entry}
    (refused : catalog.interpretMessage options target path value = .error violations) :
    violations ≠ [] := by
  cases value with
  | obj members =>
    rw [interpretMessage] at refused
    exact Message.conclude_error refused
  | _ =>
    rw [interpretMessage_not_object (by simp)] at refused
    cases refused
    simp

/-- A value that is accepted is one of its type: a scalar or the name of an enumeration's
    value, which stay as they are, or a message. -/
theorem interpret_eq_ok_iff :
    catalog.interpret options scope name path value = .ok output ↔
      (∃ scalar, Scalar.ofName? name = some scalar ∧ scalar.fault? value = none ∧
        output = value) ∨
      Scalar.ofName? name = none ∧
        ((∃ enum, catalog.referent scope name = .enum enum ∧ enum.fault? value = none ∧
          output = value) ∨
        ∃ target, catalog.referent scope name = .message target ∧
          catalog.interpretMessage options target.1 path value = .ok output) := by
  rw [interpret]
  cases named : Scalar.ofName? name with
  | some scalar => simp [accuse_eq_ok_iff]
  | none =>
    cases found : catalog.referent scope name with
    | enum enum => simp [accuse_eq_ok_iff]
    | message target => simp
    | nothing => simp

theorem interpret_error
    (refused : catalog.interpret options scope name path value = .error violations) :
    violations ≠ [] := by
  rw [interpret] at refused
  split at refused
  next => exact accuse_error refused
  next =>
    split at refused
    next => exact accuse_error refused
    next => exact interpretMessage_error refused
    next =>
      cases refused
      simp

theorem interpretItems_eq_ok {position : Nat} {items outputs : List Json}
    (accepted : catalog.interpretItems options scope name path position items = .ok outputs) :
    List.Forall₂ (fun item output => ∃ path,
      catalog.interpret options scope name path item = .ok output) items outputs := by
  induction items generalizing position outputs with
  | nil =>
    rw [interpretItems] at accepted
    cases accepted
    exact .nil
  | cons item rest inductionHypothesis =>
    simp only [interpretItems, bind_eq_ok_iff] at accepted
    obtain ⟨first, read, others, later, same⟩ := accepted
    cases same
    exact .cons ⟨_, read⟩ (inductionHypothesis later)

theorem interpretItems_self {items : List Json}
    (each : ∀ item ∈ items, ∀ path, catalog.interpret options scope name path item = .ok item)
    (path : Path) (position : Nat) :
    catalog.interpretItems options scope name path position items = .ok items := by
  induction items generalizing position with
  | nil => rw [interpretItems]
  | cons item rest inductionHypothesis =>
    rw [interpretItems, each item List.mem_cons_self,
      inductionHypothesis (fun other listed => each other (.tail item listed))]
    rfl

theorem interpretItems_error {position : Nat} {items : List Json}
    (refused : catalog.interpretItems options scope name path position items = .error violations) :
    violations ≠ [] := by
  induction items generalizing position with
  | nil =>
    rw [interpretItems] at refused
    cases refused
  | cons item rest inductionHypothesis =>
    rw [interpretItems] at refused
    cases read : catalog.interpret options scope name (path.index position) item with
    | error found =>
      rw [read] at refused
      cases refused
      exact interpret_error read
    | ok first =>
      rw [read] at refused
      cases later : catalog.interpretItems options scope name path (position + 1) rest with
      | error found =>
        rw [later] at refused
        cases refused
        exact inductionHypothesis later
      | ok others =>
        rw [later] at refused
        cases refused

theorem interpretList_not_array (other : ∀ items, value ≠ .arr items) :
    catalog.interpretList options scope name path value =
      .error [⟨path, .mismatch "array" value.kindName⟩] := by
  cases value with
  | arr items => exact absurd rfl (other items)
  | _ =>
    rw [interpretList]
    simp

theorem interpretList_eq_ok
    (accepted : catalog.interpretList options scope name path value = .ok output) :
    ∃ items outputs, value = .arr items ∧ output = .arr outputs ∧
      catalog.interpretItems options scope name path 0 items = .ok outputs := by
  cases value with
  | arr items =>
    rw [interpretList, map_eq_ok_iff] at accepted
    obtain ⟨outputs, read, rfl⟩ := accepted
    exact ⟨items, outputs, rfl, rfl, read⟩
  | _ =>
    rw [interpretList_not_array (by simp)] at accepted
    cases accepted

theorem interpretList_error
    (refused : catalog.interpretList options scope name path value = .error violations) :
    violations ≠ [] := by
  cases value with
  | arr items =>
    rw [interpretList, map_eq_error_iff] at refused
    exact interpretItems_error refused
  | _ =>
    rw [interpretList_not_array (by simp)] at refused
    cases refused
    simp

/-! ## Fields -/

variable {field : Field} {members : Members}

theorem interpretField_of_given (given : members.given? options field.name = some value) :
    catalog.interpretField options scope field path members =
      ⟨field, true, (if field.repeated
        then catalog.interpretList options scope field.typeName path value
        else catalog.interpret options scope field.typeName path value).map some⟩ := by
  rw [interpretField]
  split
  next other found =>
    cases given.symm.trans found
    rfl
  next absent =>
    rw [given] at absent
    cases absent

theorem interpretField_of_absent (absent : members.given? options field.name = none) :
    catalog.interpretField options scope field path members =
      ⟨field, false, field.absent (catalog.default? scope field) path⟩ := by
  rw [interpretField]
  split
  next value given =>
    rw [absent] at given
    cases given
  next => rfl

@[simp] theorem interpretField_field :
    (catalog.interpretField options scope field path members).field = field := by
  cases given : members.given? options field.name with
  | some value => rw [interpretField_of_given given]
  | none => rw [interpretField_of_absent given]

theorem readings_field (target : Entry) :
    (catalog.readings options target path members).map Reading.field = target.message.fields := by
  simp [readings, Function.comp_def]

/-- What a field that is accepted gives: what comes of the value that it is given, or else
    what stands for an absent value. -/
theorem interpretField_eq_ok {output : Option Json}
    (accepted : (catalog.interpretField options scope field path members).result = .ok output) :
    (∃ value single, members.given? options field.name = some value ∧
      (if field.repeated then catalog.interpretList options scope field.typeName path value
        else catalog.interpret options scope field.typeName path value) = .ok single ∧
      output = some single) ∨
    (members.given? options field.name = none ∧ field.required = false ∧
      output = if field.repeated then none else catalog.default? scope field) := by
  cases given : members.given? options field.name with
  | some value =>
    rw [interpretField_of_given given] at accepted
    obtain ⟨single, read, same⟩ := map_eq_ok_iff.mp accepted
    exact .inl ⟨value, single, rfl, read, same.symm⟩
  | none =>
    rw [interpretField_of_absent given] at accepted
    cases required : field.required with
    | true => simp [Field.absent, required] at accepted
    | false =>
      refine .inr ⟨rfl, rfl, ?_⟩
      cases repeated : field.repeated <;> simp_all [Field.absent]

theorem interpretField_accepted
    (clean : (catalog.interpretField options scope field path members).violations = []) :
    ∃ output, (catalog.interpretField options scope field path members).result = .ok output := by
  cases read : (catalog.interpretField options scope field path members).result with
  | ok output => exact ⟨output, rfl⟩
  | error violations =>
    simp only [Reading.violations, read] at clean
    cases given : members.given? options field.name with
    | some value =>
      rw [interpretField_of_given given, map_eq_error_iff] at read
      split at read
      next => exact absurd clean (interpretList_error read)
      next => exact absurd clean (interpret_error read)
    | none =>
      rw [interpretField_of_absent given] at read
      cases required : field.required with
      | true =>
        simp only [Field.absent, required, if_true, Except.error.injEq] at read
        exact absurd clean (read ▸ List.cons_ne_nil _ _)
      | false => cases repeated : field.repeated <;> simp [Field.absent, required, repeated] at read

end Catalog

end PayloadSchema
