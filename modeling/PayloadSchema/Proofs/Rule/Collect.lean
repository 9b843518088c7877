import PayloadSchema.Proofs.Rule.Check

/-! # Checks that share their violations

A check may also be run with one list of violations for all of it.  Every part of the check
puts what it finds behind what was found before, and has succeeded if the list has not grown
in the meantime.  This comes to the same as the check whose parts have lists of their own:
nothing depends on what was found before, and nothing of it is lost. -/

namespace PayloadSchema

/-- The outcome, with the violations that were found before it. -/
def Outcome.after (found : List Violation) (outcome : Outcome) : Outcome :=
  ⟨outcome.value, found ++ outcome.violations⟩

@[simp] theorem Outcome.after_value (found : List Violation) (outcome : Outcome) :
    (outcome.after found).value = outcome.value := rfl

@[simp] theorem Outcome.after_violations (found : List Violation) (outcome : Outcome) :
    (outcome.after found).violations = found ++ outcome.violations := rfl

def FieldOutcome.after (found : List Violation) (field : FieldOutcome) : FieldOutcome :=
  { field with outcome := field.outcome.after found }

def hasGrown (found violations : List Violation) : Bool := found.length < violations.length

@[simp] theorem hasGrown_self (found : List Violation) : hasGrown found found = false := by
  simp [hasGrown]

theorem hasGrown_append (found own : List Violation) :
    hasGrown found (found ++ own) = true ↔ own ≠ [] := by
  cases own <;> simp [hasGrown]

/-- What has been gathered of an object: its normalized members, the names of the provided
    fields, and all violations. -/
structure Gathering where
  members : Members := []
  provided : List String := []
  violations : List Violation

namespace Gathering

def addField (gathering : Gathering) (field : FieldOutcome) : Gathering where
  members := gathering.members ++ (field.outcome.value.map (field.name, ·)).toList
  provided := gathering.provided ++ if field.provided then [field.name] else []
  violations := field.outcome.violations

/-- Takes in a member of the payload: one that is no field is let through or reported. -/
def addMember (rule : RecordRule) (path : Path) (gathering : Gathering)
    (member : String × Json) : Gathering :=
  if rule.declares member.1 then gathering
  else if rule.allowUnknown then { gathering with members := gathering.members ++ [member] }
  else { gathering with
    violations := gathering.violations ++ [⟨path.field member.1, .undeclared⟩] }

def addGroup (path : Path) (gathering : Gathering) (group : Group) : Gathering :=
  match group.fault? gathering.provided with
  | none => gathering
  | some fault => { gathering with violations := gathering.violations ++ [⟨path, fault⟩] }

/-- The outcome of an object, all of whose fields are gathered after some violations were
    found. -/
def conclude (gathering : Gathering) (rule : RecordRule) (path : Path) (members : Members)
    (found : List Violation) : Outcome :=
  let passed := members.foldl (addMember rule path) gathering
  let judged := rule.groups.foldl (addGroup path) passed
  if hasGrown found judged.violations then ⟨none, judged.violations⟩
  else ⟨some (.obj judged.members), judged.violations⟩

end Gathering

def Rule.collectAbsent (rule : Rule) (path : Path) (found : List Violation) : Outcome :=
  if rule.required then ⟨none, found ++ [⟨path, .missing⟩]⟩ else ⟨rule.default, found⟩

mutual

/-- Checks a value after some violations were found. -/
def collect (definitions : Definitions) (shape : Shape) (path : Path) (found : List Violation)
    (value : Json) : Outcome :=
  match shape.fault? definitions value with
  | some fault => ⟨none, found ++ [⟨path, fault⟩]⟩
  | none =>
    match value with
    | .arr items =>
      match shape with
      | .array element =>
        match collectItems definitions element path 0 found items with
        | (some values, violations) => ⟨some (.arr values), violations⟩
        | (none, violations) => ⟨none, violations⟩
      | _ => ⟨some (.arr items), found⟩
    | .obj members =>
      match shape.record? definitions with
      | some rule =>
        let gathering : Gathering := rule.fields.foldl (fun gathering field =>
          gathering.addField (collectField definitions field.1 field.2 (path.field field.1)
            gathering.violations members)) { violations := found }
        gathering.conclude rule path members found
      | none => ⟨some (.obj members), found⟩
    | other => ⟨some other, found⟩

/-- Checks the items of an array from a position on, up to the first one after which the list
    of violations has grown. -/
def collectItems (definitions : Definitions) (element : Rule) (path : Path) (position : Nat)
    (found : List Violation) : List Json → Option (List Json) × List Violation
  | [] => (some [], found)
  | item :: rest =>
    let outcome :=
      if element.isEmpty item then element.collectAbsent (path.index position) found
      else collect definitions element.shape (path.index position) found item
    if hasGrown found outcome.violations then (none, outcome.violations)
    else
      let (values, violations) :=
        collectItems definitions element path (position + 1) outcome.violations rest
      (values.map (outcome.value.getD .null :: ·), violations)

def collectField (definitions : Definitions) (name : String) (rule : Rule) (path : Path)
    (found : List Violation) : Members → FieldOutcome
  | [] =>
    let outcome := rule.collectAbsent path found
    ⟨name, outcome.value.isSome, outcome⟩
  | (key, value) :: rest =>
    if key = name then
      if rule.isEmpty value then
        let outcome := rule.collectAbsent path found
        ⟨name, outcome.value.isSome, outcome⟩
      else ⟨name, true, collect definitions rule.shape path found value⟩
    else collectField definitions name rule path found rest

end

theorem Rule.collectAbsent_eq (rule : Rule) (path : Path) (found : List Violation) :
    rule.collectAbsent path found = (rule.absent path).after found := by
  cases required : rule.required <;>
    simp [collectAbsent, absent, required, Outcome.after, Outcome.refuse]

section

variable {definitions : Definitions} {path : Path}

theorem collectField_eq {name : String} {rule : Rule} {found : List Violation} {members : Members}
    (agree : ∀ member ∈ members, collect definitions rule.shape path found member.2 =
      (check definitions rule.shape path member.2).after found) :
    collectField definitions name rule path found members =
      (checkField definitions name rule path members).after found := by
  induction members with
  | nil => simp [collectField, checkField, rule.collectAbsent_eq, FieldOutcome.after]
  | cons member rest inductionHypothesis =>
    obtain ⟨key, value⟩ := member
    obtain ⟨first, others⟩ := List.forall_mem_cons.mp agree
    rw [collectField, checkField, rule.collectAbsent_eq, first, inductionHypothesis others]
    by_cases same : key = name
    · cases isEmpty : rule.isEmpty value <;> simp [same, FieldOutcome.after]
    · simp [same]

def itemsAfter (found : List Violation) :
    Except (List Violation) (List Json) → Option (List Json) × List Violation
  | .ok values => (some values, found)
  | .error violations => (none, found ++ violations)

theorem collectItems_eq {element : Rule} {position : Nat} {found : List Violation}
    {items : List Json}
    (agree : ∀ item ∈ items, ∀ path found, collect definitions element.shape path found item =
      (check definitions element.shape path item).after found) :
    collectItems definitions element path position found items =
      itemsAfter found (checkItems definitions element path position items) := by
  induction items generalizing position found with
  | nil => rfl
  | cons item rest inductionHypothesis =>
    obtain ⟨first, others⟩ := List.forall_mem_cons.mp agree
    have checked : (if element.isEmpty item then element.collectAbsent (path.index position) found
        else collect definitions element.shape (path.index position) found item) =
        (element.checkGiven definitions (path.index position)
          (element.given? (some item))).after found := by
      rw [Rule.given?_some, first, element.collectAbsent_eq]
      cases element.isEmpty item <;> rfl
    rw [collectItems, checkItems_cons, checked]
    -- The list has grown just if the item has violations of its own.
    rcases element.checkGiven definitions (path.index position) (element.given? (some item)) with
      ⟨value, _ | ⟨violation, more⟩⟩
    · simp only [Outcome.after, List.append_nil, hasGrown_self, Bool.false_eq_true, if_false,
        inductionHypothesis others]
      cases checkItems definitions element path (position + 1) rest <;> rfl
    · have grown := (hasGrown_append found (violation :: more)).mpr (List.cons_ne_nil _ _)
      simp only [Outcome.after, grown, if_true]
      rfl

end

namespace Gathering

theorem foldl_addField (fields : List (String × Rule))
    (step : String × Rule → List Violation → FieldOutcome) (own : String × Rule → FieldOutcome)
    (agree : ∀ field ∈ fields, ∀ found, step field found = (own field).after found)
    (gathering : Gathering) :
    fields.foldl (fun gathering field => gathering.addField (step field gathering.violations))
        gathering =
      { members := gathering.members ++
          (fields.map own).filterMap fun field => field.outcome.value.map (field.name, ·)
        provided := gathering.provided ++ ((fields.map own).filter (·.provided)).map (·.name)
        violations := gathering.violations ++ (fields.map own).flatMap (·.outcome.violations) } := by
  induction fields generalizing gathering with
  | nil => simp
  | cons field rest inductionHypothesis =>
    obtain ⟨first, others⟩ := List.forall_mem_cons.mp agree
    rw [List.foldl_cons, inductionHypothesis others, first]
    cases value : (own field).outcome.value <;> cases provided : (own field).provided <;>
      simp [addField, FieldOutcome.after, value, provided]

theorem foldl_addMember (rule : RecordRule) (path : Path) (members : Members)
    (gathering : Gathering) :
    members.foldl (addMember rule path) gathering =
      { gathering with
        members := gathering.members ++ if rule.allowUnknown then rule.undeclared members else []
        violations := gathering.violations ++
          (if rule.allowUnknown then [] else rule.undeclared members).map fun member =>
            ⟨path.field member.1, .undeclared⟩ } := by
  induction members generalizing gathering with
  | nil => simp [RecordRule.undeclared]
  | cons member rest inductionHypothesis =>
    rw [List.foldl_cons, inductionHypothesis]
    cases declared : rule.declares member.1 <;> cases allowed : rule.allowUnknown <;>
      simp [addMember, RecordRule.undeclared, declared, allowed]

theorem foldl_addGroup (path : Path) (groups : List Group) (gathering : Gathering) :
    groups.foldl (addGroup path) gathering =
      { gathering with
        violations := gathering.violations ++
          (groups.filterMap (·.fault? gathering.provided)).map (⟨path, ·⟩) } := by
  induction groups generalizing gathering with
  | nil => simp
  | cons group rest inductionHypothesis =>
    rw [List.foldl_cons, inductionHypothesis]
    cases faulty : group.fault? gathering.provided <;> simp [addGroup, faulty]

theorem conclude_eq (rule : RecordRule) (path : Path) (members : Members)
    (found : List Violation) (fields : List FieldOutcome) :
    conclude
        { members := fields.filterMap fun field => field.outcome.value.map (field.name, ·)
          provided := (fields.filter (·.provided)).map (·.name)
          violations := found ++ fields.flatMap (·.outcome.violations) } rule path members found =
      (rule.conclude path members fields).after found := by
  rw [conclude, foldl_addMember, foldl_addGroup]
  have all : found ++ fields.flatMap (·.outcome.violations) ++
      (if rule.allowUnknown then [] else rule.undeclared members).map
        (fun member => Violation.mk (path.field member.1) .undeclared) ++
      (rule.groups.filterMap (·.fault? ((fields.filter (·.provided)).map (·.name)))).map
        (Violation.mk path ·) = found ++ rule.violations path members fields := by
    simp [RecordRule.violations]
  simp only [all, RecordRule.conclude]
  cases own : rule.violations path members fields with
  | nil => simp [Outcome.after, Outcome.accept, RecordRule.normalized]
  | cons violation more =>
    have grown := (hasGrown_append found (violation :: more)).mpr (List.cons_ne_nil _ _)
    simp [grown, Outcome.after]

end Gathering

/-- A check that shares its violations gives the value that it gives alone, and puts its own
    violations behind those that were found before. -/
theorem collect_eq (definitions : Definitions) (shape : Shape) (path : Path)
    (found : List Violation) (value : Json) :
    collect definitions shape path found value =
      (check definitions shape path value).after found := by
  induction value using Json.inside_induction generalizing shape path found with
  | step value inductionHypothesis =>
    rw [collect.eq_def, check.eq_def]
    cases shape.fault? definitions value with
    | some fault => rfl
    | none =>
      cases value with
      | arr items =>
        cases shape with
        | array element =>
          have agree : collectItems definitions element path 0 found items =
              itemsAfter found (checkItems definitions element path 0 items) :=
            collectItems_eq fun item listed path found =>
              inductionHypothesis item (.item listed) element.shape path found
          simp only [agree]
          cases checkItems definitions element path 0 items <;>
            simp [itemsAfter, Outcome.after, Outcome.accept]
        | _ => simp [Outcome.after, Outcome.accept]
      | obj members =>
        cases shape.record? definitions with
        | none => simp [Outcome.after, Outcome.accept]
        | some rule =>
          have fields := Gathering.foldl_addField rule.fields
            (fun field found => collectField definitions field.1 field.2 (path.field field.1)
              found members)
            (fun field => checkField definitions field.1 field.2 (path.field field.1) members)
            (fun field _ found => collectField_eq fun member listed =>
              inductionHypothesis member.2 (.member listed) field.2.shape _ found)
            { violations := found }
          simp only [fields, List.nil_append, Gathering.conclude_eq]
      | _ => simp [Outcome.after, Outcome.accept]

end PayloadSchema
