import PayloadSchema.Proofs.Compile.Sound
import PayloadSchema.Proofs.Correspondence
import PayloadSchema.Proofs.Schema.Distinct
import PayloadSchema.Registry

/-! # Compiled registries

Every validator of a compiled registry serves a top-level message: it has the name of
the message, its rule is an image of it, and all validators share definitions that
are sound.  Conversely every top-level message has its validator, since top-level
names are distinct and none replaces another one. -/

namespace PayloadSchema

namespace Registry

theorem mem_insertSorted {validator other : Validator} {validators : List Validator}
    (listed : other ∈ insertSorted validator validators) :
    other = validator ∨ other ∈ validators := by
  induction validators with
  | nil => exact .inl (List.mem_singleton.mp listed)
  | cons first rest inductionHypothesis =>
    rw [insertSorted] at listed
    split at listed
    next => simpa using listed
    next =>
      split at listed
      next =>
        cases List.mem_cons.mp listed with
        | inl same => exact .inl same
        | inr later => exact .inr (List.mem_cons_of_mem first later)
      next =>
        cases List.mem_cons.mp listed with
        | inl same => exact .inr (by simp [same])
        | inr later =>
          cases inductionHypothesis later with
          | inl same => exact .inl same
          | inr earlier => exact .inr (List.mem_cons_of_mem first earlier)

theorem find?_insertSorted (validator : Validator) (validators : List Validator) (name : String) :
    (insertSorted validator validators).find? (fun other => other.name = name) =
      if validator.name = name then some validator
      else validators.find? fun other => other.name = name := by
  induction validators with
  | nil => by_cases same : validator.name = name <;> simp [insertSorted, same]
  | cons first rest inductionHypothesis =>
    rw [insertSorted]
    split
    next => by_cases same : validator.name = name <;> simp [same]
    next =>
      split
      next replaced =>
        by_cases same : validator.name = name
        · simp [same]
        · have kept : first.name ≠ name := replaced ▸ same
          simp [same, kept]
      next distinct =>
        by_cases same : validator.name = name
        · have passed : first.name ≠ name := fun equal => distinct (same.trans equal.symm)
          simp [inductionHypothesis, same, passed]
        · by_cases found : first.name = name <;> simp [inductionHypothesis, same, found]

theorem mem_ofList {validators : List Validator} {validator : Validator}
    (listed : validator ∈ (ofList validators).validators) : validator ∈ validators := by
  -- Over the validators that are still to come, from any that are collected already.
  have collected : ∀ sorted : List Validator,
      validator ∈ validators.foldl (fun sorted other => insertSorted other sorted) sorted →
      validator ∈ sorted ∨ validator ∈ validators := by
    clear listed
    induction validators with
    | nil => exact fun _ listed => .inl listed
    | cons first rest inductionHypothesis =>
      intro sorted listed
      cases inductionHypothesis _ listed with
      | inl earlier =>
        cases mem_insertSorted earlier with
        | inl same => exact .inr (by simp [same])
        | inr earlier => exact .inl earlier
      | inr later => exact .inr (List.mem_cons_of_mem first later)
  exact (collected [] listed).resolve_left List.not_mem_nil

theorem get?_ofList {validators : List Validator}
    (distinct : (validators.map Validator.name).Nodup) {validator : Validator}
    (listed : validator ∈ validators) :
    (ofList validators).get? validator.name = some validator := by
  -- What is collected later has other names and does not replace it.
  have kept : ∀ (rest sorted : List Validator), validator.name ∉ rest.map Validator.name →
      (rest.foldl (fun sorted other => insertSorted other sorted) sorted).find?
        (fun other => other.name = validator.name) =
      sorted.find? fun other => other.name = validator.name := by
    intro rest
    induction rest with
    | nil => exact fun _ _ => rfl
    | cons first rest inductionHypothesis =>
      intro sorted absent
      rw [List.map_cons, List.mem_cons, not_or] at absent
      rw [List.foldl_cons, inductionHypothesis _ absent.2, find?_insertSorted,
        if_neg (Ne.symm absent.1)]
  obtain ⟨before, after, rfl⟩ := List.append_of_mem listed
  rw [List.map_append, List.map_cons, List.nodup_append] at distinct
  have absent := (List.nodup_cons.mp distinct.2.1).1
  rw [get?, ofList, List.foldl_append, List.foldl_cons, kept after _ absent, find?_insertSorted,
    if_pos rfl]

theorem mem_names_insertSorted {validator : Validator} {validators : List Validator}
    {name : String} :
    name ∈ (insertSorted validator validators).map Validator.name ↔
      name = validator.name ∨ name ∈ validators.map Validator.name := by
  induction validators with
  | nil => simp [insertSorted]
  | cons first rest inductionHypothesis =>
    rw [insertSorted]
    split
    next => simp
    next =>
      split
      next same => simp [← same]
      next => simp only [List.map_cons, List.mem_cons, inductionHypothesis, or_left_comm]

theorem insertSorted_pairwise (validator : Validator) {validators : List Validator}
    (sorted : (validators.map Validator.name).Pairwise (· < ·)) :
    ((insertSorted validator validators).map Validator.name).Pairwise (· < ·) := by
  induction validators with
  | nil => simp [insertSorted]
  | cons first rest inductionHypothesis =>
    rw [List.map_cons, List.pairwise_cons] at sorted
    obtain ⟨least, others⟩ := sorted
    rw [insertSorted]
    split
    next before =>
      simp only [List.map_cons, List.pairwise_cons, List.forall_mem_cons]
      exact ⟨⟨before, fun name listed => String.lt_trans before (least name listed)⟩, least, others⟩
    next behind =>
      split
      next same =>
        rw [List.map_cons, List.pairwise_cons, same]
        exact ⟨least, others⟩
      next differs =>
        have after : first.name < validator.name :=
          Std.lt_of_le_of_ne (String.not_lt.mp behind) (Ne.symm differs)
        rw [List.map_cons, List.pairwise_cons]
        refine ⟨fun name listed => ?_, inductionHypothesis others⟩
        cases mem_names_insertSorted.mp listed with
        | inl same => exact same ▸ after
        | inr earlier => exact least name earlier

theorem nodup_of_pairwise {names : List String} (inOrder : names.Pairwise (· < ·)) :
    names.Nodup := by
  apply List.Pairwise.imp _ inOrder
  rintro name other before rfl
  exact String.lt_irrefl name before

theorem ofList_names (validators : List Validator) :
    (ofList validators).names.Pairwise (· < ·) ∧
      ∀ name, name ∈ (ofList validators).names ↔ name ∈ validators.map Validator.name := by
  -- Over the validators that are still to come, from some that are in order already.
  have collected : ∀ sorted : List Validator, (sorted.map Validator.name).Pairwise (· < ·) →
      ((validators.foldl (fun sorted other => insertSorted other sorted) sorted).map
        Validator.name).Pairwise (· < ·) ∧
      ∀ name, name ∈ (validators.foldl (fun sorted other => insertSorted other sorted) sorted).map
        Validator.name ↔ name ∈ sorted.map Validator.name ∨ name ∈ validators.map Validator.name := by
    induction validators with
    | nil =>
      intro sorted ordered
      exact ⟨ordered, by simp⟩
    | cons first rest inductionHypothesis =>
      intro sorted ordered
      obtain ⟨inOrder, members⟩ := inductionHypothesis _ (insertSorted_pairwise first ordered)
      refine ⟨inOrder, fun name => ?_⟩
      rw [List.foldl_cons, members, mem_names_insertSorted, List.map_cons, List.mem_cons]
      exact or_assoc.trans or_left_comm
  obtain ⟨inOrder, members⟩ := collected [] List.Pairwise.nil
  exact ⟨inOrder, fun name => (members name).trans (by simp)⟩

end Registry

/-- Whether a validator stands for a message of a catalog. -/
structure Validator.Serves (catalog : Catalog) (options : Options) (validator : Validator)
    (root : catalog.Listed) : Prop where
  name : validator.name = root.1.message.name
  image : RecordImage catalog options (validator.definitions.map Prod.fst) validator.rule root
  sound : validator.definitions.Sound catalog options

namespace Schema

variable {schema : Schema} {options : Options} {registry : Registry}

theorem compile_eq_ok_iff :
    schema.compile options = .ok registry ↔
      schema.checkNames = .ok () ∧ schema.checkScopes = .ok () ∧
      ∃ rules definitions,
        (Catalog.ofSchema schema).compile options = .ok (rules, definitions) ∧
        registry = .ofList (rules.map fun rule => ⟨rule.message, rule, definitions⟩) := by
  simp only [Schema.compile, bind_eq_ok_iff, pure, Except.pure, Except.ok.injEq]
  constructor
  · rintro ⟨_, names, _, scopes, ⟨rules, definitions⟩, compiled, same⟩
    exact ⟨names, scopes, rules, definitions, compiled, same.symm⟩
  · rintro ⟨names, scopes, rules, definitions, compiled, same⟩
    exact ⟨(), names, (), scopes, (rules, definitions), compiled, same.symm⟩

theorem compile_shares (compiled : schema.compile options = .ok registry) :
    ∃ definitions : Definitions, definitions.Sound (Catalog.ofSchema schema) options ∧
      ∀ validator ∈ registry.validators, validator.definitions = definitions := by
  obtain ⟨_, _, rules, definitions, succeeded, rfl⟩ := compile_eq_ok_iff.mp compiled
  refine ⟨definitions, (Catalog.compile_image succeeded).1, fun validator listed => ?_⟩
  obtain ⟨rule, _, rfl⟩ := List.mem_map.mp (Registry.mem_ofList listed)
  rfl

/-- The validators that are collected into a registry are those of the top-level
    messages, in declared order. -/
theorem compile_serves {rules : List RecordRule} {definitions : Definitions}
    (compiled : (Catalog.ofSchema schema).compile options = .ok (rules, definitions)) :
    List.Forall₂ (Validator.Serves (Catalog.ofSchema schema) options)
      (rules.map fun rule => ⟨rule.message, rule, definitions⟩)
      (Catalog.ofSchema schema).topLevel := by
  obtain ⟨sound, images⟩ := Catalog.compile_image compiled
  rw [List.forall₂_map_left_iff]
  refine images.imp fun rule root image => ⟨?_, image, sound⟩
  cases image with
  | intro images => rfl

theorem serves_of_mem (compiled : schema.compile options = .ok registry) {validator : Validator}
    (listed : validator ∈ registry.validators) :
    ∃ root ∈ (Catalog.ofSchema schema).topLevel,
      validator.Serves (Catalog.ofSchema schema) options root := by
  obtain ⟨_, _, rules, definitions, succeeded, rfl⟩ := compile_eq_ok_iff.mp compiled
  exact forall₂_right_of_mem (compile_serves succeeded) (Registry.mem_ofList listed)

theorem serves_of_root (compiled : schema.compile options = .ok registry)
    {root : (Catalog.ofSchema schema).Listed} (top : root ∈ (Catalog.ofSchema schema).topLevel) :
    ∃ validator, registry.get? root.1.message.name = some validator ∧
      validator.Serves (Catalog.ofSchema schema) options root := by
  obtain ⟨_, scopes, rules, definitions, succeeded, rfl⟩ := compile_eq_ok_iff.mp compiled
  have serve := compile_serves succeeded
  have names := forall₂_map_eq (fun _ _ serves => Validator.Serves.name serves) serve
  have distinct := names ▸ topLevel_names_nodup scopes
  obtain ⟨validator, listed, serves⟩ := forall₂_left_of_mem serve top
  exact ⟨validator, serves.name ▸ Registry.get?_ofList distinct listed, serves⟩

theorem compile_names (compiled : schema.compile options = .ok registry) :
    registry.names.Pairwise (· < ·) ∧
      ∀ name, name ∈ registry.names ↔ name ∈ schema.messages.map Message.name := by
  obtain ⟨_, _, rules, definitions, succeeded, rfl⟩ := compile_eq_ok_iff.mp compiled
  have names : (rules.map fun rule => Validator.mk rule.message rule definitions).map
      Validator.name = schema.messages.map Message.name := by
    rw [forall₂_map_eq (fun _ _ serves => Validator.Serves.name serves) (compile_serves succeeded),
      ← Catalog.topLevel_messages schema, List.map_map]
    rfl
  obtain ⟨inOrder, members⟩ := Registry.ofList_names
    (rules.map fun rule => ⟨rule.message, rule, definitions⟩)
  rw [names] at members
  exact ⟨inOrder, members⟩

theorem validate_of_unnamed {name : String} (unnamed : name ∉ registry.names) (payload : Json) :
    registry.validate name payload = .error (.unknownMessage name) := by
  have absent : registry.get? name = none := by
    rw [Registry.get?, List.find?_eq_none]
    intro validator listed same
    exact unnamed (List.mem_map.mpr ⟨validator, listed, by simpa using same⟩)
  rw [Registry.validate, absent]

/-- Accounts and persons refer to each other, and persons to themselves. -/
def accounts : Schema where
  messages := [
    { name := "Account"
      fields := [
        { name := "owner", typeName := "Person", required := true },
        { name := "state", typeName := "State", default := some "OPEN" },
        { name := "iban", typeName := "string", group := some "number" },
        { name := "local", typeName := "uint32", group := some "number" }]
      enums := [{ name := "State", entries := [⟨"OPEN", 0⟩, ⟨"CLOSED", 1⟩] }] },
    { name := "Person"
      fields := [
        { name := "accounts", typeName := "Account", repeated := true },
        { name := "partner", typeName := "Person" }] }]

theorem accounts_compile : ∃ registry, accounts.compile {} = .ok registry :=
  exists_of_isOk (by decide +kernel)

def owned : Json :=
  .obj [("iban", .str "A1"),
    ("owner", .obj [("accounts", .arr [.obj [("local", .num (.int 7)), ("owner", .obj [])]])])]

/-- An account where an account of the owner's partner lacks its owner. -/
def ownerless : Json :=
  .obj [("iban", .str "A1"),
    ("owner", .obj [("partner", .obj [("accounts", .arr [.obj [("local", .num (.int (-1)))]])])])]

def ownerlessFaults : List Violation :=
  let inner : Path := [.field "owner", .field "partner", .field "accounts", .index 0]
  [⟨inner.field "owner", .missing⟩, ⟨inner.field "local", .below 0⟩]

end Schema

end PayloadSchema
