import PayloadSchema.Proofs.Registry

/-! # Registries are complete

A compiled registry has one validator for each top-level message and none beside them.  A
name may stand for further types inside messages: what is found by a name is the validator
of the top-level message, and a name that stands for nested types only is unknown. -/

namespace PayloadSchema

structure Validator.BelongsTo (schema : Schema) (options : Options) (validator : Validator)
    (message : Message) : Prop where
  name : validator.name = message.name
  ruleName : validator.rule.message = message.name
  fields : validator.rule.fields.map Prod.fst = message.fields.map Field.name
  /-- The rule stands for the message where it is declared at the top. -/
  image : ∃ root ∈ (Catalog.ofSchema schema).topLevel, root.1.message = message ∧
    RecordImage (Catalog.ofSchema schema) options (validator.definitions.map Prod.fst)
      validator.rule root

/-- Whether a registry has just one validator for each top-level message. -/
structure Registry.Complete (schema : Schema) (options : Options) (registry : Registry) :
    Prop where
  size : registry.validators.length = schema.messages.length
  names : registry.names.Perm (schema.messages.map Message.name)
  ordered : registry.names.Pairwise (· < ·)
  found : ∀ name, (registry.get? name).isSome = true ↔ name ∈ schema.messages.map Message.name
  served : ∀ message ∈ schema.messages, ∃ validator,
    registry.get? message.name = some validator ∧ validator.BelongsTo schema options message
  unknown : ∀ name payload other,
    registry.validate name payload = .error (.unknownMessage other) ↔
      other = name ∧ name ∉ schema.messages.map Message.name

namespace Registry

variable {registry : Registry} {name : String}

theorem get?_isSome_iff : (registry.get? name).isSome = true ↔ name ∈ registry.names := by
  simp [get?, names, List.find?_isSome]

theorem get?_of_mem (distinct : registry.names.Nodup) {validator : Validator}
    (listed : validator ∈ registry.validators) :
    registry.get? validator.name = some validator :=
  find?_name_eq_some distinct listed

theorem validate_eq_unknownMessage_iff {payload : Json} {other : String} :
    registry.validate name payload = .error (.unknownMessage other) ↔
      other = name ∧ name ∉ registry.names := by
  rw [← get?_isSome_iff, validate]
  cases registry.get? name with
  | none => simp [eq_comm]
  | some validator =>
    -- A validator that is found accepts or refuses, but it is never unknown.
    dsimp only
    split <;> simp

theorem Complete.get?_eq_none {schema : Schema} {options : Options}
    (complete : registry.Complete schema options)
    (undeclared : name ∉ schema.messages.map Message.name) : registry.get? name = none := by
  rw [← Option.not_isSome_iff_eq_none, complete.found]
  exact undeclared

end Registry

theorem Validator.Serves.belongsTo {schema : Schema} {options : Options} {validator : Validator}
    {root : (Catalog.ofSchema schema).Listed}
    (serves : validator.Serves (Catalog.ofSchema schema) options root)
    (top : root ∈ (Catalog.ofSchema schema).topLevel) :
    validator.BelongsTo schema options root.1.message := by
  obtain ⟨name, image, _⟩ := serves
  exact ⟨name, image.names.1, image.names.2, root, top, rfl, image⟩

namespace Schema

variable {schema : Schema} {options : Options} {registry : Registry}

theorem compile_complete (compiled : schema.compile options = .ok registry) :
    registry.Complete schema options := by
  obtain ⟨_, scopes, _⟩ := compile_eq_ok_iff.mp compiled
  have distinct : (schema.messages.map Message.name).Nodup := (checkScopes_eq_ok_iff.mp scopes).2.1
  obtain ⟨ordered, named⟩ := compile_names compiled
  have names : registry.names.Perm (schema.messages.map Message.name) :=
    (List.perm_ext_iff_of_nodup (Registry.nodup_of_pairwise ordered) distinct).mpr named
  refine {
    size := by simpa [Registry.names] using names.length_eq
    names
    ordered
    found := fun name => Registry.get?_isSome_iff.trans (named name)
    served := fun message declared => ?_
    unknown := fun name payload other => ?_ }
  · rw [← Catalog.topLevel_messages schema, List.mem_map] at declared
    obtain ⟨root, top, rfl⟩ := declared
    obtain ⟨validator, found, serves⟩ := serves_of_root compiled top
    exact ⟨validator, found, serves.belongsTo top⟩
  · rw [Registry.validate_eq_unknownMessage_iff, named]

def orders : Schema where
  messages := [
    { name := "Order"
      fields := [{ name := "lines", typeName := "Line", repeated := true },
        { name := "kind", typeName := "Kind" }]
      messages := [
        { name := "Line", fields := [{ name := "count", typeName := "uint32" }] },
        { name := "Kind", fields := [{ name := "text", typeName := "string" }] }]
      enums := [{ name := "Order", entries := [⟨"RUSH", 0⟩] }] },
    { name := "Line"
      fields := [
        { name := "from", typeName := "string" },
        { name := "to", typeName := "string" }] }]

/-- The line that the registry knows is the one at the top, and no kind is known. -/
theorem orders_complete :
    ∃ registry, orders.compile {} = .ok registry ∧ registry.Complete orders {} ∧
      registry.names = ["Line", "Order"] ∧
      (registry.get? "Line").map (·.rule.fields.map Prod.fst) = some ["from", "to"] ∧
      registry.validate "Kind" .null = .error (.unknownMessage "Kind") := by
  have evaluated : (orders.compile {}).toOption.map (fun registry =>
      (registry.names, (registry.get? "Line").map (·.rule.fields.map Prod.fst))) =
      some (["Line", "Order"], some ["from", "to"]) := by decide +kernel
  obtain ⟨registry, succeeded, shown⟩ := Option.map_eq_some_iff.mp evaluated
  have compiled := toOption_eq_some_iff.mp succeeded
  have complete := compile_complete compiled
  exact ⟨registry, compiled, complete, congrArg Prod.fst shown, congrArg Prod.snd shown,
    (complete.unknown _ _ _).mpr ⟨rfl, by decide⟩⟩

end Schema

end PayloadSchema
