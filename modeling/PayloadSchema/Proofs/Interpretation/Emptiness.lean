import PayloadSchema.Proofs.Interpretation.Idempotence
import PayloadSchema.Proofs.Schema.Referent

/-! # Values that count as absent, in what comes out

Whether a value counts as absent is asked of what an object gives a field, before anything is
made of it.  A field that holds what it was given so never holds a value that counts as absent,
and a default is filled in whatever it is.  What is made of a message, or of a list of messages,
is not asked again.  Since members are left out and defaults are filled in inside it, it may
equal an object or an array that counts as absent. -/

namespace PayloadSchema

namespace Json

def members : Json → Members
  | .obj members => members
  | _ => []

def items : Json → List Json
  | .arr items => items
  | _ => []

end Json

/-- What an object gives a field, or null. -/
def Members.givenTo (members : Members) (options : Options) (name : String) : Json :=
  (members.given? options name).getD .null

/-- Where messages stand in a value that comes out: each with the members that were given in
    its place, and those that come out. -/
inductive MessageAt (catalog : Catalog) (options : Options) (root : Entry) (payload value : Json) :
    Entry → Members → Members → Prop where
  | root {outputs : Members} (comes : value = .obj outputs) :
      MessageAt catalog options root payload value root payload.members outputs
  | field {scope : Entry} {members outputs inner : Members} {field : Field}
      {target : catalog.Listed}
      (outer : MessageAt catalog options root payload value scope members outputs)
      (declared : field ∈ scope.message.fields) (leads : field.LeadsTo catalog scope target)
      (comes : (field.name, .obj inner) ∈ outputs) :
      MessageAt catalog options root payload value target.1
        (members.givenTo options field.name).members inner
  | item {scope : Entry} {members outputs inner : Members} {field : Field}
      {target : catalog.Listed} {items : List Json} {position : Nat}
      (outer : MessageAt catalog options root payload value scope members outputs)
      (declared : field ∈ scope.message.fields) (leads : field.LeadsTo catalog scope target)
      (comes : (field.name, .arr items) ∈ outputs)
      (item : items[position]? = some (.obj inner)) :
      MessageAt catalog options root payload value target.1
        ((members.givenTo options field.name).items[position]?.getD .null).members inner

/-- How a field of a message comes to hold a value that counts as absent. -/
inductive HoldsAbsent (catalog : Catalog) (options : Options) (scope : Entry) (field : Field)
    (members : Members) (output : Json) : Prop where
  /-- It was given no value, and its default is filled in. -/
  | filled (absent : members.given? options field.name = none)
      (stated : catalog.default? scope field = some output)
  /-- What it was given counted as present, and another value was made of the messages in it. -/
  | remade {value empty : Json} {target : catalog.Listed}
      (given : members.given? options field.name = some value) (changed : output ≠ value)
      (leads : field.LeadsTo catalog scope target)
      (listed : empty ∈ options.empty) (container : empty.isContainer = true)
      (equal : empty.equal output = true)

/-- Whether something holds wherever a field of a message holds a value that counts as absent, at
    any depth of a value that comes out. -/
def ForEachAbsent (catalog : Catalog) (options : Options) (root : Entry) (payload value : Json)
    (holds : Entry → Field → Members → Json → Prop) : Prop :=
  ∀ scope members outputs, MessageAt catalog options root payload value scope members outputs →
    ∀ field ∈ scope.message.fields, ∀ output, (field.name, output) ∈ outputs →
      options.countsAbsent output = true → holds scope field members output

/-- Whether no field holds a value that counts as absent, unless it is a default that was filled
    in. -/
def FreeOfAbsent (catalog : Catalog) (options : Options) (root : Entry) (payload value : Json) :
    Prop :=
  ForEachAbsent catalog options root payload value fun scope field members output =>
    members.given? options field.name = none ∧ catalog.default? scope field = some output

section

variable {catalog : Catalog} {options : Options} {scope : Entry}

theorem Field.LeadsTo.default? {field : Field} {target : catalog.Listed}
    (leads : field.LeadsTo catalog scope target) : catalog.default? scope field = none := by
  rw [Catalog.default?, leads.1, leads.2]
  cases field.default <;> rfl

theorem TypeOutput.messageOutput {field : Field} {target : catalog.Listed} {value output : Json}
    (leads : field.LeadsTo catalog scope target)
    (comes : TypeOutput catalog options scope field.typeName value output) :
    MessageOutput catalog options target.1 value output := by
  obtain ⟨declared, found⟩ := leads
  cases comes with
  | scalar named => cases declared.symm.trans named
  | enum _ found' => cases found.symm.trans found'
  | message _ found' inner =>
    cases found.symm.trans found'
    exact inner

theorem ItemOutputs.exists_item {name : String} {items outputs : List Json}
    (comes : ItemOutputs catalog options scope name items outputs) {position : Nat}
    {output : Json} (listed : outputs[position]? = some output) :
    ∃ item, items[position]? = some item ∧ TypeOutput catalog options scope name item output := by
  induction position generalizing items outputs with
  | zero =>
    cases comes with
    | nil => cases listed
    | cons first rest =>
      cases listed
      exact ⟨_, rfl, first⟩
  | succ position inductionHypothesis =>
    cases comes with
    | nil => cases listed
    | cons first rest => exact inductionHypothesis rest listed

theorem MessageOutput.of_members {target : Entry} {value : Json} {outputs : Members}
    (comes : MessageOutput catalog options target value (.obj outputs)) :
    MessageOutput catalog options target (.obj value.members) (.obj outputs) := by
  cases value with
  | obj members => exact comes
  | _ => cases comes

/-- At each message stands what the relation lets come out for the members that were given in
    its place. -/
theorem MessageAt.output {root scope : Entry} {payload value : Json} {members outputs : Members}
    (stands : MessageAt catalog options root payload value scope members outputs)
    (comes : MessageOutput catalog options root payload value) :
    MessageOutput catalog options scope (.obj members) (.obj outputs) := by
  induction stands with
  | root same =>
    subst same
    exact comes.of_members
  | @field scope members outputs inner field target outer declared leads listed
      inductionHypothesis =>
    cases inductionHypothesis with
    | object _ _ _ _ values =>
      cases values _ declared _ listed with
      | single given once inner =>
        rw [Members.givenTo, given]
        exact (inner.messageOutput leads).of_members
      | default _ _ _ stated => cases leads.default?.symm.trans stated
  | @item scope members outputs inner field target items position outer declared leads listed
      item inductionHypothesis =>
    cases inductionHypothesis with
    | object _ _ _ _ values =>
      cases values _ declared _ listed with
      | single given once inner => cases inner.messageOutput leads
      | list given many inner =>
        obtain ⟨given', found, inner⟩ := inner.exists_item item
        rw [Members.givenTo, given, Option.getD_some, Json.items, found]
        exact (inner.messageOutput leads).of_members
      | default _ _ _ stated => cases leads.default?.symm.trans stated

theorem Members.countsAbsent_of_given? {members : Members} {name : String} {value : Json}
    (given : members.given? options name = some value) : options.countsAbsent value = false := by
  simpa using (Option.filter_eq_some_iff.mp given).2

theorem TypeOutput.same_or_leads {field : Field} {value output : Json}
    (comes : TypeOutput catalog options scope field.typeName value output) :
    output = value ∨ ∃ target, field.LeadsTo catalog scope target := by
  cases comes with
  | scalar | enum => exact .inl rfl
  | message declared found => exact .inr ⟨_, declared, found⟩

theorem ItemOutputs.same_or_leads {field : Field} {items outputs : List Json}
    (comes : ItemOutputs catalog options scope field.typeName items outputs) :
    outputs = items ∨ ∃ target, field.LeadsTo catalog scope target := by
  induction items generalizing outputs with
  | nil =>
    cases comes
    exact .inl rfl
  | cons item items inductionHypothesis =>
    cases comes with
    | cons first rest =>
      rcases first.same_or_leads, inductionHypothesis rest with ⟨same | leads, others | leads⟩
      · exact .inl (congrArg₂ _ same others)
      all_goals exact .inr leads

theorem Options.exists_container {value : Json} (absent : options.countsAbsent value = true)
    (container : value.isContainer = true) :
    ∃ empty ∈ options.empty, empty.isContainer = true ∧ empty.equal value = true := by
  obtain ⟨empty, listed, equal⟩ := List.any_eq_true.mp absent
  refine ⟨empty, listed, ?_, equal⟩
  by_contra plain
  rw [Json.equal_container (Bool.not_eq_true _ ▸ plain) container] at equal
  cases equal

theorem HoldsAbsent.of_changed {field : Field} {members : Members} {value output : Json}
    (given : members.given? options field.name = some value)
    (made : output = value ∨ ∃ target, field.LeadsTo catalog scope target)
    (kept : output = value ∨ output.isContainer = true)
    (absent : options.countsAbsent output = true) :
    HoldsAbsent catalog options scope field members output := by
  have changed : output ≠ value := by
    rintro rfl
    rw [Members.countsAbsent_of_given? given] at absent
    cases absent
  obtain ⟨target, leads⟩ := made.resolve_left changed
  obtain ⟨empty, listed, container, equal⟩ :=
    options.exists_container absent (kept.resolve_left changed)
  exact .remade given changed leads listed container equal

/-- A field holds a value that counts as absent in two ways only. -/
theorem FieldOutput.holdsAbsent {field : Field} {members : Members} {output : Json}
    (comes : FieldOutput catalog options scope field members output)
    (absent : options.countsAbsent output = true) :
    HoldsAbsent catalog options scope field members output := by
  cases comes with
  | single given _ inner =>
    exact .of_changed given inner.same_or_leads inner.same_or_container absent
  | list given _ inner =>
    exact .of_changed given (inner.same_or_leads.imp_left (congrArg _)) (.inr rfl) absent
  | default unset _ _ stated => exact .filled unset stated

theorem HoldsAbsent.of_plain {field : Field} {members : Members} {output : Json}
    (plain : options.Plain) (holds : HoldsAbsent catalog options scope field members output) :
    members.given? options field.name = none ∧ catalog.default? scope field = some output := by
  cases holds with
  | filled absent stated => exact ⟨absent, stated⟩
  | remade _ _ _ listed container _ =>
    rw [plain _ listed] at container
    cases container

end

namespace Schema

/-- What a registry gives for a payload holds a value that counts as absent only as a default
    that was filled in, or as what was made of messages that did not count as absent.  The second
    way asks for an array or an object that counts as absent. -/
theorem validate_holds_absent {schema : Schema} {options : Options} {registry : Registry}
    (compiled : schema.compile options = .ok registry) {name : String} {payload value : Json}
    (accepted : registry.validate name payload = .ok value) :
    ∃ root ∈ (Catalog.ofSchema schema).topLevel, root.1.message.name = name ∧
      ForEachAbsent (Catalog.ofSchema schema) options root.1 payload value
        (HoldsAbsent (Catalog.ofSchema schema) options) ∧
      (options.Plain → FreeOfAbsent (Catalog.ofSchema schema) options root.1 payload value) := by
  obtain ⟨root, top, named, accepted⟩ := (validate_eq_ok_iff compiled).mp accepted
  have comes := messageOutput_of_root compiled top accepted
  have holds : ForEachAbsent (Catalog.ofSchema schema) options root.1 payload value
      (HoldsAbsent (Catalog.ofSchema schema) options) := by
    intro scope members outputs stands field declared output listed absent
    cases stands.output comes with
    | object _ _ _ _ values => exact (values field declared output listed).holdsAbsent absent
  refine ⟨root, top, named, holds, fun plain => ?_⟩
  intro scope members outputs stands field declared output listed absent
  exact (holds scope members outputs stands field declared output listed absent).of_plain plain

def labelledParcels : Schema where
  messages := [
    { name := "Parcel", fields := [{ name := "label", typeName := "Label" }] },
    { name := "Label", fields := [{ name := "text", typeName := "string" }] }]

def blank : Options where
  empty := [.str "", .obj []]

/-- A parcel whose label has an empty text. -/
def unlabelled : Json := .obj [("label", .obj [("text", .str "")])]

theorem unlabelled_accepted :
    ∃ registry, labelledParcels.compile blank = .ok registry ∧
      registry.validate "Parcel" unlabelled = .ok (.obj [("label", .obj [])]) := by
  have evaluated : (labelledParcels.compile blank).toOption.bind (fun registry =>
      (registry.validate "Parcel" unlabelled).toOption) =
      some (.obj [("label", .obj [])]) := by decide +kernel
  obtain ⟨registry, compiled, accepted⟩ := Option.bind_eq_some_iff.mp evaluated
  exact ⟨registry, toOption_eq_some_iff.mp compiled, toOption_eq_some_iff.mp accepted⟩

theorem unlabelled_holds_absent :
    ∃ registry, labelledParcels.compile blank = .ok registry ∧
      registry.validate "Parcel" unlabelled = .ok (.obj [("label", .obj [])]) ∧
      ∃ root ∈ (Catalog.ofSchema labelledParcels).topLevel, root.1.message.name = "Parcel" ∧
        ForEachAbsent (Catalog.ofSchema labelledParcels) blank root.1 unlabelled
          (.obj [("label", .obj [])]) (HoldsAbsent (Catalog.ofSchema labelledParcels) blank) := by
  obtain ⟨registry, compiled, accepted⟩ := unlabelled_accepted
  obtain ⟨root, top, named, holds, _⟩ := validate_holds_absent compiled accepted
  exact ⟨registry, compiled, accepted, root, top, named, holds⟩

/-- A value that is accepted may hold one that counts as absent and is no default. -/
theorem unlabelled_not_free :
    ∃ registry, labelledParcels.compile blank = .ok registry ∧
      registry.validate "Parcel" unlabelled = .ok (.obj [("label", .obj [])]) ∧
      ∀ root ∈ (Catalog.ofSchema labelledParcels).topLevel, root.1.message.name = "Parcel" →
        ¬ FreeOfAbsent (Catalog.ofSchema labelledParcels) blank root.1 unlabelled
          (.obj [("label", .obj [])]) := by
  obtain ⟨registry, compiled, accepted⟩ := unlabelled_accepted
  refine ⟨registry, compiled, accepted, fun root top named free => ?_⟩
  have labelled : ∀ root ∈ (Catalog.ofSchema labelledParcels).topLevel,
      root.1.message.name = "Parcel" → ∃ field ∈ root.1.message.fields, field.name = "label" := by
    decide
  obtain ⟨field, declared, label⟩ := labelled root top named
  have listed : (field.name, Json.obj []) ∈ [("label", Json.obj [])] := by simp [label]
  obtain ⟨absent, -⟩ := free root.1 _ _ (.root rfl) field declared _ listed (by decide)
  rw [label] at absent
  cases absent

end Schema

end PayloadSchema
