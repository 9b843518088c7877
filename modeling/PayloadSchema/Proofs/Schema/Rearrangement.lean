import PayloadSchema.Proofs.Schema.Distinct

/-! # Declarations in another order

Two schemas may differ in nothing but the order in which types are declared: messages and
enumerations of the schema itself, and of every message at any depth.  Fields keep their order,
and so do the values of an enumeration.  Such schemas declare the same names in corresponding
scopes, so that what is looked up by its name corresponds too, once names are distinct. -/

namespace PayloadSchema

mutual

/-- Whether a message is another one up to the order of the types declared inside it. -/
inductive Message.Rearranged : Message → Message → Prop where
  | intro {name : String} {fields : List Field} {messages others : List Message}
      {enums swapped : List EnumType} (nested : Message.AllRearranged messages others)
      (order : enums.Perm swapped) :
      Message.Rearranged ⟨name, fields, messages, enums⟩ ⟨name, fields, others, swapped⟩

inductive Message.AllRearranged : List Message → List Message → Prop where
  | nil : Message.AllRearranged [] []
  | cons {message other : Message} {messages others : List Message}
      (first : Message.Rearranged message other) (rest : Message.AllRearranged messages others) :
      Message.AllRearranged (message :: messages) (other :: others)
  | swap (first second : Message) (rest : List Message) :
      Message.AllRearranged (second :: first :: rest) (first :: second :: rest)
  | trans {messages between others : List Message}
      (before : Message.AllRearranged messages between)
      (after : Message.AllRearranged between others) : Message.AllRearranged messages others

end

/-- Whether a schema is another one up to the order of its declarations. -/
structure Schema.Rearranged (first second : Schema) : Prop where
  messages : Message.AllRearranged first.messages second.messages
  enums : first.enums.Perm second.enums

namespace Message

theorem AllRearranged.of_mem_self {messages : List Message}
    (each : ∀ message ∈ messages, message.Rearranged message) : AllRearranged messages messages := by
  induction messages with
  | nil => exact .nil
  | cons message rest inductionHypothesis =>
    obtain ⟨first, later⟩ := List.forall_mem_cons.mp each
    exact .cons first (inductionHypothesis later)

theorem Rearranged.refl (message : Message) : message.Rearranged message := by
  induction message using Message.induction with
  | step message inductionHypothesis =>
    obtain ⟨name, fields, messages, enums⟩ := message
    exact .intro (.of_mem_self inductionHypothesis) (List.Perm.refl enums)

theorem Rearranged.trans {first second third : Message} (before : first.Rearranged second)
    (after : second.Rearranged third) : first.Rearranged third := by
  cases before with
  | intro nested order =>
    cases after with
    | intro further again => exact .intro (nested.trans further) (order.trans again)

mutual

theorem Rearranged.symm : ∀ {message other : Message}, message.Rearranged other →
    other.Rearranged message
  | _, _, .intro nested order => .intro nested.symm order.symm

theorem AllRearranged.symm : ∀ {messages others : List Message}, AllRearranged messages others →
    AllRearranged others messages
  | _, _, .nil => .nil
  | _, _, .cons first rest => .cons first.symm rest.symm
  | _, _, .swap first second rest => .swap second first rest
  | _, _, .trans before after => .trans after.symm before.symm

end

theorem Rearranged.name_eq {message other : Message} (rearranged : message.Rearranged other) :
    message.name = other.name := by
  cases rearranged with
  | intro => rfl

theorem Rearranged.fields_eq {message other : Message} (rearranged : message.Rearranged other) :
    message.fields = other.fields := by
  cases rearranged with
  | intro => rfl

theorem Rearranged.messages {message other : Message} (rearranged : message.Rearranged other) :
    AllRearranged message.messages other.messages := by
  cases rearranged with
  | intro nested => exact nested

theorem Rearranged.enums {message other : Message} (rearranged : message.Rearranged other) :
    message.enums.Perm other.enums := by
  cases rearranged with
  | intro _ order => exact order

theorem AllRearranged.exists_of_mem : ∀ {messages others : List Message},
    AllRearranged messages others → ∀ message ∈ messages,
      ∃ other ∈ others, message.Rearranged other
  | _, _, .nil, message, listed => by cases listed
  | _, _, .cons first rest, message, listed => by
    cases List.mem_cons.mp listed with
    | inl same => exact ⟨_, List.mem_cons_self, same ▸ first⟩
    | inr later =>
      obtain ⟨other, found, alike⟩ := rest.exists_of_mem message later
      exact ⟨other, .tail _ found, alike⟩
  | _, _, .swap first second rest, message, listed =>
    ⟨message, (List.Perm.swap first second rest).mem_iff.mp listed, .refl message⟩
  | _, _, .trans before after, message, listed => by
    obtain ⟨between, found, alike⟩ := before.exists_of_mem message listed
    obtain ⟨other, further, same⟩ := after.exists_of_mem between found
    exact ⟨other, further, alike.trans same⟩

theorem AllRearranged.names : ∀ {messages others : List Message},
    AllRearranged messages others → (messages.map Message.name).Perm (others.map Message.name)
  | _, _, .nil => .nil
  | _, _, .cons first rest => by
    rw [List.map_cons, List.map_cons, first.name_eq]
    exact rest.names.cons _
  | _, _, .swap first second rest => .swap first.name second.name (rest.map Message.name)
  | _, _, .trans before after => before.names.trans after.names

theorem Rearranged.exists_within {inner message other : Message}
    (rearranged : message.Rearranged other) (within : inner.Within message) :
    ∃ image : Message, image.Within other ∧ inner.Rearranged image := by
  induction within generalizing other with
  | whole => exact ⟨other, .whole, rearranged⟩
  | nested declared _ inductionHypothesis =>
    obtain ⟨next, found, alike⟩ := rearranged.messages.exists_of_mem _ declared
    obtain ⟨image, inside, same⟩ := inductionHypothesis alike
    exact ⟨image, .nested found inside, same⟩

/-- What holds of every message at any depth keeps doing so, if the order of declarations
    does not matter for it. -/
theorem AllRearranged.forall_within {Holds : Message → Prop} {messages others : List Message}
    (rearranged : AllRearranged messages others)
    (kept : ∀ {message other : Message}, message.Rearranged other → Holds message → Holds other)
    (hold : ∀ message ∈ messages, ∀ inner : Message, inner.Within message → Holds inner) :
    ∀ other ∈ others, ∀ inner : Message, inner.Within other → Holds inner := by
  intro other listed inner within
  obtain ⟨message, found, alike⟩ := rearranged.symm.exists_of_mem other listed
  obtain ⟨image, inside, same⟩ := alike.exists_within within
  exact kept same.symm (hold message found image inside)

theorem NamesDistinct.rearranged {message other : Message} (rearranged : message.Rearranged other)
    (distinct : message.NamesDistinct) : other.NamesDistinct := by
  constructor
  · show (other.fields.map Field.name).Nodup
    rw [← rearranged.fields_eq]
    exact distinct.fields
  · intro enum declared
    exact distinct.entries enum (rearranged.enums.mem_iff.mpr declared)

theorem TypesDistinct.rearranged {message other : Message} (rearranged : message.Rearranged other)
    (distinct : message.TypesDistinct) : other.TypesDistinct where
  enums := (rearranged.enums.map EnumType.name).nodup_iff.mp distinct.enums
  messages := rearranged.messages.names.nodup_iff.mp distinct.messages

end Message

namespace Schema.Rearranged

variable {first second : Schema}

theorem symm (rearranged : first.Rearranged second) : second.Rearranged first :=
  ⟨rearranged.messages.symm, rearranged.enums.symm⟩

theorem checkNames (rearranged : first.Rearranged second) (checked : first.checkNames = .ok ()) :
    second.checkNames = .ok () := by
  obtain ⟨enums, messages⟩ := checkNames_eq_ok_iff.mp checked
  apply checkNames_eq_ok_iff.mpr
  constructor
  · intro enum declared
    exact enums enum (rearranged.enums.mem_iff.mpr declared)
  · exact rearranged.messages.forall_within Message.NamesDistinct.rearranged messages

theorem checkScopes (rearranged : first.Rearranged second) (checked : first.checkScopes = .ok ()) :
    second.checkScopes = .ok () := by
  obtain ⟨enums, messages, nested⟩ := checkScopes_eq_ok_iff.mp checked
  apply checkScopes_eq_ok_iff.mpr
  refine ⟨?_, ?_, ?_⟩
  · exact (rearranged.enums.map EnumType.name).nodup_iff.mp enums
  · exact rearranged.messages.names.nodup_iff.mp messages
  · exact rearranged.messages.forall_within Message.TypesDistinct.rearranged nested

end Schema.Rearranged

theorem enumIn?_perm {enums others : List EnumType} (order : enums.Perm others)
    (distinct : (enums.map EnumType.name).Nodup) (name : String) :
    Catalog.enumIn? enums name = Catalog.enumIn? others name := by
  cases found : Catalog.enumIn? enums name with
  | none =>
    symm
    apply List.find?_eq_none.mpr
    intro enum listed
    exact List.find?_eq_none.mp found enum (order.mem_iff.mpr listed)
  | some enum =>
    have listed := order.mem_iff.mp (List.mem_of_find?_eq_some found)
    have named : enum.name = name := by simpa using List.find?_some found
    rw [← named]
    exact (find?_name_eq_some ((order.map EnumType.name).nodup_iff.mp distinct) listed).symm

theorem Message.AllRearranged.find? {messages others : List Message}
    (rearranged : Message.AllRearranged messages others)
    (distinct : (messages.map Message.name).Nodup) (name : String) :
    Option.Rel Message.Rearranged (messages.find? fun message => message.name = name)
      (others.find? fun message => message.name = name) := by
  cases found : messages.find? fun message => message.name = name with
  | none =>
    have absent : others.find? (fun message => message.name = name) = none := by
      apply List.find?_eq_none.mpr
      intro other listed
      obtain ⟨message, earlier, alike⟩ := rearranged.symm.exists_of_mem other listed
      rw [alike.name_eq]
      exact List.find?_eq_none.mp found message earlier
    rw [absent]
    exact .none
  | some message =>
    have named : message.name = name := by simpa using List.find?_some found
    obtain ⟨other, listed, alike⟩ :=
      rearranged.exists_of_mem message (List.mem_of_find?_eq_some found)
    rw [← named, alike.name_eq,
      find?_name_eq_some (rearranged.names.nodup_iff.mp distinct) listed]
    exact .some alike

end PayloadSchema
