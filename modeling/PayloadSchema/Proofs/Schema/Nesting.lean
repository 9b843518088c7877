import PayloadSchema.Proofs.Schema.Catalog

/-! # Messages inside messages

What holds of a message if it holds of the messages declared right inside it holds of every
message, and each message that is declared inside another one, at any depth, has its place
among the entries of that one. -/

namespace PayloadSchema

/-- Induction over a message, which may rely on the messages declared right inside it. -/
theorem Message.induction {motive : Message → Prop}
    (step : ∀ message, (∀ nested ∈ message.messages, motive nested) → motive message)
    (message : Message) : motive message :=
  step message fun nested _ => induction step nested
termination_by sizeOf message
decreasing_by
  have inner := List.sizeOf_lt_of_mem ‹nested ∈ message.messages›
  have outer : sizeOf message.messages < sizeOf message := by
    cases message
    simp only [Message.mk.sizeOf_spec]
    omega
  exact Nat.lt_trans inner outer

/-- Whether a message is another one, or is declared inside it at some depth. -/
inductive Message.Within (inner : Message) : Message → Prop where
  | whole : inner.Within inner
  | nested {message outer : Message} (declared : message ∈ outer.messages)
      (within : inner.Within message) : inner.Within outer

namespace Message

theorem Within.inside {message nested outer : Message} (within : message.Within outer)
    (declared : nested ∈ message.messages) : nested.Within outer := by
  induction within with
  | whole => exact .nested declared .whole
  | nested listed _ inductionHypothesis => exact .nested listed inductionHypothesis

theorem forall_within_iff {Holds : Message → Prop} {message : Message} :
    (∀ inner : Message, inner.Within message → Holds inner) ↔
      Holds message ∧ ∀ nested ∈ message.messages,
        ∀ inner : Message, inner.Within nested → Holds inner := by
  constructor
  · intro hold
    exact ⟨hold message .whole,
      fun nested declared inner within => hold inner (.nested declared within)⟩
  · rintro ⟨own, others⟩ inner within
    cases within with
    | whole => exact own
    | nested declared within => exact others _ declared inner within

end Message

namespace Catalog

theorem exists_within_of_mem {schema : Schema} {entry : Entry}
    (listed : entry ∈ (ofSchema schema).entries) :
    ∃ message ∈ schema.messages, entry.message.Within message := by
  have inherited : ∀ message : Message, (∃ outer ∈ schema.messages, message.Within outer) →
      ∀ nested ∈ message.messages, ∃ outer ∈ schema.messages, nested.Within outer := by
    rintro message ⟨outer, top, within⟩ nested declared
    exact ⟨outer, top, within.inside declared⟩
  exact entriesOfAll_hold inherited none 0 schema.messages
    (fun message top => ⟨message, top, .whole⟩) entry listed

theorem exists_entry_of_mem {message : Message} {messages : List Message}
    (listed : message ∈ messages) (parent : Option MessageId) (next : MessageId) :
    ∃ place, ∀ entry ∈ entriesOf parent place message,
      entry ∈ entriesOfAll parent next messages := by
  induction messages generalizing next with
  | nil => cases listed
  | cons first rest inductionHypothesis =>
    simp only [entriesOfAll, List.mem_append]
    cases List.mem_cons.mp listed with
    | inl same => exact ⟨next, fun entry among => .inl (same ▸ among)⟩
    | inr later =>
      obtain ⟨place, among⟩ := inductionHypothesis later _
      exact ⟨place, fun entry inside => .inr (among entry inside)⟩

theorem exists_entry_of_within {inner message : Message} (within : inner.Within message)
    (parent : Option MessageId) (next : MessageId) :
    ∃ entry ∈ entriesOf parent next message, entry.message = inner := by
  induction within generalizing parent next with
  | whole =>
    obtain ⟨name, fields, messages, enums⟩ := inner
    rw [entriesOf]
    exact ⟨_, List.mem_cons_self, rfl⟩
  | @nested message outer declared _ inductionHypothesis =>
    obtain ⟨name, fields, messages, enums⟩ := outer
    obtain ⟨place, among⟩ := exists_entry_of_mem declared (some next) (next + 1)
    obtain ⟨entry, listed, same⟩ := inductionHypothesis (some next) place
    rw [entriesOf]
    exact ⟨entry, .tail _ (among entry listed), same⟩

end Catalog

end PayloadSchema
