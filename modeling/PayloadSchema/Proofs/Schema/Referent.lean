import PayloadSchema.Rule.Scalar
import PayloadSchema.Schema.Catalog

/-! # What type names lead to

A type name leads to an enumeration if one of its name is in sight, and else to a message.  A
message that it leads to has its name and stands inside the message that asks, or at the top:
nothing else is in sight. -/

namespace PayloadSchema

/-- Whether the type of a field inside a message is another message. -/
def Field.LeadsTo (catalog : Catalog) (scope : Entry) (field : Field) (next : catalog.Listed) :
    Prop :=
  Scalar.ofName? field.typeName = none ∧ catalog.referent scope field.typeName = .message next

namespace Catalog

variable {catalog : Catalog} {scope : Entry} {name : String} {target : catalog.Listed}

theorem mem_topLevel_iff : target ∈ catalog.topLevel ↔ target.1.parent = none := by
  simp [topLevel, listed]

def enumSeen? (catalog : Catalog) (scope : Entry) (name : String) : Option EnumType :=
  (enumIn? scope.message.enums name).or (enumIn? catalog.enums name)

/-- The message of a name that a message sees, unless an enumeration stands before it. -/
def messageSeen? (catalog : Catalog) (scope : Entry) (name : String) : Option catalog.Listed :=
  (catalog.messageIn? (some scope.id) name).or (catalog.messageIn? none name)

theorem referent_eq : catalog.referent scope name =
    match catalog.enumSeen? scope name with
    | some enum => .enum enum
    | none =>
      match catalog.messageSeen? scope name with
      | some target => .message target
      | none => .nothing := by
  rw [referent, enumSeen?, messageSeen?]
  cases enumIn? scope.message.enums name <;> cases enumIn? catalog.enums name <;>
    cases catalog.messageIn? (some scope.id) name <;> cases catalog.messageIn? none name <;> rfl

theorem referent_eq_enum_iff {enum : EnumType} :
    catalog.referent scope name = .enum enum ↔ catalog.enumSeen? scope name = some enum := by
  rw [referent_eq]
  cases catalog.enumSeen? scope name with
  | some other => simp
  | none => cases catalog.messageSeen? scope name <;> simp

theorem referent_eq_message_iff :
    catalog.referent scope name = .message target ↔
      catalog.enumSeen? scope name = none ∧ catalog.messageSeen? scope name = some target := by
  rw [referent_eq]
  cases catalog.enumSeen? scope name with
  | some other => simp
  | none => cases catalog.messageSeen? scope name <;> simp

theorem messageIn?_eq_some {parent : Option MessageId}
    (found : catalog.messageIn? parent name = some target) :
    target.1.parent = parent ∧ target.1.message.name = name := by
  have chosen := List.find?_some found
  simpa using chosen

theorem referent_eq_message (found : catalog.referent scope name = .message target) :
    (target.1.parent = some scope.id ∨ target.1.parent = none) ∧
      target.1.message.name = name := by
  rcases Option.or_eq_some_iff.mp (referent_eq_message_iff.mp found).2 with own | ⟨_, top⟩
  · obtain ⟨nested, named⟩ := messageIn?_eq_some own
    exact ⟨.inl nested, named⟩
  · obtain ⟨unnested, named⟩ := messageIn?_eq_some top
    exact ⟨.inr unnested, named⟩

end Catalog

end PayloadSchema
