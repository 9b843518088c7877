import Mathlib.Data.List.Sort
import PayloadSchema.Proofs.Schema.Address
import PayloadSchema.Proofs.Schema.Clash
import PayloadSchema.Proofs.Schema.Rearrangement
import PayloadSchema.Proofs.Schema.Referent

/-! # Looking up types by their addresses

Once the types of every scope have distinct names, a message that a name leads to is known by its
address: it is the one of that name among those declared right inside the message that asks, or
else the one of that name at the top.  With the order of the addresses this says which entry the
catalog answers with, and not only which message that entry holds. -/

namespace PayloadSchema

/-- Whether a schema declares two enumerations, or two messages, of one name in a scope. -/
inductive Schema.DeclaresTwice (schema : Schema) : Scope → String → Prop where
  | enum {name : String} (twice : 2 ≤ (schema.enums.map EnumType.name).count name) :
      DeclaresTwice schema .schema name
  | message {name : String} (twice : 2 ≤ (schema.messages.map Message.name).count name) :
      DeclaresTwice schema .schema name
  | nestedEnum {address : Address} {message : Message}
      (found : schema.messageAt? address = some message) {name : String}
      (twice : 2 ≤ (message.enums.map EnumType.name).count name) :
      DeclaresTwice schema (.message message.name) name
  | nestedMessage {address : Address} {message : Message}
      (found : schema.messageAt? address = some message) {name : String}
      (twice : 2 ≤ (message.messages.map Message.name).count name) :
      DeclaresTwice schema (.message message.name) name

/-- What a name stands for inside the message at an address, each kind of declaration only where
    there is none of the kinds before it. -/
inductive Schema.Designates (schema : Schema) (addresses : List Address) (around : Address)
    (message : Message) (name : String) {catalog : Catalog} : catalog.Referent → Prop where
  | ownEnum {enum : EnumType} (declared : enum ∈ message.enums) (named : enum.name = name) :
      Designates schema addresses around message name (.enum enum)
  | topEnum {enum : EnumType} (unowned : name ∉ message.enums.map EnumType.name)
      (declared : enum ∈ schema.enums) (named : enum.name = name) :
      Designates schema addresses around message name (.enum enum)
  | ownMessage {target : catalog.Listed} {place : Nat}
      (unowned : name ∉ message.enums.map EnumType.name)
      (unlisted : name ∉ schema.enums.map EnumType.name)
      (inside : addresses[target.1.id]? = some (around ++ [place]))
      (named : target.1.message.name = name) :
      Designates schema addresses around message name (.message target)
  | topMessage {target : catalog.Listed} {place : Nat}
      (unowned : name ∉ message.enums.map EnumType.name)
      (unlisted : name ∉ schema.enums.map EnumType.name)
      (unnested : name ∉ message.messages.map Message.name)
      (top : addresses[target.1.id]? = some [place]) (named : target.1.message.name = name) :
      Designates schema addresses around message name (.message target)
  | nothing (unowned : name ∉ message.enums.map EnumType.name)
      (unlisted : name ∉ schema.enums.map EnumType.name)
      (unnested : name ∉ message.messages.map Message.name)
      (undeclared : name ∉ schema.messages.map Message.name) :
      Designates schema addresses around message name .nothing

namespace Catalog

/-! ## Lookups -/

variable {schema : Schema} {name : String}

theorem enumIn?_eq_some_iff {enums : List EnumType} (distinct : (enums.map EnumType.name).Nodup)
    {enum : EnumType} : enumIn? enums name = some enum ↔ enum ∈ enums ∧ enum.name = name := by
  constructor
  · intro found
    exact ⟨List.mem_of_find?_eq_some found, by simpa using List.find?_some found⟩
  · rintro ⟨declared, rfl⟩
    exact find?_name_eq_some distinct declared

theorem enumIn?_eq_none_iff {enums : List EnumType} :
    enumIn? enums name = none ↔ name ∉ enums.map EnumType.name := by
  simp [enumIn?]

theorem messageIn?_eq_some_iff {catalog : Catalog} {scope : Option MessageId}
    (distinct : ((declaredIn scope catalog.entries).map Message.name).Nodup)
    {target : catalog.Listed} :
    catalog.messageIn? scope name = some target ↔
      target.1.parent = scope ∧ target.1.message.name = name := by
  refine ⟨messageIn?_eq_some, ?_⟩
  rintro ⟨nested, named⟩
  have declared : ∀ entry : catalog.Listed, entry.1.parent = scope →
      entry.1 ∈ catalog.entries.filter fun entry => entry.parent = scope :=
    fun entry inside => List.mem_filter.mpr ⟨entry.2, by simpa using inside⟩
  cases found : catalog.messageIn? scope name with
  | none =>
    have absent := List.find?_eq_none.mp found target (List.mem_attach _ target)
    simp [nested, named] at absent
  | some other =>
    obtain ⟨inside, alike⟩ := messageIn?_eq_some found
    rw [declaredIn, List.map_map] at distinct
    have same := List.inj_on_of_nodup_map distinct (declared other inside)
      (declared target nested) (alike.trans named.symm)
    rw [Subtype.ext same]

variable {scope : Entry} {around : Address}

theorem ownMessage_iff (distinct : scope.message.TypesDistinct)
    (enclosing : (scope, around) ∈ placed schema) {target : (ofSchema schema).Listed} :
    (ofSchema schema).messageIn? (some scope.id) name = some target ↔
      (∃ place, (addresses schema)[target.1.id]? = some (around ++ [place])) ∧
        target.1.message.name = name := by
  have messages := entriesOfAll_declaredIn_nested (by simp) schema.messages scope
    (mem_of_placed enclosing)
  obtain ⟨address, standing⟩ := exists_address_of_mem target.2
  rw [messageIn?_eq_some_iff (messages ▸ distinct.messages), parent_eq_some_iff enclosing standing,
    (address_of_mem target.2).mpr standing]
  simp only [Option.some.injEq]

theorem topMessage_iff (distinct : (schema.messages.map Message.name).Nodup)
    {target : (ofSchema schema).Listed} :
    (ofSchema schema).messageIn? none name = some target ↔
      (∃ place, (addresses schema)[target.1.id]? = some [place]) ∧
        target.1.message.name = name := by
  have messages : declaredIn none (ofSchema schema).entries = schema.messages :=
    entriesOfAll_declaredIn (by simp) schema.messages
  obtain ⟨address, standing⟩ := exists_address_of_mem target.2
  rw [messageIn?_eq_some_iff (messages ▸ distinct), parent_eq_none_iff standing,
    (address_of_mem target.2).mpr standing]
  simp only [Option.some.injEq]

theorem ownMessage_eq_none_iff (listed : scope ∈ (ofSchema schema).entries) :
    (ofSchema schema).messageIn? (some scope.id) name = none ↔
      name ∉ scope.message.messages.map Message.name := by
  rw [← Option.map_eq_none_iff, messageIn?_nested listed]
  simp

theorem topMessage_eq_none_iff :
    (ofSchema schema).messageIn? none name = none ↔
      name ∉ schema.messages.map Message.name := by
  rw [← Option.map_eq_none_iff, messageIn?_top]
  simp

theorem referent_eq_nothing_iff {catalog : Catalog} :
    catalog.referent scope name = .nothing ↔
      catalog.enumSeen? scope name = none ∧ catalog.messageSeen? scope name = none := by
  rw [referent_eq]
  cases catalog.enumSeen? scope name with
  | some enum => simp
  | none => cases catalog.messageSeen? scope name <;> simp

theorem enumSeen?_eq_none_iff {catalog : Catalog} :
    catalog.enumSeen? scope name = none ↔
      name ∉ scope.message.enums.map EnumType.name ∧ name ∉ catalog.enums.map EnumType.name := by
  rw [enumSeen?, Option.or_eq_none_iff, enumIn?_eq_none_iff, enumIn?_eq_none_iff]

theorem enumSeen?_eq_some_iff (checked : schema.checkScopes = .ok ())
    (listed : scope ∈ (ofSchema schema).entries) {enum : EnumType} :
    (ofSchema schema).enumSeen? scope name = some enum ↔
      enum ∈ scope.message.enums ∧ enum.name = name ∨
        name ∉ scope.message.enums.map EnumType.name ∧ enum ∈ schema.enums ∧ enum.name = name := by
  have own := (Schema.typesDistinct_of_checkScopes checked scope listed).enums
  have top := (Schema.checkScopes_eq_ok_iff.mp checked).1
  rw [enumSeen?, Option.or_eq_some_iff, enumIn?_eq_some_iff own, enumIn?_eq_none_iff]
  exact or_congr_right (and_congr_right' (enumIn?_eq_some_iff top))

theorem messageSeen?_eq_some_iff (checked : schema.checkScopes = .ok ())
    (enclosing : (scope, around) ∈ placed schema) {target : (ofSchema schema).Listed} :
    (ofSchema schema).messageSeen? scope name = some target ↔
      ((∃ place, (addresses schema)[target.1.id]? = some (around ++ [place])) ∨
        name ∉ scope.message.messages.map Message.name ∧
        ∃ place, (addresses schema)[target.1.id]? = some [place]) ∧
      target.1.message.name = name := by
  have listed := mem_of_placed enclosing
  have own := Schema.typesDistinct_of_checkScopes checked scope listed
  have top := (Schema.checkScopes_eq_ok_iff.mp checked).2.1
  rw [messageSeen?, Option.or_eq_some_iff, ownMessage_iff own enclosing, topMessage_iff top,
    ownMessage_eq_none_iff listed]
  constructor
  · rintro (⟨inside, named⟩ | ⟨unnested, unscoped, named⟩)
    · exact ⟨.inl inside, named⟩
    · exact ⟨.inr ⟨unnested, unscoped⟩, named⟩
  · rintro ⟨inside | ⟨unnested, unscoped⟩, named⟩
    · exact .inl ⟨inside, named⟩
    · exact .inr ⟨unnested, unscoped, named⟩

/-- What a name leads to is what it designates. -/
theorem referent_iff_designates (checked : schema.checkScopes = .ok ())
    (enclosing : (scope, around) ∈ placed schema) {referent : (ofSchema schema).Referent} :
    (ofSchema schema).referent scope name = referent ↔
      schema.Designates (addresses schema) around scope.message name referent := by
  have listed := mem_of_placed enclosing
  cases referent with
  | enum enum =>
    rw [referent_eq_enum_iff, enumSeen?_eq_some_iff checked listed]
    constructor
    · rintro (⟨declared, named⟩ | ⟨unowned, declared, named⟩)
      · exact .ownEnum declared named
      · exact .topEnum unowned declared named
    · intro designates
      cases designates with
      | ownEnum declared named => exact .inl ⟨declared, named⟩
      | topEnum unowned declared named => exact .inr ⟨unowned, declared, named⟩
  | message target =>
    rw [referent_eq_message_iff, enumSeen?_eq_none_iff, messageSeen?_eq_some_iff checked enclosing]
    constructor
    · rintro ⟨⟨unowned, unlisted⟩, ⟨place, inside⟩ | ⟨unnested, place, top⟩, named⟩
      · exact .ownMessage unowned unlisted inside named
      · exact .topMessage unowned unlisted unnested top named
    · intro designates
      cases designates with
      | ownMessage unowned unlisted inside named =>
        exact ⟨⟨unowned, unlisted⟩, .inl ⟨_, inside⟩, named⟩
      | topMessage unowned unlisted unnested top named =>
        exact ⟨⟨unowned, unlisted⟩, .inr ⟨unnested, _, top⟩, named⟩
  | nothing =>
    rw [referent_eq_nothing_iff, enumSeen?_eq_none_iff, messageSeen?, Option.or_eq_none_iff,
      ownMessage_eq_none_iff listed, topMessage_eq_none_iff]
    constructor
    · rintro ⟨⟨unowned, unlisted⟩, unnested, undeclared⟩
      exact .nothing unowned unlisted unnested undeclared
    · intro designates
      cases designates with
      | nothing unowned unlisted unnested undeclared =>
        exact ⟨⟨unowned, unlisted⟩, unnested, undeclared⟩

/-! ## The order of the catalog -/

theorem mem_addresses_iff {address : Address} :
    address ∈ addresses schema ↔ ∃ message, schema.messageAt? address = some message := by
  rw [addresses, List.mem_map]
  constructor
  · rintro ⟨⟨entry, _⟩, listed, rfl⟩
    exact ⟨entry.message, messageAt?_of_mem listed⟩
  · rintro ⟨message, found⟩
    obtain ⟨entry, listed⟩ := exists_mem_of_messageAt? found
    exact ⟨_, listed, rfl⟩

theorem entries_addresses (schema : Schema) :
    (ofSchema schema).entries.map (fun entry => (entry.id, some entry.message)) =
      (addresses schema).mapIdx fun id address => (id, schema.messageAt? address) := by
  refine List.ext_getElem? fun id => ?_
  rw [← placed_entries, List.getElem?_mapIdx, getElem?_addresses]
  simp only [List.getElem?_map, Option.map_map]
  cases found : (placed schema)[id]? with
  | none => rfl
  | some pair =>
    have identity := id_of_getElem?_placed found
    have message := messageAt?_of_mem (List.mem_of_getElem? found)
    simp [identity, message]

theorem get?_eq_some_iff {id : MessageId} {listed : (ofSchema schema).Listed} :
    (ofSchema schema).get? id = some listed ↔ listed.1.id = id := by
  have identity : ∀ other, (ofSchema schema).get? id = some other → other.1.id = id :=
    fun other found => by simpa using List.find?_some found
  refine ⟨identity listed, fun same => ?_⟩
  cases found : (ofSchema schema).get? id with
  | none =>
    have absent := List.find?_eq_none.mp found listed (List.mem_attach _ listed)
    simp [same] at absent
  | some other =>
    rw [(ofSchema_identified schema).eq_of_id ((identity other found).trans same.symm)]

theorem map_get? (schema : Schema) (id : MessageId) :
    ((ofSchema schema).get? id).map Subtype.val = (ofSchema schema).entries[id]? := by
  refine Option.ext fun entry => ?_
  simp only [ofSchema_getElem?_iff, Option.map_eq_some_iff, get?_eq_some_iff]
  constructor
  · rintro ⟨listed, same, rfl⟩
    exact ⟨listed.2, same⟩
  · rintro ⟨listed, same⟩
    exact ⟨⟨entry, listed⟩, same, rfl⟩

/-- The entries at the top of a schema, each with its address. -/
def placedAtTop (schema : Schema) : List (Entry × Address) :=
  (placed schema).filter fun pair => pair.1.parent = none

theorem mem_placedAtTop_iff {entry : Entry} {address : Address} :
    (entry, address) ∈ placedAtTop schema ↔
      (entry, address) ∈ placed schema ∧ ∃ place, address = [place] := by
  rw [placedAtTop, List.mem_filter, decide_eq_true_eq]
  exact and_congr_right fun listed => parent_eq_none_iff listed

theorem placedAtTop_addresses (schema : Schema) :
    (placedAtTop schema).map Prod.snd =
      (List.range schema.messages.length).map fun place => [place] := by
  have above : ((placedAtTop schema).map Prod.snd).Pairwise (· < ·) :=
    (placed_ordered schema).sublist (List.filter_sublist.map Prod.snd)
  have below :
      ((List.range schema.messages.length).map fun place => [place]).Pairwise (· < ·) := by
    rw [List.pairwise_map]
    exact List.pairwise_lt_range.imp fun before => List.cons_lt_cons_iff.mpr (.inl before)
  -- Both lists are strictly ordered, so that they only need the same members.
  refine above.eq_of_mem_iff below fun address => ?_
  rw [List.mem_map, List.mem_map]
  constructor
  · rintro ⟨⟨entry, _⟩, top, rfl⟩
    obtain ⟨listed, place, rfl⟩ := mem_placedAtTop_iff.mp top
    obtain ⟨message, declared, _⟩ := Option.bind_eq_some_iff.mp (messageAt?_of_mem listed)
    exact ⟨place, List.mem_range.mpr (List.getElem?_eq_some_iff.mp declared).1, rfl⟩
  · rintro ⟨place, bound, rfl⟩
    obtain ⟨message, declared⟩ : ∃ message, schema.messages[place]? = some message :=
      ⟨_, List.getElem?_eq_getElem (List.mem_range.mp bound)⟩
    have found : schema.messageAt? [place] = some message := by
      rw [Schema.messageAt?, declared, Option.bind_some, Message.inside?]
    obtain ⟨entry, listed⟩ := exists_mem_of_messageAt? found
    exact ⟨_, mem_placedAtTop_iff.mpr ⟨listed, place, rfl⟩, rfl⟩

theorem topLevel_addresses (schema : Schema) :
    ((ofSchema schema).topLevel.map fun root => (addresses schema)[root.1.id]?) =
      (List.range schema.messages.length).map fun place => some [place] := by
  calc ((ofSchema schema).topLevel.map fun root => (addresses schema)[root.1.id]?)
      = ((ofSchema schema).topLevel.map Subtype.val).map
          fun entry => (addresses schema)[entry.id]? := by rw [List.map_map]; rfl
    _ = (placedAtTop schema).map fun pair => (addresses schema)[pair.1.id]? := by
        rw [topLevel_entries, ← placed_entries, List.filter_map, List.map_map]; rfl
    _ = (placedAtTop schema).map fun pair => some pair.2 := by
        refine List.map_congr_left fun pair top => ?_
        have listed := (mem_placedAtTop_iff.mp top).1
        exact (address_of_mem (mem_of_placed listed)).mpr listed
    _ = ((placedAtTop schema).map Prod.snd).map some := by rw [List.map_map]; rfl
    _ = (List.range schema.messages.length).map fun place => some [place] := by
        rw [placedAtTop_addresses, List.map_map]; rfl

/-- Whether the catalog of a schema lists its messages by some addresses, which are in depth-first
    order, and leads each name to what it designates there. -/
structure Exact (schema : Schema) (addresses : List Address) : Prop where
  ordered : addresses.Pairwise (· < ·)
  complete : ∀ address, address ∈ addresses ↔ ∃ message, schema.messageAt? address = some message
  entries : (ofSchema schema).entries.map (fun entry => (entry.id, some entry.message)) =
    addresses.mapIdx fun id address => (id, schema.messageAt? address)
  found : ∀ id, ((ofSchema schema).get? id).map Subtype.val = (ofSchema schema).entries[id]?
  topLevel : ((ofSchema schema).topLevel.map fun root => addresses[root.1.id]?) =
    (List.range schema.messages.length).map fun place => some [place]
  referent : ∀ id scope around, (ofSchema schema).get? id = some scope →
    addresses[id]? = some around → ∀ name referent,
      (ofSchema schema).referent scope.1 name = referent ↔
        schema.Designates addresses around scope.1.message name referent
  target : ∀ scope name target, (ofSchema schema).referent scope name = .message target →
    target.1.id < addresses.length ∧ (ofSchema schema).get? target.1.id = some target ∧
      target.1.message.name = name

theorem exact_of_checkScopes (checked : schema.checkScopes = .ok ()) :
    Exact schema (addresses schema) where
  ordered := placed_ordered schema
  complete _ := mem_addresses_iff
  entries := entries_addresses schema
  found := map_get? schema
  topLevel := topLevel_addresses schema
  referent id scope around found standing name referent := by
    obtain rfl := get?_eq_some_iff.mp found
    exact referent_iff_designates checked ((address_of_mem scope.2).mp standing)
  target scope name target found := by
    obtain ⟨address, listed⟩ := exists_address_of_mem target.2
    obtain ⟨bound, _⟩ := List.getElem?_eq_some_iff.mp ((address_of_mem target.2).mpr listed)
    exact ⟨bound, get?_eq_some_iff.mpr rfl, (referent_eq_message found).2⟩

end Catalog

namespace Schema

/-- The types that are reported are two of one name, in the scope that is reported. -/
theorem exists_twice_of_checkScopes {schema : Schema} {error : SchemaError}
    (failed : schema.checkScopes = .error error) :
    ∃ scope name, error = .repeatedType scope name ∧ schema.DeclaresTwice scope name := by
  rw [checkScopes, bind_eq_error_iff] at failed
  rcases failed with repeated | ⟨_, _, failed⟩
  · obtain ⟨name, twice, rfl⟩ := checkEnumScope_eq_error repeated
    exact ⟨_, name, rfl, .enum twice⟩
  rcases Message.checkScopes_eq_error failed with ⟨message, declared, refused⟩ | ⟨name, twice, rfl⟩
  · obtain ⟨inner, within, name, twice, rfl⟩ := Message.repeatedType_of_checkScope refused
    obtain ⟨address, found⟩ := exists_messageAt?_iff.mpr ⟨message, declared, within⟩
    exact ⟨_, name, rfl, twice.elim (.nestedEnum found) (.nestedMessage found)⟩
  · exact ⟨_, name, rfl, .message twice⟩

/-- The check of types is exact, and reports two types of one scope; and of a schema that passes
    it, the catalog lists every message in depth-first order, and a name leads to what it
    designates. -/
theorem checkScopes_exact (schema : Schema) :
    (schema.checkScopes = .ok () ↔ (schema.enums.map EnumType.name).Nodup ∧
      (schema.messages.map Message.name).Nodup ∧
      ∀ address message, schema.messageAt? address = some message → message.TypesDistinct) ∧
    (∀ error, schema.checkScopes = .error error →
      ∃ scope name, error = .repeatedType scope name ∧ schema.DeclaresTwice scope name) ∧
    (schema.checkScopes = .ok () → ∃ addresses, Catalog.Exact schema addresses) := by
  refine ⟨?_, fun error failed => exists_twice_of_checkScopes failed,
    fun checked => ⟨_, Catalog.exact_of_checkScopes checked⟩⟩
  have everywhere : (∀ address message, schema.messageAt? address = some message →
      message.TypesDistinct) ↔ ∀ message ∈ schema.messages,
        ∀ inner : Message, inner.Within message → inner.TypesDistinct := by
    constructor
    · intro distinct message declared inner within
      obtain ⟨address, found⟩ := exists_messageAt?_iff.mpr ⟨message, declared, within⟩
      exact distinct address inner found
    · intro distinct address inner found
      obtain ⟨message, declared, within⟩ := exists_messageAt?_iff.mp ⟨address, found⟩
      exact distinct message declared inner within
  rw [checkScopes_eq_ok_iff, everywhere]

def wardrobe : Schema where
  enums := [{ name := "Color" }, { name := "Size" }]
  messages :=
    [{ name := "Shirt", enums := [{ name := "Size" }],
       messages := [{ name := "Color" }, { name := "Label" }] },
     { name := "Label" }]

theorem wardrobe_exact : wardrobe.checkScopes = .ok () ∧
    (∃ addresses, Catalog.Exact wardrobe addresses) ∧
    (Catalog.ofSchema wardrobe).entries.map (·.message.name) =
      ["Shirt", "Color", "Label", "Label"] ∧
    (Catalog.ofSchema wardrobe).topLevel.map (·.1.id) = [0, 3] := by
  have checked : wardrobe.checkScopes = .ok () := by rfl
  exact ⟨checked, (checkScopes_exact wardrobe).2.2 checked, by decide, by decide⟩

end Schema

end PayloadSchema
