import Mathlib.Data.List.Nodup
import PayloadSchema.Schema.Catalog

/-! # The order of the catalog

The identities of the catalog are its places, so that an identity stands for one
message.  The entries without a parent are the messages of the schema, in declared
order, and those whose parent is some message are the ones declared right inside it.
Every entry holds a message that the schema declares, at some depth. -/

namespace PayloadSchema.Catalog

mutual

theorem entriesOf_ids (parent : Option MessageId) (next : MessageId) : ∀ message : Message,
    (entriesOf parent next message).map Entry.id =
      List.range' next (entriesOf parent next message).length
  | ⟨_, _, messages, _⟩ => by
    rw [entriesOf]
    -- The message itself takes the first place, those inside it the following ones.
    simp only [List.map_cons, List.length_cons, List.range'_succ]
    rw [entriesOfAll_ids (some next) (next + 1) messages]

theorem entriesOfAll_ids (parent : Option MessageId) (next : MessageId) :
    ∀ messages : List Message,
    (entriesOfAll parent next messages).map Entry.id =
      List.range' next (entriesOfAll parent next messages).length
  | [] => by simp [entriesOfAll]
  | message :: rest => by
    simp only [entriesOfAll, List.map_append, List.length_append]
    rw [entriesOf_ids parent next message, entriesOfAll_ids parent _ rest]
    rw [← List.range'_append_1]

end

theorem id_of_mem_entriesOf {parent : Option MessageId} {next : MessageId} {message : Message}
    {entry : Entry} (listed : entry ∈ entriesOf parent next message) :
    next ≤ entry.id ∧ entry.id < next + (entriesOf parent next message).length := by
  have place := List.mem_map_of_mem (f := Entry.id) listed
  rwa [entriesOf_ids, List.mem_range'_1] at place

theorem id_of_mem_entriesOfAll {parent : Option MessageId} {next : MessageId}
    {messages : List Message} {entry : Entry} (listed : entry ∈ entriesOfAll parent next messages) :
    next ≤ entry.id ∧ entry.id < next + (entriesOfAll parent next messages).length := by
  have place := List.mem_map_of_mem (f := Entry.id) listed
  rwa [entriesOfAll_ids, List.mem_range'_1] at place

theorem ofSchema_ids (schema : Schema) :
    (ofSchema schema).entries.map Entry.id = List.range (ofSchema schema).entries.length := by
  rw [List.range_eq_range']
  exact entriesOfAll_ids none 0 schema.messages

/-- An entry stands in the catalog at the place that identifies it. -/
theorem ofSchema_getElem?_iff {schema : Schema} {id : MessageId} {entry : Entry} :
    (ofSchema schema).entries[id]? = some entry ↔
      entry ∈ (ofSchema schema).entries ∧ entry.id = id := by
  have identity : ∀ (place : Nat) (other : Entry),
      (ofSchema schema).entries[place]? = some other → other.id = place := by
    intro place other found
    have same := congrArg (fun ids : List MessageId => ids[place]?) (ofSchema_ids schema)
    rw [List.getElem?_map, found, Option.map_some] at same
    have bound := List.getElem?_eq_some_iff.mp same.symm
    simpa using bound.2.symm
  constructor
  · exact fun found => ⟨List.mem_of_getElem? found, identity id entry found⟩
  · rintro ⟨listed, rfl⟩
    obtain ⟨place, found⟩ := List.mem_iff_getElem?.mp listed
    rwa [identity place entry found]

def Identified (catalog : Catalog) : Prop := (catalog.entries.map Entry.id).Nodup

theorem ofSchema_identified (schema : Schema) : (ofSchema schema).Identified := by
  rw [Identified, ofSchema_ids]
  exact List.nodup_range

theorem Identified.eq_of_id {catalog : Catalog} (identified : catalog.Identified)
    {first second : catalog.Listed} (same : first.1.id = second.1.id) : first = second := by
  -- The identity determines the entry, and the entry the listed message.
  have equal := List.inj_on_of_nodup_map identified first.2 second.2 same
  exact Subtype.ext equal

mutual

theorem entriesOf_hold {Holds : Message → Prop}
    (inherited : ∀ message, Holds message → ∀ nested ∈ message.messages, Holds nested)
    (parent : Option MessageId) (next : MessageId) : ∀ message : Message, Holds message →
    ∀ entry ∈ entriesOf parent next message, Holds entry.message
  | ⟨name, fields, messages, enums⟩, holds, entry, listed => by
    rw [entriesOf, List.mem_cons] at listed
    cases listed with
    | inl first => subst first; exact holds
    | inr inside =>
      exact entriesOfAll_hold inherited (some next) (next + 1) messages
        (inherited ⟨name, fields, messages, enums⟩ holds) entry inside

theorem entriesOfAll_hold {Holds : Message → Prop}
    (inherited : ∀ message, Holds message → ∀ nested ∈ message.messages, Holds nested)
    (parent : Option MessageId) (next : MessageId) : ∀ messages : List Message,
    (∀ message ∈ messages, Holds message) →
    ∀ entry ∈ entriesOfAll parent next messages, Holds entry.message
  | [], _, entry, listed => by simp [entriesOfAll] at listed
  | message :: rest, hold, entry, listed => by
    rw [entriesOfAll, List.mem_append] at listed
    cases listed with
    | inl first =>
      exact entriesOf_hold inherited parent next message (hold message (by simp)) entry first
    | inr later =>
      exact entriesOfAll_hold inherited parent _ rest
        (fun other member => hold other (by simp [member])) entry later

end

mutual

/-- A message and what stands inside it: everything but the message itself has its parent
    among them. -/
theorem parent_of_mem_entriesOf (parent : Option MessageId) (next : MessageId) :
    ∀ message : Message, ∀ entry ∈ entriesOf parent next message,
      entry = ⟨next, parent, message⟩ ∨
      ∃ outer ∈ entriesOf parent next message, entry.parent = some outer.id
  | ⟨name, fields, messages, enums⟩, entry, listed => by
    rw [entriesOf, List.mem_cons] at listed
    cases listed with
    | inl own => exact .inl own
    | inr inside =>
      refine .inr ?_
      rw [entriesOf]
      rcases parent_of_mem_entriesOfAll (some next) (next + 1) messages entry inside with
        direct | ⟨outer, among, nested⟩
      · exact ⟨_, List.mem_cons_self, direct⟩
      · exact ⟨outer, .tail _ among, nested⟩

theorem parent_of_mem_entriesOfAll (parent : Option MessageId) (next : MessageId) :
    ∀ messages : List Message, ∀ entry ∈ entriesOfAll parent next messages,
      entry.parent = parent ∨
      ∃ outer ∈ entriesOfAll parent next messages, entry.parent = some outer.id
  | [], entry, listed => by cases listed
  | message :: rest, entry, listed => by
    rw [entriesOfAll, List.mem_append] at listed
    simp only [entriesOfAll, List.mem_append]
    cases listed with
    | inl first =>
      rcases parent_of_mem_entriesOf parent next message entry first with
        rfl | ⟨outer, among, nested⟩
      · exact .inl rfl
      · exact .inr ⟨outer, .inl among, nested⟩
    | inr later =>
      rcases parent_of_mem_entriesOfAll parent _ rest entry later with
        direct | ⟨outer, among, nested⟩
      · exact .inl direct
      · exact .inr ⟨outer, .inr among, nested⟩

end

theorem parent_bound_of_mem_entriesOf {parent : Option MessageId} {next : MessageId}
    {message : Message} {entry : Entry} (listed : entry ∈ entriesOf parent next message)
    {id : MessageId} (nested : entry.parent = some id) :
    parent = some id ∨ next ≤ id ∧ id < next + (entriesOf parent next message).length := by
  rcases parent_of_mem_entriesOf parent next message entry listed with
    rfl | ⟨outer, among, inside⟩
  · exact .inl nested
  · cases nested.symm.trans inside
    exact .inr (id_of_mem_entriesOf among)

theorem parent_bound_of_mem_entriesOfAll {parent : Option MessageId} {next : MessageId}
    {messages : List Message} {entry : Entry} (listed : entry ∈ entriesOfAll parent next messages)
    {id : MessageId} (nested : entry.parent = some id) :
    parent = some id ∨ next ≤ id ∧ id < next + (entriesOfAll parent next messages).length := by
  rcases parent_of_mem_entriesOfAll parent next messages entry listed with
    direct | ⟨outer, among, inside⟩
  · exact .inl (direct.symm.trans nested)
  · cases nested.symm.trans inside
    exact .inr (id_of_mem_entriesOfAll among)

theorem exists_parent_of_mem {next : MessageId} {messages : List Message} {entry : Entry}
    (listed : entry ∈ entriesOfAll (some next) (next + 1) messages) :
    ∃ id, entry.parent = some id ∧ next ≤ id := by
  rcases parent_of_mem_entriesOfAll _ _ _ entry listed with direct | ⟨outer, among, inside⟩
  · exact ⟨next, direct, Nat.le_refl next⟩
  · exact ⟨outer.id, inside, Nat.le_of_succ_le (id_of_mem_entriesOfAll among).1⟩

/-! ## Scopes -/

/-- The messages that entries hold for a scope, in their order. -/
def declaredIn (scope : Option MessageId) (entries : List Entry) : List Message :=
  (entries.filter fun entry => entry.parent = scope).map Entry.message

theorem declaredIn_append (scope : Option MessageId) (first second : List Entry) :
    declaredIn scope (first ++ second) = declaredIn scope first ++ declaredIn scope second := by
  simp [declaredIn]

theorem declaredIn_cons_self (first : Entry) (rest : List Entry) :
    declaredIn first.parent (first :: rest) = first.message :: declaredIn first.parent rest := by
  simp [declaredIn]

theorem declaredIn_cons_ne {scope : Option MessageId} {first : Entry}
    (apart : first.parent ≠ scope) (rest : List Entry) :
    declaredIn scope (first :: rest) = declaredIn scope rest := by
  simp [declaredIn, apart]

theorem declaredIn_eq_nil {scope : Option MessageId} {entries : List Entry}
    (apart : ∀ entry ∈ entries, entry.parent ≠ scope) : declaredIn scope entries = [] := by
  simpa [declaredIn] using apart

theorem entriesOfAll_declaredIn {parent : Option MessageId} {next : MessageId}
    (earlier : ∀ id, parent = some id → id < next) (messages : List Message) :
    declaredIn parent (entriesOfAll parent next messages) = messages := by
  induction messages generalizing next with
  | nil => rfl
  | cons message rest inductionHypothesis =>
    obtain ⟨name, fields, messages, enums⟩ := message
    have inner : declaredIn parent (entriesOfAll (some next) (next + 1) messages) = [] := by
      apply declaredIn_eq_nil
      intro entry listed same
      obtain ⟨id, nested, later⟩ := exists_parent_of_mem listed
      exact Nat.not_lt.mpr later (earlier id (same.symm.trans nested))
    have first : declaredIn parent (entriesOf parent next ⟨name, fields, messages, enums⟩) =
        [⟨name, fields, messages, enums⟩] := by
      rw [entriesOf]
      exact (declaredIn_cons_self _ _).trans (congrArg _ inner)
    rw [entriesOfAll, declaredIn_append, first,
      inductionHypothesis fun id top => Nat.lt_add_right _ (earlier id top)]
    rfl

mutual

theorem entriesOf_declaredIn {parent : Option MessageId} {next : MessageId}
    (earlier : ∀ id, parent = some id → id < next) : ∀ message : Message,
    ∀ scope ∈ entriesOf parent next message,
      declaredIn (some scope.id) (entriesOf parent next message) = scope.message.messages
  | ⟨name, fields, messages, enums⟩, scope, listed => by
    have apart : parent ≠ some scope.id := by
      intro same
      exact Nat.not_lt.mpr (id_of_mem_entriesOf listed).1 (earlier _ same)
    rw [entriesOf, List.mem_cons] at listed
    rw [entriesOf, declaredIn_cons_ne apart]
    cases listed with
    | inl own =>
      subst own
      exact entriesOfAll_declaredIn (by simp) messages
    | inr inside => exact entriesOfAll_declaredIn_nested (by simp) messages scope inside

/-- For a message among them, the entries hold the messages declared right inside it. -/
theorem entriesOfAll_declaredIn_nested {parent : Option MessageId} {next : MessageId}
    (earlier : ∀ id, parent = some id → id < next) : ∀ messages : List Message,
    ∀ scope ∈ entriesOfAll parent next messages,
      declaredIn (some scope.id) (entriesOfAll parent next messages) = scope.message.messages
  | [], scope, listed => by cases listed
  | message :: rest, scope, listed => by
    rw [entriesOfAll, List.mem_append] at listed
    rw [entriesOfAll, declaredIn_append]
    -- Only the entries of the part where the scope stands can have it as their parent.
    cases listed with
    | inl first =>
      obtain ⟨low, high⟩ := id_of_mem_entriesOf first
      have others : declaredIn (some scope.id) (entriesOfAll parent
          (next + (entriesOf parent next message).length) rest) = [] := by
        apply declaredIn_eq_nil
        intro entry among nested
        rcases parent_bound_of_mem_entriesOfAll among nested with around | inside
        · exact Nat.not_lt.mpr low (earlier _ around)
        · exact Nat.not_lt.mpr inside.1 high
      rw [others, entriesOf_declaredIn earlier message scope first, List.append_nil]
    | inr later =>
      have low := (id_of_mem_entriesOfAll later).1
      have others : declaredIn (some scope.id) (entriesOf parent next message) = [] := by
        apply declaredIn_eq_nil
        intro entry among nested
        rcases parent_bound_of_mem_entriesOf among nested with around | inside
        · exact Nat.not_lt.mpr (Nat.le_of_add_right_le low) (earlier _ around)
        · exact Nat.not_lt.mpr low inside.2
      rw [others, List.nil_append]
      exact entriesOfAll_declaredIn_nested
        (fun id top => Nat.lt_add_right _ (earlier id top)) rest scope later

end

theorem topLevel_entries (catalog : Catalog) :
    catalog.topLevel.map Subtype.val =
      catalog.entries.filter fun entry => entry.parent = none := by
  calc catalog.topLevel.map Subtype.val
      = (catalog.listed.map Subtype.val).filter fun entry => entry.parent = none := by
        rw [List.filter_map]; rfl
    _ = catalog.entries.filter fun entry => entry.parent = none :=
        congrArg (List.filter _) (List.attach_map_subtype_val catalog.entries)

theorem topLevel_messages (schema : Schema) :
    (ofSchema schema).topLevel.map (fun root => root.1.message) = schema.messages := by
  calc (ofSchema schema).topLevel.map (fun root => root.1.message)
      = ((ofSchema schema).topLevel.map Subtype.val).map Entry.message := by
        rw [List.map_map]; rfl
    _ = declaredIn none (ofSchema schema).entries := by rw [topLevel_entries]; rfl
    _ = schema.messages := entriesOfAll_declaredIn (by simp) schema.messages

theorem map_messageIn? (catalog : Catalog) (scope : Option MessageId) (name : String) :
    (catalog.messageIn? scope name).map Subtype.val =
      catalog.entries.find? fun entry => entry.parent = scope && entry.message.name = name := by
  calc (catalog.messageIn? scope name).map Subtype.val
      = (catalog.listed.map Subtype.val).find? fun entry =>
          entry.parent = scope && entry.message.name = name := by
        rw [List.find?_map]; rfl
    _ = catalog.entries.find? fun entry =>
          entry.parent = scope && entry.message.name = name :=
        congrArg (List.find? _) (List.attach_map_subtype_val catalog.entries)

theorem messageIn?_message (catalog : Catalog) (scope : Option MessageId) (name : String) :
    (catalog.messageIn? scope name).map (fun target => target.1.message) =
      (declaredIn scope catalog.entries).find? fun message => message.name = name := by
  calc (catalog.messageIn? scope name).map (fun target => target.1.message)
      = ((catalog.messageIn? scope name).map Subtype.val).map Entry.message := by
        rw [Option.map_map]; rfl
    _ = (catalog.entries.find? fun entry =>
          entry.parent = scope && entry.message.name = name).map Entry.message := by
        rw [map_messageIn?]
    _ = (declaredIn scope catalog.entries).find? fun message => message.name = name := by
        rw [declaredIn, List.find?_map, List.find?_filter]
        simp

theorem messageIn?_nested {schema : Schema} {scope : Entry}
    (listed : scope ∈ (ofSchema schema).entries) (name : String) :
    ((ofSchema schema).messageIn? (some scope.id) name).map (fun target => target.1.message) =
      scope.message.messages.find? fun message => message.name = name := by
  rw [messageIn?_message]
  exact congrArg _ (entriesOfAll_declaredIn_nested (by simp) schema.messages scope listed)

theorem messageIn?_top (schema : Schema) (name : String) :
    ((ofSchema schema).messageIn? none name).map (fun target => target.1.message) =
      schema.messages.find? fun message => message.name = name := by
  rw [messageIn?_message]
  exact congrArg _ (entriesOfAll_declaredIn (by simp) schema.messages)

end PayloadSchema.Catalog
