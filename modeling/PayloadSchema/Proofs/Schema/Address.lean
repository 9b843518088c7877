import PayloadSchema.Proofs.Schema.Nesting

/-! # Where messages are declared

A message of a schema has an address: its place among the messages of the scope that it is
declared in, after the address of that scope.  The catalog lists each message at its address, and
in the order of the addresses, where a message comes before those inside it and these before the
next one of the scope. -/

namespace PayloadSchema

/-- The places that lead to a message, from the outermost scope inwards. -/
abbrev Address := List Nat

def Message.inside? (message : Message) : Address → Option Message
  | [] => some message
  | place :: rest => message.messages[place]?.bind fun nested => nested.inside? rest

/-- The message of a schema at an address. -/
def Schema.messageAt? (schema : Schema) : Address → Option Message
  | [] => none
  | place :: rest => schema.messages[place]?.bind fun message => message.inside? rest

theorem Message.Within.exists_inside? {inner message : Message} (within : inner.Within message) :
    ∃ address, message.inside? address = some inner := by
  induction within with
  | whole => exact ⟨[], rfl⟩
  | nested declared _ inductionHypothesis =>
    obtain ⟨address, found⟩ := inductionHypothesis
    obtain ⟨place, listed⟩ := List.mem_iff_getElem?.mp declared
    exact ⟨place :: address, by rw [inside?, listed, Option.bind_some, found]⟩

theorem Message.within_of_inside? {inner message : Message} {address : Address}
    (found : message.inside? address = some inner) : inner.Within message := by
  induction address generalizing message with
  | nil =>
    cases found
    exact .whole
  | cons place rest inductionHypothesis =>
    obtain ⟨nested, listed, deeper⟩ := Option.bind_eq_some_iff.mp found
    exact .nested (List.mem_of_getElem? listed) (inductionHypothesis deeper)

theorem Schema.exists_messageAt?_iff {schema : Schema} {inner : Message} :
    (∃ address, schema.messageAt? address = some inner) ↔
      ∃ message ∈ schema.messages, inner.Within message := by
  constructor
  · rintro ⟨address, found⟩
    cases address with
    | nil => cases found
    | cons place rest =>
      obtain ⟨message, listed, deeper⟩ := Option.bind_eq_some_iff.mp found
      exact ⟨message, List.mem_of_getElem? listed, Message.within_of_inside? deeper⟩
  · rintro ⟨message, declared, within⟩
    obtain ⟨place, listed⟩ := List.mem_iff_getElem?.mp declared
    obtain ⟨address, found⟩ := within.exists_inside?
    exact ⟨place :: address, by rw [messageAt?, listed, Option.bind_some, found]⟩

namespace Catalog

mutual

/-- The entries of a message that gets the place `next`, each with its address inside it. -/
def placedIn (parent : Option MessageId) (next : MessageId) : Message → List (Entry × Address)
  | ⟨name, fields, messages, enums⟩ =>
    (⟨next, parent, ⟨name, fields, messages, enums⟩⟩, []) ::
      placedFrom (some next) (next + 1) 0 messages

/-- The entries of messages that stand in their scope from `place` on, with their addresses. -/
def placedFrom (parent : Option MessageId) (next : MessageId) (place : Nat) :
    List Message → List (Entry × Address)
  | [] => []
  | message :: rest =>
    let first := placedIn parent next message
    first.map (Prod.map id (place :: ·)) ++
      placedFrom parent (next + first.length) (place + 1) rest

end

def placed (schema : Schema) : List (Entry × Address) := placedFrom none 0 0 schema.messages

mutual

theorem placedIn_entries (parent : Option MessageId) (next : MessageId) : ∀ message : Message,
    (placedIn parent next message).map Prod.fst = entriesOf parent next message
  | ⟨name, fields, messages, enums⟩ => by
    rw [placedIn, entriesOf, List.map_cons, placedFrom_entries]

theorem placedFrom_entries (parent : Option MessageId) (next : MessageId) (place : Nat) :
    ∀ messages : List Message,
    (placedFrom parent next place messages).map Prod.fst = entriesOfAll parent next messages
  | [] => rfl
  | message :: rest => by
    have first := placedIn_entries parent next message
    have count := congrArg List.length first
    rw [List.length_map] at count
    rw [placedFrom, entriesOfAll, List.map_append, placedFrom_entries, count, ← first,
      List.map_map]
    rfl

end

theorem exists_part_of_mem {parent : Option MessageId} {next : MessageId} {place : Nat}
    {messages : List Message} {entry : Entry} {address : Address}
    (listed : (entry, address) ∈ placedFrom parent next place messages) :
    ∃ step message first inner, messages[step]? = some message ∧
      address = (place + step) :: inner ∧ (entry, inner) ∈ placedIn parent first message ∧
      ∀ other, other ∈ placedIn parent first message →
        (other.1, (place + step) :: other.2) ∈ placedFrom parent next place messages := by
  induction messages generalizing next place with
  | nil => cases listed
  | cons message rest inductionHypothesis =>
    rw [placedFrom, List.mem_append] at listed
    simp only [placedFrom, List.mem_append]
    cases listed with
    | inl among =>
      obtain ⟨⟨_, inner⟩, inside, same⟩ := List.mem_map.mp among
      cases same
      exact ⟨0, message, next, inner, rfl, rfl, inside,
        fun other also => .inl (List.mem_map_of_mem also)⟩
    | inr later =>
      obtain ⟨step, nested, first, inner, declared, same, inside, others⟩ :=
        inductionHypothesis later
      have shift : place + 1 + step = place + (step + 1) := by omega
      rw [shift] at same others
      exact ⟨step + 1, nested, first, inner, declared, same, inside,
        fun other also => .inr (others other also)⟩

theorem exists_part_of_getElem? {messages : List Message} {message : Message} {step : Nat}
    (declared : messages[step]? = some message) (parent : Option MessageId) (next : MessageId)
    (place : Nat) : ∃ first, ∀ other, other ∈ placedIn parent first message →
      (other.1, (place + step) :: other.2) ∈ placedFrom parent next place messages := by
  induction messages generalizing next place step with
  | nil => cases declared
  | cons head rest inductionHypothesis =>
    simp only [placedFrom, List.mem_append]
    cases step with
    | zero =>
      cases declared
      exact ⟨next, fun other also => .inl (List.mem_map_of_mem also)⟩
    | succ step =>
      obtain ⟨first, others⟩ := inductionHypothesis declared
        (next + (placedIn parent next head).length) (place + 1)
      have shift : place + 1 + step = place + (step + 1) := by omega
      rw [shift] at others
      exact ⟨first, fun other also => .inr (others other also)⟩

/-! ## What stands at an address -/

theorem inside?_of_mem {parent : Option MessageId} {next : MessageId} {message : Message}
    {entry : Entry} {address : Address} (listed : (entry, address) ∈ placedIn parent next message) :
    message.inside? address = some entry.message := by
  induction message using Message.induction generalizing parent next entry address with
  | step message inductionHypothesis =>
    obtain ⟨name, fields, messages, enums⟩ := message
    rw [placedIn, List.mem_cons] at listed
    cases listed with
    | inl own => cases own; rfl
    | inr among =>
      obtain ⟨step, nested, first, inner, declared, rfl, inside, _⟩ := exists_part_of_mem among
      rw [Nat.zero_add, Message.inside?, declared, Option.bind_some]
      exact inductionHypothesis nested (List.mem_of_getElem? declared) inside

theorem exists_mem_of_inside? {message inner : Message} {address : Address}
    (found : message.inside? address = some inner) (parent : Option MessageId)
    (next : MessageId) : ∃ entry, (entry, address) ∈ placedIn parent next message := by
  induction address generalizing message parent next with
  | nil =>
    obtain ⟨name, fields, messages, enums⟩ := message
    rw [placedIn]
    exact ⟨_, List.mem_cons_self⟩
  | cons place rest inductionHypothesis =>
    obtain ⟨name, fields, messages, enums⟩ := message
    obtain ⟨nested, declared, deeper⟩ := Option.bind_eq_some_iff.mp found
    obtain ⟨first, others⟩ := exists_part_of_getElem? declared (some next) (next + 1) 0
    obtain ⟨entry, inside⟩ := inductionHypothesis deeper (some next) first
    rw [placedIn]
    refine ⟨entry, List.mem_cons_of_mem _ ?_⟩
    simpa only [Nat.zero_add] using others _ inside

/-- Everything inside a message is declared in a scope, whose address its own one extends. -/
theorem scope_of_mem {parent : Option MessageId} {next : MessageId} {message : Message}
    {entry : Entry} {address : Address} (listed : (entry, address) ∈ placedIn parent next message) :
    (entry, address) = (⟨next, parent, message⟩, []) ∨
      ∃ outer ∈ placedIn parent next message, ∃ step,
        address = outer.2 ++ [step] ∧ entry.parent = some outer.1.id := by
  induction message using Message.induction generalizing parent next entry address with
  | step message inductionHypothesis =>
    obtain ⟨name, fields, messages, enums⟩ := message
    rw [placedIn, List.mem_cons] at listed
    refine listed.imp_right fun among => ?_
    obtain ⟨step, nested, first, inner, declared, rfl, inside, others⟩ := exists_part_of_mem among
    rw [placedIn]
    rcases inductionHypothesis nested (List.mem_of_getElem? declared) inside with
      same | ⟨outer, around, last, rfl, nested⟩
    · cases same
      exact ⟨_, List.mem_cons_self, 0 + step, rfl, rfl⟩
    · exact ⟨_, .tail _ (others outer around), last, rfl, nested⟩

mutual

theorem placedIn_ordered (parent : Option MessageId) (next : MessageId) : ∀ message : Message,
    ((placedIn parent next message).map Prod.snd).Pairwise (· < ·)
  | ⟨name, fields, messages, enums⟩ => by
    rw [placedIn, List.map_cons, List.pairwise_cons]
    refine ⟨fun address listed => ?_, placedFrom_ordered (some next) (next + 1) 0 messages⟩
    obtain ⟨⟨entry, _⟩, among, rfl⟩ := List.mem_map.mp listed
    obtain ⟨step, _, _, inner, _, same, _⟩ := exists_part_of_mem among
    simp only [same]
    exact List.nil_lt_cons _ _

theorem placedFrom_ordered (parent : Option MessageId) (next : MessageId) (place : Nat) :
    ∀ messages : List Message,
    ((placedFrom parent next place messages).map Prod.snd).Pairwise (· < ·)
  | [] => .nil
  | message :: rest => by
    have first := placedIn_ordered parent next message
    rw [placedFrom, List.map_append, List.pairwise_append]
    refine ⟨?_, placedFrom_ordered parent _ (place + 1) rest, ?_⟩
    · rw [List.map_map, List.pairwise_map]
      rw [List.pairwise_map] at first
      exact first.imp fun before => List.cons_lt_cons_iff.mpr (.inr ⟨rfl, before⟩)
    · -- Those of the message begin with its place, and those of the others with later ones.
      intro address listed other following
      rw [List.map_map] at listed
      obtain ⟨_, _, rfl⟩ := List.mem_map.mp listed
      obtain ⟨⟨entry, _⟩, among, rfl⟩ := List.mem_map.mp following
      obtain ⟨step, _, _, inner, _, same, _⟩ := exists_part_of_mem among
      simp only [same]
      exact List.cons_lt_cons_iff.mpr (.inl (by omega))

end

/-! ## Schemas -/

variable {schema : Schema} {entry other : Entry} {address place : Address}

theorem placed_entries (schema : Schema) :
    (placed schema).map Prod.fst = (ofSchema schema).entries :=
  placedFrom_entries none 0 0 schema.messages

theorem placed_ordered (schema : Schema) : ((placed schema).map Prod.snd).Pairwise (· < ·) :=
  placedFrom_ordered none 0 0 schema.messages

theorem mem_of_placed (listed : (entry, address) ∈ placed schema) :
    entry ∈ (ofSchema schema).entries := by
  rw [← placed_entries]
  exact List.mem_map_of_mem listed

theorem messageAt?_of_mem (listed : (entry, address) ∈ placed schema) :
    schema.messageAt? address = some entry.message := by
  obtain ⟨step, message, first, inner, declared, rfl, inside, _⟩ := exists_part_of_mem listed
  rw [Nat.zero_add, Schema.messageAt?, declared, Option.bind_some]
  exact inside?_of_mem inside

theorem exists_mem_of_messageAt? {message : Message}
    (found : schema.messageAt? address = some message) :
    ∃ entry, (entry, address) ∈ placed schema := by
  cases address with
  | nil => cases found
  | cons place rest =>
    obtain ⟨message, declared, deeper⟩ := Option.bind_eq_some_iff.mp found
    obtain ⟨first, others⟩ := exists_part_of_getElem? declared none 0 0
    obtain ⟨entry, inside⟩ := exists_mem_of_inside? deeper none first
    have listed := others _ inside
    rw [Nat.zero_add] at listed
    exact ⟨entry, listed⟩

theorem parent_of_mem_placed (listed : (entry, address) ∈ placed schema) :
    (∃ step, address = [step] ∧ entry.parent = none) ∨
      ∃ outer ∈ placed schema, ∃ step,
        address = outer.2 ++ [step] ∧ entry.parent = some outer.1.id := by
  obtain ⟨step, message, first, inner, _, rfl, inside, others⟩ := exists_part_of_mem listed
  rcases scope_of_mem inside with same | ⟨outer, around, last, rfl, nested⟩
  · cases same
    exact .inl ⟨0 + step, rfl, rfl⟩
  · exact .inr ⟨_, others outer around, last, rfl, nested⟩

theorem placed_of_id (listed : (entry, address) ∈ placed schema)
    (also : (other, place) ∈ placed schema) (same : entry.id = other.id) :
    entry = other ∧ address = place := by
  have identified : ((placed schema).map fun pair => pair.1.id).Nodup := by
    have ids := ofSchema_identified schema
    rwa [Identified, ← placed_entries, List.map_map] at ids
  exact Prod.mk.inj (List.inj_on_of_nodup_map identified listed also same)

theorem placed_of_address (listed : (entry, address) ∈ placed schema)
    (also : (other, address) ∈ placed schema) : entry = other := by
  have distinct : ((placed schema).map Prod.snd).Nodup := by
    refine List.Pairwise.imp ?_ (placed_ordered schema)
    rintro address _ before rfl
    exact List.lt_irrefl address before
  exact (Prod.mk.inj (List.inj_on_of_nodup_map distinct listed also rfl)).1

theorem exists_address_of_mem (listed : entry ∈ (ofSchema schema).entries) :
    ∃ address, (entry, address) ∈ placed schema := by
  rw [← placed_entries] at listed
  obtain ⟨⟨_, address⟩, among, rfl⟩ := List.mem_map.mp listed
  exact ⟨address, among⟩

def addresses (schema : Schema) : List Address := (placed schema).map Prod.snd

theorem getElem?_addresses (schema : Schema) (id : MessageId) :
    (addresses schema)[id]? = (placed schema)[id]?.map Prod.snd := List.getElem?_map

theorem id_of_getElem?_placed {id : MessageId}
    (found : (placed schema)[id]? = some (entry, address)) : entry.id = id := by
  have standing : (ofSchema schema).entries[id]? = some entry := by
    rw [← placed_entries, List.getElem?_map, found, Option.map_some]
  exact (ofSchema_getElem?_iff.mp standing).2

/-- The identity of a message is the place of its address. -/
theorem address_of_mem (listed : entry ∈ (ofSchema schema).entries) :
    (addresses schema)[entry.id]? = some address ↔ (entry, address) ∈ placed schema := by
  rw [getElem?_addresses, Option.map_eq_some_iff]
  constructor
  · rintro ⟨⟨other, _⟩, found, rfl⟩
    have among := List.mem_of_getElem? found
    obtain ⟨place, also⟩ := exists_address_of_mem listed
    obtain ⟨rfl, _⟩ := placed_of_id among also (id_of_getElem?_placed found)
    exact among
  · intro among
    obtain ⟨place, found⟩ := List.mem_iff_getElem?.mp among
    exact ⟨_, id_of_getElem?_placed found ▸ found, rfl⟩

theorem parent_eq_none_iff (listed : (entry, address) ∈ placed schema) :
    entry.parent = none ↔ ∃ step, address = [step] := by
  constructor
  · intro top
    rcases parent_of_mem_placed listed with ⟨step, same, _⟩ | ⟨_, _, _, _, nested⟩
    · exact ⟨step, same⟩
    · cases top.symm.trans nested
  · rintro ⟨step, rfl⟩
    rcases parent_of_mem_placed listed with ⟨_, _, top⟩ | ⟨⟨outer, around⟩, placed, last, same, _⟩
    · exact top
    · -- The address would extend the empty one, at which nothing stands.
      have root : around ++ [last] = [] ++ [step] := same.symm
      obtain ⟨rfl, _⟩ := List.append_inj' root rfl
      cases messageAt?_of_mem placed

theorem parent_eq_some_iff {scope : Entry} {around : Address}
    (enclosing : (scope, around) ∈ placed schema) (listed : (entry, address) ∈ placed schema) :
    entry.parent = some scope.id ↔ ∃ step, address = around ++ [step] := by
  constructor
  · intro nested
    rcases parent_of_mem_placed listed with
      ⟨_, _, top⟩ | ⟨⟨outer, place⟩, among, step, same, inside⟩
    · cases nested.symm.trans top
    · have identity : scope.id = outer.id := Option.some.inj (nested.symm.trans inside)
      obtain ⟨_, rfl⟩ := placed_of_id enclosing among identity
      exact ⟨step, same⟩
  · rintro ⟨step, rfl⟩
    rcases parent_of_mem_placed listed with
      ⟨last, same, _⟩ | ⟨⟨outer, place⟩, among, last, same, inside⟩
    · have root : around ++ [step] = [] ++ [last] := same
      obtain ⟨rfl, _⟩ := List.append_inj' root rfl
      cases messageAt?_of_mem enclosing
    · obtain ⟨rfl, _⟩ := List.append_inj' same rfl
      rw [inside, placed_of_address enclosing among]

end Catalog

end PayloadSchema
