import PayloadSchema.Json.Value

/-! # Documents that have a value

A document is read as a JSON value if nothing in it is out of range: its numbers can be
represented, its strings and keys have a text, and its arrays and objects nest no deeper
than there is room for.  Only the last of these is left of a document that merely nests. -/

namespace PayloadSchema

/-- Whether everything in a document can be read, within some room for nesting. -/
inductive Document.Readable : Nat → Document → Prop where
  | null {room : Nat} : Readable room .null
  | bool {room : Nat} (value : Bool) : Readable room (.bool value)
  | number {room : Nat} {numeral : Numeral} {number : Number}
      (inRange : numeral.number? = some number) : Readable room (.number numeral)
  | string {room : Nat} (text : String) : Readable room (.string (some text))
  | array {room : Nat} {items : List Document}
      (each : ∀ item ∈ items, Readable room item) : Readable (room + 1) (.array items)
  | object {room : Nat} {entries : Document.Entries}
      (named : ∀ entry ∈ entries, entry.1.isSome = true)
      (each : ∀ entry ∈ entries, Readable room entry.2) :
      Readable (room + 1) (.object entries)

/-- Whether the arrays and objects in a document nest no deeper than there is room for,
    whatever its numbers, strings and keys are. -/
inductive Document.Nests : Nat → Document → Prop where
  | null {room : Nat} : Nests room .null
  | bool {room : Nat} (value : Bool) : Nests room (.bool value)
  | number {room : Nat} (numeral : Numeral) : Nests room (.number numeral)
  | string {room : Nat} (text : Option String) : Nests room (.string text)
  | array {room : Nat} {items : List Document}
      (each : ∀ item ∈ items, Nests room item) : Nests (room + 1) (.array items)
  | object {room : Nat} {entries : Document.Entries}
      (each : ∀ entry ∈ entries, Nests room entry.2) : Nests (room + 1) (.object entries)

theorem Document.Readable.nests {room : Nat} {document : Document}
    (readable : document.Readable room) : document.Nests room := by
  induction readable with
  | null => exact .null
  | bool value => exact .bool value
  | number _ => exact .number _
  | string text => exact .string _
  | array _ inductionHypothesis => exact .array inductionHypothesis
  | object _ _ inductionHypothesis => exact .object inductionHypothesis

namespace Json

variable {room : Nat}

theorem exists_itemsWithin? {items : List Document}
    (each : ∀ item ∈ items, ∃ value, ofDocumentWithin? room item = some value) :
    ∃ values, itemsWithin? room items = some values := by
  induction items with
  | nil => exact ⟨[], rfl⟩
  | cons item rest inductionHypothesis =>
    obtain ⟨⟨value, first⟩, later⟩ := List.forall_mem_cons.mp each
    obtain ⟨values, others⟩ := inductionHypothesis later
    exact ⟨value :: values, by simp [itemsWithin?, first, others]⟩

theorem exists_membersWithin? {entries : Document.Entries}
    (named : ∀ entry ∈ entries, entry.1.isSome = true)
    (each : ∀ entry ∈ entries, ∃ value, ofDocumentWithin? room entry.2 = some value)
    (before : Members) : ∃ members, membersWithin? room before entries = some members := by
  induction entries generalizing before with
  | nil => exact ⟨before, rfl⟩
  | cons entry rest inductionHypothesis =>
    obtain ⟨key, document⟩ := entry
    obtain ⟨own, names⟩ := List.forall_mem_cons.mp named
    obtain ⟨⟨value, first⟩, later⟩ := List.forall_mem_cons.mp each
    obtain ⟨key, rfl⟩ := Option.isSome_iff_exists.mp own
    obtain ⟨members, others⟩ := inductionHypothesis names later (before.set key value)
    exact ⟨members, by simp [membersWithin?, first, others]⟩

theorem exists_ofDocumentWithin? {document : Document} (readable : document.Readable room) :
    ∃ value, ofDocumentWithin? room document = some value := by
  induction readable with
  | null => exact ⟨.null, rfl⟩
  | bool value => exact ⟨.bool value, rfl⟩
  | @number _ _ number inRange => exact ⟨.num number, by simp [ofDocumentWithin?, inRange]⟩
  | string text => exact ⟨.str text, rfl⟩
  | array _ inductionHypothesis =>
    obtain ⟨values, read⟩ := exists_itemsWithin? inductionHypothesis
    exact ⟨.arr values, by simp [ofDocumentWithin?, read]⟩
  | object named _ inductionHypothesis =>
    obtain ⟨members, read⟩ := exists_membersWithin? named inductionHypothesis []
    exact ⟨.obj members, by simp [ofDocumentWithin?, read]⟩

mutual

theorem readable_of_ofDocumentWithin? : ∀ {room : Nat} {document : Document} {value : Json},
    ofDocumentWithin? room document = some value → document.Readable room
  | _, .null, _, _ => .null
  | _, .bool value, _, _ => .bool value
  | _, .number numeral, _, read => by
    simp only [ofDocumentWithin?, Option.map_eq_some_iff] at read
    obtain ⟨_, inRange, _⟩ := read
    exact .number inRange
  | _, .string text, _, read => by
    simp only [ofDocumentWithin?, Option.map_eq_some_iff] at read
    obtain ⟨text, rfl, _⟩ := read
    exact .string text
  | 0, .array items, _, read => by simp [ofDocumentWithin?] at read
  | room + 1, .array items, _, read => by
    simp only [ofDocumentWithin?, Nat.add_one_ne_zero, if_false, Nat.add_sub_cancel] at read
    obtain ⟨_, each, _⟩ := Option.map_eq_some_iff.mp read
    exact .array (readable_of_itemsWithin? each)
  | 0, .object entries, _, read => by simp [ofDocumentWithin?] at read
  | room + 1, .object entries, _, read => by
    simp only [ofDocumentWithin?, Nat.add_one_ne_zero, if_false, Nat.add_sub_cancel] at read
    obtain ⟨_, each, _⟩ := Option.map_eq_some_iff.mp read
    have ⟨named, each⟩ := readable_of_membersWithin? each
    exact .object named each

theorem readable_of_itemsWithin? : ∀ {room : Nat} {items : List Document} {values : List Json},
    itemsWithin? room items = some values → ∀ item ∈ items, item.Readable room
  | _, [], _, _ => nofun
  | _, item :: rest, _, read => by
    simp only [itemsWithin?] at read
    split at read
    next first others =>
      exact List.forall_mem_cons.mpr
        ⟨readable_of_ofDocumentWithin? first, readable_of_itemsWithin? others⟩
    next => cases read

theorem readable_of_membersWithin? : ∀ {room : Nat} {before : Members}
    {entries : Document.Entries} {members : Members},
    membersWithin? room before entries = some members →
      (∀ entry ∈ entries, entry.1.isSome = true) ∧ ∀ entry ∈ entries, entry.2.Readable room
  | _, _, [], _, _ => ⟨nofun, nofun⟩
  | _, _, (key, document) :: rest, _, read => by
    unfold membersWithin? at read
    split at read
    next first =>
      have ⟨named, each⟩ := readable_of_membersWithin? read
      exact ⟨List.forall_mem_cons.mpr ⟨rfl, named⟩,
        List.forall_mem_cons.mpr ⟨readable_of_ofDocumentWithin? first, each⟩⟩
    next => cases read

end

end Json

end PayloadSchema
