import Mathlib.Logic.Function.Basic
import PayloadSchema.Proofs.Schema.Catalog

/-! # A further message among those of a schema

A message that is put among the top-level ones takes the next places of the catalog with
everything inside it, and moves what follows to later places.  Seen from the other messages
nothing else happens: what stands inside the new message is not in sight, and the message
itself is in sight by its own name only. -/

namespace PayloadSchema

def Entry.rename (rename : MessageId → MessageId) (entry : Entry) : Entry :=
  { entry with id := rename entry.id, parent := entry.parent.map rename }

namespace Catalog

theorem entriesOfAll_append (parent : Option MessageId) (next : MessageId)
    (first second : List Message) :
    entriesOfAll parent next (first ++ second) =
      entriesOfAll parent next first ++
        entriesOfAll parent (next + (entriesOfAll parent next first).length) second := by
  induction first generalizing next with
  | nil => simp [entriesOfAll]
  | cons message rest inductionHypothesis =>
    rw [List.cons_append, entriesOfAll, entriesOfAll, inductionHypothesis, List.append_assoc,
      List.length_append, Nat.add_assoc]

mutual

theorem entriesOf_later (count : Nat) (parent : Option MessageId) (next : MessageId) :
    ∀ message : Message, entriesOf (parent.map (· + count)) (next + count) message =
      (entriesOf parent next message).map (Entry.rename (· + count))
  | ⟨_, _, messages, _⟩ => by
    rw [entriesOf, entriesOf, List.map_cons, ← entriesOfAll_later count (some next) (next + 1),
      Option.map_some, Nat.add_right_comm]
    rfl

/-- Messages that get later places have the same entries, that much later. -/
theorem entriesOfAll_later (count : Nat) (parent : Option MessageId) (next : MessageId) :
    ∀ messages : List Message, entriesOfAll (parent.map (· + count)) (next + count) messages =
      (entriesOfAll parent next messages).map (Entry.rename (· + count))
  | [] => by simp [entriesOfAll]
  | message :: rest => by
    rw [entriesOfAll, entriesOfAll, List.map_append, entriesOf_later count parent next message,
      ← entriesOfAll_later count parent _ rest, List.length_map, Nat.add_right_comm]

end

/-- Whether a catalog has the entries of another one, under new identities, and among them
    further ones that none of the others sees, unless it asks for a certain name. -/
structure Extends (first second : Catalog) (rename : MessageId → MessageId)
    (inserted : List Entry) (name : String) : Prop where
  enums : second.enums = first.enums
  entries : ∃ before after, first.entries = before ++ after ∧
    second.entries = before.map (Entry.rename rename) ++ inserted ++ after.map (Entry.rename rename)
  injective : Function.Injective rename
  apart : ∀ entry ∈ inserted, ∀ id, entry.id ≠ rename id
  nested : ∀ entry ∈ inserted, ∀ id, entry.parent ≠ some (rename id)
  named : ∀ entry ∈ inserted, entry.parent = none → entry.message.name = name

namespace Extends

variable {first second : Catalog} {rename : MessageId → MessageId} {inserted : List Entry}
  {name : String}

theorem mem_iff (wider : first.Extends second rename inserted name) {entry : Entry} :
    entry ∈ second.entries ↔
      (∃ source ∈ first.entries, entry = source.rename rename) ∨ entry ∈ inserted := by
  obtain ⟨before, after, same, entries⟩ := wider.entries
  simp only [entries, same, List.mem_append, List.mem_map]
  constructor
  · rintro ((⟨source, listed, rfl⟩ | added) | ⟨source, listed, rfl⟩)
    · exact .inl ⟨source, .inl listed, rfl⟩
    · exact .inr added
    · exact .inl ⟨source, .inr listed, rfl⟩
  · rintro (⟨source, listed | listed, rfl⟩ | added)
    · exact .inl (.inl ⟨source, listed, rfl⟩)
    · exact .inr ⟨source, listed, rfl⟩
    · exact .inl (.inr added)

theorem map_messageIn? (wider : first.Extends second rename inserted name)
    (scope : Option MessageId) (other : String) (apart : scope = none → other ≠ name) :
    (second.messageIn? (scope.map rename) other).map Subtype.val =
      ((first.messageIn? scope other).map Subtype.val).map (Entry.rename rename) := by
  obtain ⟨before, after, same, entries⟩ := wider.entries
  have unseen : inserted.find? (fun entry =>
      entry.parent = scope.map rename && entry.message.name = other) = none := by
    rw [List.find?_eq_none]
    intro entry added seen
    rw [Bool.and_eq_true, decide_eq_true_eq, decide_eq_true_eq] at seen
    cases scope with
    | none => exact apart rfl (seen.2.symm.trans (wider.named entry added seen.1))
    | some id => exact wider.nested entry added id seen.1
  have asked : (fun entry : Entry => (entry.parent = scope.map rename &&
      entry.message.name = other : Bool)) ∘ Entry.rename rename =
      fun entry => (entry.parent = scope && entry.message.name = other : Bool) := by
    funext entry
    have moved : decide (entry.parent.map rename = scope.map rename) =
        decide (entry.parent = scope) :=
      decide_eq_decide.mpr (Option.map_injective wider.injective).eq_iff
    exact congrArg (· && decide (entry.message.name = other)) moved
  rw [Catalog.map_messageIn?, Catalog.map_messageIn?, entries, same, List.append_assoc,
    List.find?_append, List.find?_append, unseen, Option.none_or, List.find?_map, List.find?_map,
    asked, ← Option.map_or, ← List.find?_append]

end Extends

end Catalog

/-- A number past a gap: from the first number of the gap on, the next one after it. -/
def skip (first count number : Nat) : Nat := if number < first then number else number + count

theorem skip_of_lt {first count number : Nat} (before : number < first) :
    skip first count number = number :=
  if_pos before

theorem skip_of_le {first count number : Nat} (after : first ≤ number) :
    skip first count number = number + count :=
  if_neg (Nat.not_lt.mpr after)

theorem skip_injective (first count : Nat) : Function.Injective (skip first count) := by
  intro number other same
  simp only [skip] at same
  split at same <;> split at same <;> omega

theorem skip_apart (first count number : Nat) :
    skip first count number < first ∨ first + count ≤ skip first count number := by
  rw [skip]
  split <;> omega

namespace Schema

/-- The schema with a further top-level message at some place among the others. -/
def insert (schema : Schema) (place : Nat) (message : Message) : Schema :=
  { schema with messages := schema.messages.take place ++ message :: schema.messages.drop place }

/-- The identity that a message gets at some place among the others. -/
def idAt (schema : Schema) (place : Nat) : MessageId :=
  (Catalog.entriesOfAll none 0 (schema.messages.take place)).length

def entriesAt (schema : Schema) (place : Nat) (message : Message) : List Entry :=
  Catalog.entriesOf none (schema.idAt place) message

/-- The identity that a message of the schema has once another one is inserted. -/
def moved (schema : Schema) (place : Nat) (message : Message) (id : MessageId) : MessageId :=
  skip (schema.idAt place) (schema.entriesAt place message).length id

variable (schema : Schema) (place : Nat) (message : Message)

theorem ne_moved_of_mem_entriesAt {entry : Entry}
    (added : entry ∈ schema.entriesAt place message) (id : MessageId) :
    entry.id ≠ schema.moved place message id := by
  obtain ⟨low, high⟩ := Catalog.id_of_mem_entriesOf added
  intro same
  rw [same] at low high
  cases skip_apart (schema.idAt place) (schema.entriesAt place message).length id with
  | inl before => exact Nat.not_le.mpr before low
  | inr after => exact Nat.not_lt.mpr after high

theorem rename_moved_before :
    (Catalog.entriesOfAll none 0 (schema.messages.take place)).map
        (Entry.rename (schema.moved place message)) =
      Catalog.entriesOfAll none 0 (schema.messages.take place) := by
  have kept : ∀ entry ∈ Catalog.entriesOfAll none 0 (schema.messages.take place),
      schema.moved place message entry.id = entry.id := by
    intro entry listed
    have bound := (Catalog.id_of_mem_entriesOfAll listed).2
    rw [Nat.zero_add] at bound
    exact skip_of_lt bound
  refine (List.map_congr_left fun entry listed => ?_).trans (List.map_id _)
  have parent : entry.parent.map (schema.moved place message) = entry.parent := by
    rcases Catalog.parent_of_mem_entriesOfAll _ _ _ entry listed with top | ⟨outer, among, nested⟩
    · rw [top, Option.map_none]
    · rw [nested, Option.map_some, kept outer among]
  rw [Entry.rename, kept entry listed, parent, id_eq]

theorem rename_moved_after :
    (Catalog.entriesOfAll none (schema.idAt place) (schema.messages.drop place)).map
        (Entry.rename (schema.moved place message)) =
      Catalog.entriesOfAll none (schema.idAt place + (schema.entriesAt place message).length)
        (schema.messages.drop place) := by
  have raised : ∀ entry ∈ Catalog.entriesOfAll none (schema.idAt place)
      (schema.messages.drop place), schema.moved place message entry.id =
        entry.id + (schema.entriesAt place message).length :=
    fun entry listed => skip_of_le (Catalog.id_of_mem_entriesOfAll listed).1
  refine Eq.trans (List.map_congr_left fun entry listed => ?_)
    (Catalog.entriesOfAll_later (schema.entriesAt place message).length none _ _).symm
  have parent : entry.parent.map (schema.moved place message) =
      entry.parent.map (· + (schema.entriesAt place message).length) := by
    rcases Catalog.parent_of_mem_entriesOfAll _ _ _ entry listed with top | ⟨outer, among, nested⟩
    · rw [top, Option.map_none, Option.map_none]
    · rw [nested, Option.map_some, Option.map_some, raised outer among]
  rw [Entry.rename, Entry.rename, raised entry listed, parent]

theorem extends_insert :
    (Catalog.ofSchema schema).Extends (Catalog.ofSchema (schema.insert place message))
      (schema.moved place message) (schema.entriesAt place message) message.name := by
  refine ⟨rfl, ⟨Catalog.entriesOfAll none 0 (schema.messages.take place),
    Catalog.entriesOfAll none (schema.idAt place) (schema.messages.drop place), ?_, ?_⟩,
    skip_injective _ _,
    fun entry added => schema.ne_moved_of_mem_entriesAt place message added, ?_, ?_⟩
  · have whole := Catalog.entriesOfAll_append none 0 (schema.messages.take place)
      (schema.messages.drop place)
    rwa [List.take_append_drop, Nat.zero_add] at whole
  · rw [rename_moved_before, rename_moved_after]
    rw [Catalog.ofSchema, insert, Catalog.entriesOfAll_append, Nat.zero_add, ← idAt,
      Catalog.entriesOfAll, ← entriesAt, List.append_assoc]
  · intro entry added id
    rcases Catalog.parent_of_mem_entriesOf _ _ _ entry added with rfl | ⟨outer, among, nested⟩
    · exact Option.some_ne_none _ |>.symm
    · rw [nested, ne_eq, Option.some.injEq]
      exact schema.ne_moved_of_mem_entriesAt place message among id
  · intro entry added top
    rcases Catalog.parent_of_mem_entriesOf _ _ _ entry added with rfl | ⟨outer, _, nested⟩
    · rfl
    · rw [top] at nested
      cases nested

end Schema

end PayloadSchema
