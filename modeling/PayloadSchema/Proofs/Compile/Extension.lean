import PayloadSchema.Proofs.Interpretation.Agreement
import PayloadSchema.Proofs.Interpretation.Simulation
import PayloadSchema.Proofs.Schema.Clash
import PayloadSchema.Proofs.Schema.Insertion
import PayloadSchema.Proofs.Schema.Referent

/-! # Schemas that are extended

A further top-level message under a new name changes nothing for the messages that compiled
before.  Its name comes into sight of all of them, but last: a type name that led somewhere
leads there still, and in a message that is reached every type name does.  So only the new
message and what stands inside it can be at fault if the larger schema does not compile. -/

namespace PayloadSchema

namespace Catalog.Extends

variable {first second : Catalog} {rename : MessageId → MessageId} {inserted : List Entry}
  {name : String}

/-- Whether a message of the larger catalog is one that was reached before. -/
structure Kept (rename : MessageId → MessageId) (source : first.Listed) (image : second.Listed) :
    Prop where
  reached : Reachable first source
  same : image.1 = source.1.rename rename

section

variable (wider : first.Extends second rename inserted name)
  (fresh : ∀ root ∈ first.topLevel, root.1.message.name ≠ name)

include wider

theorem enumSeen?_eq (source : Entry) (other : String) :
    second.enumSeen? (source.rename rename) other = first.enumSeen? source other := by
  rw [enumSeen?, enumSeen?, wider.enums]
  rfl

include fresh

theorem messageSeen?_eq_some {source : Entry} {other : String} {target : first.Listed}
    (seen : first.messageSeen? source other = some target) :
    ∃ image, second.messageSeen? (source.rename rename) other = some image ∧
      image.1 = target.1.rename rename := by
  have own := wider.map_messageIn? (some source.id) other nofun
  rcases Option.or_eq_some_iff.mp seen with nested | ⟨absent, top⟩
  · rw [nested] at own
    obtain ⟨image, found, same⟩ := Option.map_eq_some_iff.mp own
    exact ⟨image, Option.or_eq_some_iff.mpr (.inl found), same⟩
  · -- The name is that of a top-level message, so the new message has another one.
    obtain ⟨unnested, named⟩ := messageIn?_eq_some top
    have apart : other ≠ name := named ▸ fresh target (mem_topLevel_iff.mpr unnested)
    have outer := wider.map_messageIn? none other fun _ => apart
    rw [top] at outer
    rw [absent] at own
    obtain ⟨image, found, same⟩ := Option.map_eq_some_iff.mp outer
    exact ⟨image, Option.or_eq_some_iff.mpr (.inr ⟨Option.map_eq_none_iff.mp own, found⟩), same⟩

variable (fits : ∀ scope, Reachable first scope →
  ∀ field ∈ scope.1.message.fields, field.Fits first scope.1)

include fits

/-- The messages that were reached have the same fields, which lead to the same. -/
theorem simulates : first.Simulates second (Kept rename) := by
  constructor
  · rintro source image ⟨_, same⟩
    rw [same]
    rfl
  · rintro source image ⟨reached, same⟩ field listed declared
    rw [same]
    cases fits source reached field listed with
    | scalar named =>
      rw [declared] at named
      cases named
    | enum _ found =>
      have seen := referent_eq_enum_iff.mp found
      rw [found, referent_eq_enum_iff.mpr ((wider.enumSeen?_eq source.1 field.typeName).trans seen)]
      exact .enum _
    | message _ found =>
      obtain ⟨hidden, seen⟩ := referent_eq_message_iff.mp found
      obtain ⟨target, seen, same⟩ := wider.messageSeen?_eq_some fresh seen
      rw [← wider.enumSeen?_eq] at hidden
      rw [found, referent_eq_message_iff.mpr ⟨hidden, seen⟩]
      exact .message ⟨reached.field listed declared found, same⟩

theorem kept_or_inserted {image : second.Listed} (reached : Reachable second image) :
    (∃ source : first.Listed, Kept rename source image) ∨ image.1 ∈ inserted := by
  -- A top-level message was one before, or it is the new one.
  have root : ∀ image : second.Listed, image.1.parent = none →
      (∃ source : first.Listed, Kept rename source image) ∨ image.1 ∈ inserted := by
    intro image top
    refine (wider.mem_iff.mp image.2).imp_left ?_
    rintro ⟨source, listed, same⟩
    rw [same] at top
    have unnested := Option.map_eq_none_iff.mp top
    exact ⟨⟨source, listed⟩, .root (mem_topLevel_iff.mpr unnested), same⟩
  induction reached with
  | root top => exact root _ (mem_topLevel_iff.mp top)
  | @field scope target field _ listed declared found inductionHypothesis =>
    rcases inductionHypothesis with ⟨source, pair⟩ | added
    · have alike := wider.simulates fresh fits
      rw [← alike.fields source scope pair] at listed
      have leads := alike.referents source scope pair field listed declared
      rw [found] at leads
      generalize first.referent source.1 field.typeName = before at leads
      cases leads with
      | message pair => exact .inl ⟨_, pair⟩
    · rcases (referent_eq_message found).1 with nested | top
      · -- What stands inside the new message is new.
        rcases wider.mem_iff.mp target.2 with ⟨source, _, same⟩ | inside
        · rw [same] at nested
          obtain ⟨id, _, same⟩ := Option.map_eq_some_iff.mp nested
          exact absurd same.symm (wider.apart _ added id)
        · exact .inr inside
      · exact root target top

/-- An error that blames a field blames one of the new messages. -/
theorem blames_inserted {error : SchemaError} (justified : error.Justified second) :
    ∃ entry ∈ inserted, ∃ field ∈ entry.message.fields, field.Blames second entry error := by
  obtain ⟨scope, reached, field, listed, blamed⟩ := justified
  rcases wider.kept_or_inserted fresh fits reached with ⟨source, pair⟩ | added
  · have alike := wider.simulates fresh fits
    rw [← alike.fields source scope pair] at listed
    have fit := alike.fits pair listed (fits source pair.reached field listed)
    exact absurd blamed (fit.not_blamed error)
  · exact ⟨scope.1, added, field, listed, blamed⟩

end

end Catalog.Extends

/-- Whether the declaration that an error is about stands in the message of some entry: names
    that clash there, or a field that is at fault. -/
def SchemaError.LiesIn (catalog : Catalog) (entries : List Entry) (error : SchemaError) : Prop :=
  ∃ entry ∈ entries, entry.message.Clashes error ∨
    ∃ field ∈ entry.message.fields, field.Blames catalog entry error

namespace Schema

variable {schema : Schema} {options : Options} {registry : Registry} {message : Message}
  {error : SchemaError}

theorem compile_eq_error (failed : schema.compile options = .error error) :
    schema.checkNames = .error error ∨ schema.checkScopes = .error error ∨
      (Catalog.ofSchema schema).compile options = .error error := by
  simp only [compile, bind_eq_error_iff] at failed
  rcases failed with names | ⟨_, _, scopes | ⟨_, _, refused | ⟨_, _, done⟩⟩⟩
  · exact .inl names
  · exact .inr (.inl scopes)
  · exact .inr (.inr refused)
  · cases done

theorem liesIn_of_within {catalog : Catalog} (place : Nat) {inner : Message}
    (within : inner.Within message) (clashes : inner.Clashes error) :
    error.LiesIn catalog (schema.entriesAt place message) := by
  obtain ⟨entry, listed, rfl⟩ :=
    Catalog.exists_entry_of_within within none (schema.idAt place)
  exact ⟨entry, listed, .inl clashes⟩

theorem mem_insert {place : Nat} {other : Message}
    (listed : other ∈ (schema.insert place message).messages) :
    other = message ∨ other ∈ schema.messages := by
  rw [insert, List.mem_append, List.mem_cons] at listed
  rcases listed with before | same | after
  · exact .inr (List.mem_of_mem_take before)
  · exact .inl same
  · exact .inr (List.mem_of_mem_drop after)

theorem checkNames_insert {place : Nat} (checked : schema.checkNames = .ok ())
    (failed : (schema.insert place message).checkNames = .error error) :
    message.checkNames = .error error := by
  obtain ⟨enums, messages⟩ := seq_eq_ok_iff.mp checked
  rcases bind_eq_error_iff.mp failed with refused | ⟨_, _, refused⟩
  · rw [insert, enums] at refused
    cases refused
  · obtain ⟨other, listed, repeated⟩ := Message.checkAllNames_eq_error refused
    rcases mem_insert listed with same | old
    · exact same ▸ repeated
    · rw [(Message.checkAllNames_eq_ok_iff _).mp messages other old] at repeated
      cases repeated

theorem checkScopes_insert {place : Nat} (checked : schema.checkScopes = .ok ())
    (fresh : message.name ∉ schema.messages.map Message.name)
    (failed : (schema.insert place message).checkScopes = .error error) :
    message.checkScope = .error error := by
  obtain ⟨enums, messages⟩ := seq_eq_ok_iff.mp checked
  obtain ⟨names, each⟩ := (Message.checkScopes_eq_ok_iff .schema List.nodup_nil).mp messages
  rcases bind_eq_error_iff.mp failed with refused | ⟨_, _, refused⟩
  · rw [insert, enums] at refused
    cases refused
  · rcases Message.checkScopes_eq_error refused with ⟨other, listed, repeated⟩ | ⟨name, twice, _⟩
    · rcases mem_insert listed with same | old
      · exact same ▸ repeated
      · rw [each other old] at repeated
        cases repeated
    · -- The names at the top are distinct, the new one among them.
      rw [List.nil_append, insert, List.map_append, List.map_cons, List.perm_middle.count_eq,
        ← List.map_append, List.take_append_drop] at twice
      have single := List.nodup_iff_count_le_one.mp (List.nodup_cons.mpr ⟨fresh, names⟩) name
      omega

/-- Under a new name a further top-level message changes nothing: a schema that compiled
    validates its messages as before, and if it does not compile any more, then for something
    in the message that was inserted. -/
theorem compile_insert (compiled : schema.compile options = .ok registry)
    (fresh : message.name ∉ schema.messages.map Message.name) (place : Nat) :
    (∀ extended, (schema.insert place message).compile options = .ok extended →
      ∀ name ∈ schema.messages.map Message.name, ∀ payload,
        extended.validate name payload = registry.validate name payload) ∧
    ∀ error, (schema.insert place message).compile options = .error error →
      error.LiesIn (Catalog.ofSchema (schema.insert place message))
        (schema.entriesAt place message) := by
  have wider := extends_insert schema place message
  have fits := fits_of_compile compiled
  have apart : ∀ root ∈ (Catalog.ofSchema schema).topLevel,
      root.1.message.name ≠ message.name := by
    intro root top same
    have listed := List.mem_map_of_mem (f := fun root => root.1.message) top
    rw [Catalog.topLevel_messages] at listed
    exact fresh (same ▸ List.mem_map_of_mem listed)
  constructor
  · intro extended succeeded name listed payload
    rw [← Catalog.topLevel_messages schema, List.map_map] at listed
    obtain ⟨root, top, rfl⟩ := List.mem_map.mp listed
    let image : (Catalog.ofSchema (schema.insert place message)).Listed :=
      ⟨root.1.rename (schema.moved place message), wider.mem_iff.mpr (.inl ⟨root.1, root.2, rfl⟩)⟩
    have unnested : image ∈ (Catalog.ofSchema (schema.insert place message)).topLevel := by
      rw [Catalog.mem_topLevel_iff] at top ⊢
      exact Option.map_eq_none_iff.mpr top
    have kept : Catalog.Extends.Kept (schema.moved place message) root image :=
      ⟨.root top, rfl⟩
    calc extended.validate root.1.message.name payload
        = ((Catalog.ofSchema (schema.insert place message)).interpretMessage options image.1 []
            payload).mapError .invalid := validate_of_root succeeded unnested payload
      _ = ((Catalog.ofSchema schema).interpretMessage options root.1 [] payload).mapError
            .invalid := by rw [(wider.simulates apart fits).interpretMessage_eq kept]
      _ = registry.validate root.1.message.name payload :=
          (validate_of_root compiled top payload).symm
  · intro error failed
    obtain ⟨names, scopes, _⟩ := compile_eq_ok_iff.mp compiled
    rcases compile_eq_error failed with repeated | repeated | refused
    · obtain ⟨inner, within, clashes⟩ :=
        Message.clashes_of_checkNames (checkNames_insert names repeated)
      exact liesIn_of_within place within clashes
    · obtain ⟨inner, within, clashes⟩ :=
        Message.clashes_of_checkScope (checkScopes_insert scopes fresh repeated)
      exact liesIn_of_within place within clashes
    · obtain ⟨entry, added, blamed⟩ :=
        wider.blames_inserted apart fits (Catalog.compile_justified refused)
      exact ⟨entry, added, .inr blamed⟩

/-- A bank with branches inside it, the city of a branch being of some type. -/
def bank (city : String) : Message where
  name := "Bank"
  fields := [
    { name := "clients", typeName := "Person", repeated := true },
    { name := "branch", typeName := "Branch" }]
  messages := [{ name := "Branch", fields := [{ name := "city", typeName := city }] }]

theorem accounts_insert_bank :
    ∃ registry, accounts.compile {} = .ok registry ∧
      "Bank" ∉ accounts.messages.map Message.name ∧
      (∃ extended, (accounts.insert 1 (bank "string")).compile {} = .ok extended ∧
        extended.validate "Account" ownerless = registry.validate "Account" ownerless) ∧
      ∃ error, (accounts.insert 1 (bank "City")).compile {} = .error error ∧
        error = .unknownType "Branch" "city" "City" ∧
        error.LiesIn (Catalog.ofSchema (accounts.insert 1 (bank "City")))
          (accounts.entriesAt 1 (bank "City")) := by
  obtain ⟨registry, compiled⟩ := accounts_compile
  have fresh : "Bank" ∉ accounts.messages.map Message.name := by decide
  obtain ⟨extended, succeeded⟩ : ∃ extended,
      (accounts.insert 1 (bank "string")).compile {} = .ok extended :=
    exists_of_isOk (by decide +kernel)
  have reported : ((accounts.insert 1 (bank "City")).compile {}).map (fun _ => ()) =
      .error (.unknownType "Branch" "city" "City") := by decide +kernel
  have failed := map_eq_error_iff.mp reported
  have same : extended.validate "Account" ownerless = registry.validate "Account" ownerless :=
    (compile_insert compiled fresh 1).1 extended succeeded "Account" (by decide) ownerless
  have blamed := (compile_insert compiled fresh 1).2 _ failed
  exact ⟨registry, compiled, fresh, ⟨extended, succeeded, same⟩, _, failed, rfl, blamed⟩

end Schema

end PayloadSchema
