import Mathlib.Data.List.Count
import PayloadSchema.Proofs.Schema.Distinct
import PayloadSchema.Proofs.Schema.Group
import PayloadSchema.Proofs.Schema.Nesting

/-! # Names that clash

When the names of a schema are not distinct, the error that is reported names two
declarations of one name that stand beside each other: two fields of a message, two values
of an enumeration, or two types of one scope. -/

namespace PayloadSchema

/-- Whether an error reports two declarations of one name right inside a message. -/
inductive Message.Clashes (message : Message) : SchemaError → Prop where
  | field {name : String} (twice : 2 ≤ (message.fields.map Field.name).count name) :
      Clashes message (.repeatedField message.name name)
  | member {group name : String} (twice : 2 ≤ (taggedWith group message.fields).count name) :
      Clashes message (.repeatedMember message.name group name)
  | entry {enum : EnumType} (declared : enum ∈ message.enums) {name : String}
      (twice : 2 ≤ enum.names.count name) : Clashes message (.repeatedEntry enum.name name)
  | enum {name : String} (twice : 2 ≤ (message.enums.map EnumType.name).count name) :
      Clashes message (.repeatedType (.message message.name) name)
  | message {name : String} (twice : 2 ≤ (message.messages.map Message.name).count name) :
      Clashes message (.repeatedType (.message message.name) name)

theorem firstRepeated?_eq_some {seen names : List String} {name : String}
    (found : firstRepeated? seen names = some name) : 2 ≤ (seen ++ names).count name := by
  induction names generalizing seen with
  | nil => cases found
  | cons first rest inductionHypothesis =>
    rw [firstRepeated?] at found
    split at found
    next known =>
      cases found
      have before := List.count_pos_iff.mpr (List.contains_iff_mem.mp known)
      rw [List.count_append, List.count_cons_self]
      omega
    next =>
      have later := inductionHypothesis found
      rwa [List.perm_middle.count_eq]

theorem EnumType.checkNames_eq_error {enum : EnumType} {error : SchemaError}
    (failed : enum.checkNames = .error error) :
    ∃ name, 2 ≤ enum.names.count name ∧ error = .repeatedEntry enum.name name := by
  rw [checkNames] at failed
  split at failed
  next name found =>
    cases failed
    exact ⟨name, firstRepeated?_eq_some found, rfl⟩
  next => cases failed

theorem checkEnumScope_eq_error {scope : Scope} {enums : List EnumType} {error : SchemaError}
    (failed : checkEnumScope scope enums = .error error) :
    ∃ name, 2 ≤ (enums.map EnumType.name).count name ∧ error = .repeatedType scope name := by
  rw [checkEnumScope] at failed
  split at failed
  next name found =>
    cases failed
    exact ⟨name, firstRepeated?_eq_some found, rfl⟩
  next => cases failed

namespace Message

theorem checkFields_eq_error {message : String} {before fields : List Field} {error : SchemaError}
    (failed : checkFields message before fields = .error error) :
    ∃ earlier field, [earlier, field].Sublist (before ++ fields) ∧ earlier.name = field.name ∧
      error = clash message earlier field := by
  induction fields generalizing before with
  | nil => cases failed
  | cons field rest inductionHypothesis =>
    rw [checkFields] at failed
    split at failed
    next earlier found =>
      cases failed
      have first := List.singleton_sublist.mpr (List.mem_of_find?_eq_some found)
      have second : [field].Sublist (field :: rest) :=
        List.singleton_sublist.mpr List.mem_cons_self
      exact ⟨earlier, field, first.append second, by simpa using List.find?_some found, rfl⟩
    next => simpa using inductionHypothesis failed

theorem clashes_of_pair {message : Message} {earlier field : Field}
    (pair : [earlier, field].Sublist message.fields) (same : earlier.name = field.name) :
    message.Clashes (clash message.name earlier field) := by
  have repeated : message.Clashes (.repeatedField message.name field.name) := by
    have twice := (pair.map Field.name).count_le field.name
    rw [List.map_cons, same] at twice
    exact .field (by simpa using twice)
  rw [clash]
  split
  next group tagged =>
    split
    next other =>
      have names : taggedWith group [earlier, field] = [field.name, field.name] := by
        simp [taggedWith, tagged, other, same]
      have members : (taggedWith group [earlier, field]).Sublist
          (taggedWith group message.fields) := (pair.filter _).map Field.name
      have twice := members.count_le field.name
      rw [names] at twice
      exact .member (by simpa only [List.count_cons_self, List.count_nil] using twice)
    next => exact repeated
  next => exact repeated

theorem checkAllNames_eq_error {messages : List Message} {error : SchemaError}
    (failed : checkAllNames messages = .error error) :
    ∃ message ∈ messages, message.checkNames = .error error := by
  induction messages with
  | nil => cases failed
  | cons message rest inductionHypothesis =>
    rw [checkAllNames, bind_eq_error_iff] at failed
    rcases failed with first | ⟨_, _, later⟩
    · exact ⟨message, List.mem_cons_self, first⟩
    · obtain ⟨other, listed, found⟩ := inductionHypothesis later
      exact ⟨other, .tail _ listed, found⟩

/-- A message whose names are refused has a clash in itself or in a message inside it. -/
theorem clashes_of_checkNames {message : Message} {error : SchemaError}
    (failed : message.checkNames = .error error) :
    ∃ inner : Message, inner.Within message ∧ inner.Clashes error := by
  induction message using Message.induction with
  | step message inductionHypothesis =>
    obtain ⟨name, fields, messages, enums⟩ := message
    simp only [checkNames, bind_eq_error_iff] at failed
    rcases failed with repeated | ⟨_, _, repeated | ⟨_, _, nested⟩⟩
    · obtain ⟨earlier, field, pair, same, rfl⟩ := checkFields_eq_error repeated
      have clashes : Clashes ⟨name, fields, messages, enums⟩ (clash name earlier field) :=
        clashes_of_pair pair same
      exact ⟨_, .whole, clashes⟩
    · obtain ⟨enum, declared, repeated⟩ := forM_eq_error repeated
      obtain ⟨value, twice, rfl⟩ := EnumType.checkNames_eq_error repeated
      exact ⟨_, .whole, .entry declared twice⟩
    · obtain ⟨message, declared, refused⟩ := checkAllNames_eq_error nested
      obtain ⟨inner, within, clashes⟩ := inductionHypothesis message declared refused
      exact ⟨inner, .nested declared within, clashes⟩

theorem checkScopes_eq_error {scope : Scope} {before : List String} {messages : List Message}
    {error : SchemaError} (failed : checkScopes scope before messages = .error error) :
    (∃ message ∈ messages, message.checkScope = .error error) ∨
      ∃ name, 2 ≤ (before ++ messages.map Message.name).count name ∧
        error = .repeatedType scope name := by
  induction messages generalizing before with
  | nil => cases failed
  | cons message rest inductionHypothesis =>
    rw [checkScopes, bind_eq_error_iff] at failed
    rcases failed with first | ⟨_, _, failed⟩
    · exact .inl ⟨message, List.mem_cons_self, first⟩
    · split at failed
      next known =>
        cases failed
        have earlier := List.count_pos_iff.mpr (List.contains_iff_mem.mp known)
        refine .inr ⟨message.name, ?_, rfl⟩
        rw [List.count_append, List.map_cons, List.count_cons_self]
        omega
      next =>
        rcases inductionHypothesis failed with ⟨other, listed, found⟩ | ⟨name, twice, rfl⟩
        · exact .inl ⟨other, .tail _ listed, found⟩
        · exact .inr ⟨name, by simpa using twice, rfl⟩

theorem repeatedType_of_checkScope {message : Message} {error : SchemaError}
    (failed : message.checkScope = .error error) :
    ∃ inner : Message, inner.Within message ∧ ∃ name,
      (2 ≤ (inner.enums.map EnumType.name).count name ∨
        2 ≤ (inner.messages.map Message.name).count name) ∧
      error = .repeatedType (.message inner.name) name := by
  induction message using Message.induction with
  | step message inductionHypothesis =>
    obtain ⟨name, fields, messages, enums⟩ := message
    rw [checkScope, bind_eq_error_iff] at failed
    rcases failed with repeated | ⟨_, _, failed⟩
    · obtain ⟨other, twice, rfl⟩ := checkEnumScope_eq_error repeated
      exact ⟨_, .whole, other, .inl twice, rfl⟩
    · rcases checkScopes_eq_error failed with ⟨message, declared, refused⟩ | ⟨other, twice, rfl⟩
      · obtain ⟨inner, within, clash⟩ := inductionHypothesis message declared refused
        exact ⟨inner, .nested declared within, clash⟩
      · exact ⟨_, .whole, other, .inr twice, rfl⟩

theorem clashes_of_checkScope {message : Message} {error : SchemaError}
    (failed : message.checkScope = .error error) :
    ∃ inner : Message, inner.Within message ∧ inner.Clashes error := by
  obtain ⟨inner, within, name, twice, rfl⟩ := repeatedType_of_checkScope failed
  cases twice with
  | inl enums => exact ⟨inner, within, .enum enums⟩
  | inr messages => exact ⟨inner, within, .message messages⟩

end Message

end PayloadSchema
