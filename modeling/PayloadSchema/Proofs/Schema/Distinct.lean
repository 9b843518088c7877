import PayloadSchema.Proofs.Except
import PayloadSchema.Proofs.Schema.Nesting
import PayloadSchema.Schema.Distinct

/-! # Schemas whose names are distinct

What the checks of names decide.  The names of a schema pass exactly if no message of it, at
any depth, declares two fields of one name, and no enumeration two values; its types pass
exactly if in each scope the names of the enumerations are distinct, and those of the messages
are. -/

namespace PayloadSchema

theorem firstRepeated?_eq_none_iff {seen names : List String} :
    firstRepeated? seen names = none ↔ names.Nodup ∧ ∀ name ∈ names, name ∉ seen := by
  induction names generalizing seen with
  | nil => simp [firstRepeated?]
  | cons name rest inductionHypothesis =>
    rw [firstRepeated?]
    by_cases known : name ∈ seen
    · simp [known]
    · rw [if_neg (by simpa using known), inductionHypothesis, List.nodup_cons,
        List.forall_mem_cons]
      constructor
      · rintro ⟨distinct, apart⟩
        exact ⟨⟨fun again => apart name again List.mem_cons_self, distinct⟩, known,
          fun other listed earlier => apart other listed (.tail name earlier)⟩
      · rintro ⟨⟨fresh, distinct⟩, _, apart⟩
        refine ⟨distinct, fun other listed earlier => ?_⟩
        cases List.mem_cons.mp earlier with
        | inl same => exact fresh (same ▸ listed)
        | inr before => exact apart other listed before

theorem find?_name_eq_some {α : Type} {name : α → String} {declared : List α}
    (distinct : (declared.map name).Nodup) {item : α} (listed : item ∈ declared) :
    declared.find? (fun other => name other = name item) = some item := by
  cases found : declared.find? (fun other => name other = name item) with
  | none =>
    have absent := List.find?_eq_none.mp found item listed
    simp at absent
  | some other =>
    have named := List.find?_some found
    have same := List.inj_on_of_nodup_map distinct (List.mem_of_find?_eq_some found) listed
      (by simpa using named)
    rw [same]

theorem EnumType.checkNames_eq_ok_iff {enum : EnumType} :
    enum.checkNames = .ok () ↔ enum.names.Nodup := by
  rw [checkNames]
  cases found : firstRepeated? [] enum.names with
  | some name =>
    have repeated : firstRepeated? [] enum.names ≠ none := by simp [found]
    simpa [firstRepeated?_eq_none_iff] using repeated
  | none => simpa using (firstRepeated?_eq_none_iff.mp found).1

theorem checkEnumScope_eq_ok_iff {scope : Scope} {enums : List EnumType} :
    checkEnumScope scope enums = .ok () ↔ (enums.map EnumType.name).Nodup := by
  rw [checkEnumScope]
  cases found : firstRepeated? [] (enums.map EnumType.name) with
  | some name =>
    have repeated : firstRepeated? [] (enums.map EnumType.name) ≠ none := by simp [found]
    simpa [firstRepeated?_eq_none_iff] using repeated
  | none => simpa using (firstRepeated?_eq_none_iff.mp found).1

namespace Message

def FieldsDistinct (message : Message) : Prop := (message.fields.map Field.name).Nodup

/-- Whether names are distinct right inside a message: those of its fields, and of the values
    of each of its enumerations. -/
structure NamesDistinct (message : Message) : Prop where
  fields : message.FieldsDistinct
  entries : ∀ enum ∈ message.enums, enum.names.Nodup

structure TypesDistinct (message : Message) : Prop where
  enums : (message.enums.map EnumType.name).Nodup
  messages : (message.messages.map Message.name).Nodup

theorem checkFields_eq_ok_iff (message : String) (before fields : List Field)
    (distinct : (before.map Field.name).Nodup) :
    checkFields message before fields = .ok () ↔ ((before ++ fields).map Field.name).Nodup := by
  induction fields generalizing before with
  | nil => simpa [checkFields] using distinct
  | cons field rest inductionHypothesis =>
    rw [checkFields]
    cases found : before.find? fun earlier => earlier.name = field.name with
    | some earlier =>
      -- The check fails here, and the clash it found is one in the whole list.
      have member := List.mem_of_find?_eq_some found
      have same : earlier.name = field.name := by simpa using List.find?_some found
      simp only [reduceCtorEq, false_iff, List.map_append, List.map_cons]
      intro nodup
      have apart := (List.nodup_append.mp nodup).2.2 earlier.name
        (List.mem_map_of_mem member) field.name (by simp)
      exact apart same
    | none =>
      have fresh : field.name ∉ before.map Field.name := by
        intro member
        obtain ⟨earlier, listed, same⟩ := List.mem_map.mp member
        simpa [same] using List.find?_eq_none.mp found earlier listed
      have extended : ((before ++ [field]).map Field.name).Nodup := by
        rw [List.map_append, List.nodup_append]
        refine ⟨distinct, by simp, ?_⟩
        intro name member other single
        simp only [List.map_cons, List.map_nil, List.mem_singleton] at single
        subst single
        intro same
        exact fresh (same ▸ member)
      simp only [inductionHypothesis _ extended, List.append_assoc, List.cons_append,
        List.nil_append]

theorem checkAllNames_eq_ok_iff (messages : List Message) :
    checkAllNames messages = .ok () ↔ ∀ message ∈ messages, checkNames message = .ok () := by
  induction messages with
  | nil => simp [checkAllNames]
  | cons message rest inductionHypothesis =>
    rw [checkAllNames, seq_eq_ok_iff, inductionHypothesis, List.forall_mem_cons]

theorem checkNames_eq_ok_iff {message : Message} :
    message.checkNames = .ok () ↔
      ∀ inner : Message, inner.Within message → inner.NamesDistinct := by
  induction message using Message.induction with
  | step message inductionHypothesis =>
    obtain ⟨name, fields, messages, enums⟩ := message
    have own : checkFields name [] fields = .ok () ↔
        FieldsDistinct ⟨name, fields, messages, enums⟩ :=
      checkFields_eq_ok_iff name [] fields List.nodup_nil
    rw [checkNames, seq_eq_ok_iff, seq_eq_ok_iff, own, forM_eq_ok_iff, checkAllNames_eq_ok_iff,
      forall_within_iff, forall₂_congr fun nested declared => inductionHypothesis nested declared]
    simp only [EnumType.checkNames_eq_ok_iff]
    constructor
    · rintro ⟨fields, entries, nested⟩
      exact ⟨⟨fields, entries⟩, nested⟩
    · rintro ⟨⟨fields, entries⟩, nested⟩
      exact ⟨fields, entries, nested⟩

theorem checkScopes_eq_ok_iff (scope : Scope) {before : List String} {messages : List Message}
    (distinct : before.Nodup) :
    checkScopes scope before messages = .ok () ↔
      (before ++ messages.map Message.name).Nodup ∧
        ∀ message ∈ messages, message.checkScope = .ok () := by
  induction messages generalizing before with
  | nil => simpa [checkScopes] using distinct
  | cons message rest inductionHypothesis =>
    rw [checkScopes, seq_eq_ok_iff, List.forall_mem_cons, List.map_cons]
    by_cases known : message.name ∈ before
    · have clash : ¬ (before ++ message.name :: rest.map Message.name).Nodup := by
        intro nodup
        exact (List.nodup_append.mp nodup).2.2 _ known _ List.mem_cons_self rfl
      simp [known, clash]
    · have extended : (before ++ [message.name]).Nodup := by
        simp only [List.nodup_append, List.mem_singleton]
        exact ⟨distinct, List.nodup_singleton _, by rintro name listed _ rfl rfl; exact known listed⟩
      simp only [List.contains_iff_mem, known, if_false, inductionHypothesis extended,
        List.append_assoc, List.singleton_append]
      exact and_left_comm

theorem checkScope_eq_ok_iff {message : Message} :
    message.checkScope = .ok () ↔
      ∀ inner : Message, inner.Within message → inner.TypesDistinct := by
  induction message using Message.induction with
  | step message inductionHypothesis =>
    obtain ⟨name, fields, messages, enums⟩ := message
    rw [checkScope, seq_eq_ok_iff, checkEnumScope_eq_ok_iff,
      checkScopes_eq_ok_iff (.message name) List.nodup_nil, forall_within_iff,
      forall₂_congr fun nested declared => inductionHypothesis nested declared]
    constructor
    · rintro ⟨enums, messages, nested⟩
      exact ⟨⟨enums, messages⟩, nested⟩
    · rintro ⟨⟨enums, messages⟩, nested⟩
      exact ⟨enums, messages, nested⟩

end Message

namespace Schema

variable {schema : Schema}

theorem checkNames_eq_ok_iff :
    schema.checkNames = .ok () ↔ (∀ enum ∈ schema.enums, enum.names.Nodup) ∧
      ∀ message ∈ schema.messages,
        ∀ inner : Message, inner.Within message → inner.NamesDistinct := by
  rw [checkNames, seq_eq_ok_iff, forM_eq_ok_iff, Message.checkAllNames_eq_ok_iff]
  simp only [EnumType.checkNames_eq_ok_iff, Message.checkNames_eq_ok_iff]

theorem checkScopes_eq_ok_iff :
    schema.checkScopes = .ok () ↔ (schema.enums.map EnumType.name).Nodup ∧
      (schema.messages.map Message.name).Nodup ∧
      ∀ message ∈ schema.messages,
        ∀ inner : Message, inner.Within message → inner.TypesDistinct := by
  rw [checkScopes, seq_eq_ok_iff, checkEnumScope_eq_ok_iff,
    Message.checkScopes_eq_ok_iff .schema List.nodup_nil]
  simp only [Message.checkScope_eq_ok_iff, List.nil_append]

/-- Every message of a checked schema, at any depth, has distinct fields. -/
theorem fieldsDistinct_of_checkNames (checked : schema.checkNames = .ok ()) :
    ∀ entry ∈ (Catalog.ofSchema schema).entries, entry.message.FieldsDistinct := by
  intro entry listed
  obtain ⟨message, top, within⟩ := Catalog.exists_within_of_mem listed
  exact ((checkNames_eq_ok_iff.mp checked).2 message top entry.message within).fields

theorem typesDistinct_of_checkScopes (checked : schema.checkScopes = .ok ()) :
    ∀ entry ∈ (Catalog.ofSchema schema).entries, entry.message.TypesDistinct := by
  intro entry listed
  obtain ⟨message, top, within⟩ := Catalog.exists_within_of_mem listed
  exact (checkScopes_eq_ok_iff.mp checked).2.2 message top entry.message within

theorem topLevel_names_nodup (checked : schema.checkScopes = .ok ()) :
    ((Catalog.ofSchema schema).topLevel.map fun root => root.1.message.name).Nodup := by
  have names := (checkScopes_eq_ok_iff.mp checked).2.1
  rw [← Catalog.topLevel_messages schema, List.map_map] at names
  exact names

end Schema

end PayloadSchema
