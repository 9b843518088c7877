import PayloadSchema.Proofs.Json.Value
import PayloadSchema.Proofs.Schema.Record

/-! # Reading a schema does not depend on its presentation

Many documents write the same schema.  The keys of a record stand in any order and beside
keys that it does not know, a part that has its default may be left out, the types inside a
message go by either of two names, and the number of an enumeration's value may be wrapped
in an object.  What such an object may hold beside the number is left open here, as a
parameter of the presentations: it is the one place where more than the schema matters.
Where these objects can be read, a document is read back as the schema that it presents. -/

namespace PayloadSchema

namespace Document

/-- How a part with a default is written: not at all, or as a document that holds its value. -/
inductive Optional {α : Type} (default : α) (holds : α → Document → Prop) :
    α → Option Document → Prop where
  | leftOut : Optional default holds default none
  | written {value : α} {document : Document} (held : holds value document) :
      Optional default holds value (some document)

/-- How a part that may be missing is written if it is not left out. -/
inductive Nullable {α : Type} (holds : α → Document → Prop) : Option α → Document → Prop where
  | null : Nullable holds none .null
  | written {value : α} {document : Document} (held : holds value document) :
      Nullable holds (some value) document

/-- How a list is written within some room for nesting: as an array of its items in order. -/
inductive Listed {α : Type} (presented : Nat → α → Document → Prop) :
    Nat → List α → Document → Prop where
  | intro {room : Nat} {items : List α} {documents : List Document}
      (each : List.Forall₂ (presented room) items documents) :
      Listed presented (room + 1) items (.array documents)

def Spells (text : String) (document : Document) : Prop := document = .string (some text)

def Flags (value : Bool) (document : Document) : Prop := document = .bool value

end Document

open Document

/-- How a value of an enumeration is written, as an entry of the object of all values: with its
    number, or with an object that holds the number and is among those that `wraps` admits. -/
inductive EnumEntry.Presented (wraps : Nat → Document → Prop) :
    Nat → EnumEntry → Option String × Document → Prop where
  | plain {room : Nat} {name : String} {number : Int} {numeral : Numeral}
      (integer : numeral.int? = some number) (fits : Word.isSigned number) :
      Presented wraps room ⟨name, number⟩ (some name, .number numeral)
  | detailed {room : Nat} {name : String} {number : Int} {numeral : Numeral}
      {document : Document} (integer : numeral.int? = some number)
      (fits : Word.isSigned number)
      (record : Record [["value"]] [some (.number numeral)] document)
      (admitted : wraps room document) :
      Presented wraps room ⟨name, number⟩ (some name, document)

/-- How the values of an enumeration are written: in order, and as often as they are listed. -/
inductive EnumEntry.AllPresented (wraps : Nat → Document → Prop) :
    Nat → List EnumEntry → Document → Prop where
  | intro {room : Nat} {entries : List EnumEntry} {written : Entries}
      (each : List.Forall₂ (EnumEntry.Presented wraps room) entries written) :
      AllPresented wraps (room + 1) entries (.object written)

inductive EnumType.Presented (wraps : Nat → Document → Prop) :
    Nat → EnumType → Document → Prop where
  | intro {room : Nat} {name : String} {entries : List EnumEntry} {values : Option Document}
      {document : Document}
      (record : Record EnumType.keys [some (.string (some name)), values] document)
      (listed : Optional [] (EnumEntry.AllPresented wraps room) entries values) :
      Presented wraps (room + 1) ⟨name, entries⟩ document

inductive Field.OptionsPresented : Nat → Option String → Document → Prop where
  | intro {room : Nat} {literal : Option String} {default : Option Document}
      {document : Document} (record : Record Field.optionKeys [default] document)
      (written : Optional none (Nullable Spells) literal default) :
      OptionsPresented (room + 1) literal document

inductive Field.Presented : Nat → Field → Document → Prop where
  | intro {room : Nat} {field : Field} {repeated required group options : Option Document}
      {document : Document}
      (record : Record Field.keys [some (.string (some field.name)),
        some (.string (some field.typeName)), repeated, required, group, options] document)
      (repeatedWritten : Optional false Flags field.repeated repeated)
      (requiredWritten : Optional false Flags field.required required)
      (groupWritten : Optional none (Nullable Spells) field.group group)
      (optionsWritten : Optional none (Field.OptionsPresented room) field.default options) :
      Presented (room + 1) field document

-- A list of messages is presented like any other one, but a message has to stand in one
-- family with the lists inside it.
mutual

inductive Message.Presented (wraps : Nat → Document → Prop) :
    Nat → Message → Document → Prop where
  | intro {room : Nat} {name : String} {fields : List Field} {messages : List Message}
      {enums : List EnumType} {fieldsPart messagesPart enumsPart : Option Document}
      {document : Document}
      (record : Record Message.keys
        [some (.string (some name)), fieldsPart, messagesPart, enumsPart] document)
      (fieldsWritten : Optional [] (Listed Field.Presented room) fields fieldsPart)
      (messagesWritten : Message.NestedPresented wraps room messages messagesPart)
      (enumsWritten : Optional [] (Listed (EnumType.Presented wraps) room) enums enumsPart) :
      Message.Presented wraps (room + 1) ⟨name, fields, messages, enums⟩ document

/-- How the messages declared inside a message are written, as a part of it. -/
inductive Message.NestedPresented (wraps : Nat → Document → Prop) :
    Nat → List Message → Option Document → Prop where
  | leftOut {room : Nat} : Message.NestedPresented wraps room [] none
  | written {room : Nat} {messages : List Message} {documents : List Document}
      (each : Message.AllPresented wraps room messages documents) :
      Message.NestedPresented wraps (room + 1) messages (some (.array documents))

inductive Message.AllPresented (wraps : Nat → Document → Prop) :
    Nat → List Message → List Document → Prop where
  | nil {room : Nat} : Message.AllPresented wraps room [] []
  | cons {room : Nat} {message : Message} {messages : List Message} {document : Document}
      {documents : List Document} (first : Message.Presented wraps room message document)
      (rest : Message.AllPresented wraps room messages documents) :
      Message.AllPresented wraps room (message :: messages) (document :: documents)

end

inductive Schema.Presented (wraps : Nat → Document → Prop) : Nat → Schema → Document → Prop where
  | intro {room : Nat} {schema : Schema} {messages enums : Option Document}
      {document : Document} (record : Record Schema.keys [messages, enums] document)
      (messagesWritten :
        Optional [] (Listed (Message.Presented wraps) room) schema.messages messages)
      (enumsWritten : Optional [] (Listed (EnumType.Presented wraps) room) schema.enums enums) :
      Presented wraps (room + 1) schema document

/-! ## Reading parts -/

namespace Document

variable {α : Type} {holds : α → Document → Prop} {read : Document → Option α}

theorem Optional.optional?_eq {default value : α} {part : Option Document}
    (written : Optional default holds value part)
    (reads : ∀ {value document}, holds value document → read document = some value) :
    optional? read default part = some value := by
  cases written with
  | leftOut => rfl
  | written held => exact reads held

theorem Nullable.nullable?_eq {value : Option α} {document : Document}
    (written : Nullable holds value document) (notNull : read .null = none)
    (reads : ∀ {value document}, holds value document → read document = some value) :
    nullable? read document = some value := by
  cases written with
  | null => rfl
  | @written value document held =>
    have found := reads held
    cases document with
    | null => cases notNull.symm.trans found
    | _ => simp [nullable?, found]

theorem Listed.list?_eq {presented : Nat → α → Document → Prop}
    {read : Nat → Document → Option α} {room : Nat} {items : List α} {document : Document}
    (listed : Listed presented room items document)
    (reads : ∀ {room item document}, presented room item document →
      read room document = some item) :
    list? (inside room read) document = some items := by
  cases listed with
  | intro each =>
    exact mapM_eq_some_of_forall₂ (each.flip.imp fun _ _ presented => reads presented)

theorem Spells.text?_eq {text : String} {document : Document} (spells : Spells text document) :
    text? document = some text := by
  cases spells
  rfl

theorem Spells.literal?_eq {text : String} {document : Document} (spells : Spells text document) :
    literal? document = some text := by
  cases spells
  rfl

theorem Flags.flag?_eq {value : Bool} {document : Document} (flags : Flags value document) :
    flag? document = some value := by
  cases flags
  rfl

end Document

theorem Document.signed?_number {numeral : Numeral} {number : Int}
    (integer : numeral.int? = some number) (fits : Word.isSigned number) :
    signed? (.number numeral) = some number := by
  simp [signed?, integer, Option.filter_some, fits]

theorem EnumEntry.Presented.read {room : Nat} {entry : EnumEntry}
    {written : Option String × Document}
    (presented : EnumEntry.Presented Document.Readable room entry written) :
    written.1 = some entry.name ∧ EnumType.number? room written.2 = some entry.number := by
  cases presented with
  | plain integer fits => exact ⟨rfl, signed?_number integer fits⟩
  | detailed integer fits record readable =>
    obtain ⟨entries, rfl⟩ := record.isObject
    obtain ⟨value, whole⟩ := Json.exists_ofDocumentWithin? readable
    cases record.holding_eq (by decide) with
    | cons held _ =>
      refine ⟨rfl, ?_⟩
      simp only [EnumType.number?, whole, held]
      exact signed?_number integer fits

theorem EnumEntry.AllPresented.entries?_eq {room : Nat} {entries : List EnumEntry}
    {document : Document}
    (presented : EnumEntry.AllPresented Document.Readable room entries document) :
    EnumType.entries? room document = some entries := by
  cases presented with
  | intro each =>
    refine mapM_eq_some_of_forall₂ (each.flip.imp fun written entry presented => ?_)
    obtain ⟨name, number⟩ := presented.read
    rw [name, number]

theorem EnumType.Presented.ofDocumentWithin?_eq {room : Nat} {enum : EnumType}
    {document : Document} (presented : EnumType.Presented Document.Readable room enum document) :
    EnumType.ofDocumentWithin? room document = some enum := by
  cases presented with
  | intro record listed =>
    have entries := listed.optional?_eq EnumEntry.AllPresented.entries?_eq
    simp [ofDocumentWithin?, record.parts?_eq (by decide), required?, text?, entries]

theorem Field.OptionsPresented.optionsWithin?_eq {room : Nat} {literal : Option String}
    {document : Document} (presented : Field.OptionsPresented room literal document) :
    Field.optionsWithin? room document = some literal := by
  cases presented with
  | intro record written =>
    simp only [optionsWithin?, record.parts?_eq (by decide)]
    exact written.optional?_eq fun held => held.nullable?_eq rfl Spells.literal?_eq

theorem Field.Presented.ofDocumentWithin?_eq {room : Nat} {field : Field} {document : Document}
    (presented : Field.Presented room field document) :
    Field.ofDocumentWithin? room document = some field := by
  cases presented with
  | intro record repeatedWritten requiredWritten groupWritten optionsWritten =>
    have repeated := repeatedWritten.optional?_eq Flags.flag?_eq
    have required := requiredWritten.optional?_eq Flags.flag?_eq
    have group := groupWritten.optional?_eq fun held => held.nullable?_eq rfl Spells.text?_eq
    have default := optionsWritten.optional?_eq OptionsPresented.optionsWithin?_eq
    simp [ofDocumentWithin?, record.parts?_eq (by decide), required?, text?, repeated, required,
      group, default]

theorem Message.ofDocumentWithin?_of_parts {room : Nat} {document : Document}
    {name fields messages enums : Option Document}
    (found : parts? keys document = some [name, fields, messages, enums]) :
    Message.ofDocumentWithin? (room + 1) document = (do
      let name ← required? text? name
      let fields ← optional? (list? (inside room Field.ofDocumentWithin?)) [] fields
      let messages ← optional? (list? (inside room Message.ofDocumentWithin?)) [] messages
      let enums ← optional? (list? (inside room EnumType.ofDocumentWithin?)) [] enums
      pure { name, fields, messages, enums }) := by
  rw [Message.ofDocumentWithin?.eq_def]
  simp only [found]
  cases room <;> rfl

mutual

theorem Message.Presented.ofDocumentWithin?_eq : ∀ {room : Nat} {message : Message}
    {document : Document}, Message.Presented Document.Readable room message document →
      Message.ofDocumentWithin? room document = some message
  | _, _, _, .intro record fieldsWritten messagesWritten enumsWritten => by
    have fields := fieldsWritten.optional?_eq
      fun listed => listed.list?_eq Field.Presented.ofDocumentWithin?_eq
    have messages := messagesWritten.optional?_eq
    have enums := enumsWritten.optional?_eq
      fun listed => listed.list?_eq EnumType.Presented.ofDocumentWithin?_eq
    rw [Message.ofDocumentWithin?_of_parts (record.parts?_eq (by decide))]
    simp [required?, text?, fields, messages, enums]

theorem Message.NestedPresented.optional?_eq : ∀ {room : Nat} {messages : List Message}
    {part : Option Document}, Message.NestedPresented Document.Readable room messages part →
      optional? (list? (inside room Message.ofDocumentWithin?)) [] part = some messages
  | _, _, _, .leftOut => rfl
  | _, _, _, .written each => each.mapM_eq

theorem Message.AllPresented.mapM_eq : ∀ {room : Nat} {messages : List Message}
    {documents : List Document}, Message.AllPresented Document.Readable room messages documents →
      documents.mapM (Message.ofDocumentWithin? room) = some messages
  | _, _, _, .nil => rfl
  | _, _, _, .cons first rest => by
    rw [List.mapM_cons, first.ofDocumentWithin?_eq, rest.mapM_eq]
    rfl

end

theorem Schema.Presented.ofDocumentWithin?_eq {room : Nat} {schema : Schema}
    {document : Document} (presented : Schema.Presented Document.Readable room schema document) :
    Schema.ofDocumentWithin? room document = some schema := by
  cases presented with
  | intro record messagesWritten enumsWritten =>
    have messages := messagesWritten.optional?_eq
      fun listed => listed.list?_eq Message.Presented.ofDocumentWithin?_eq
    have enums := enumsWritten.optional?_eq
      fun listed => listed.list?_eq EnumType.Presented.ofDocumentWithin?_eq
    simp [ofDocumentWithin?, record.parts?_eq (by decide), messages, enums]

end PayloadSchema
