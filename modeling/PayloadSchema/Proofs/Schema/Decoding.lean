import PayloadSchema.Proofs.Schema.Presentation

/-! # Which presentations of a schema are read

An object that wraps the number of an enumeration's value is read as a JSON value before the
number is taken from it.  So of the documents that present a schema within the limit of
nesting those are read whose wrapping objects have a value, and the others are refused: a
number out of range beside a number that matters is not passed over, as it would be
everywhere else. -/

namespace PayloadSchema

section

variable {α β γ : Type}

theorem forall₂_of_mapM {related related' : α → γ → Prop} {read : γ → Option β}
    {items : List α} {written : List γ} {others : List β}
    (each : List.Forall₂ related items written) (found : written.mapM read = some others)
    (refines : ∀ {item part other}, related item part → read part = some other →
      related' item part) : List.Forall₂ related' items written := by
  induction each generalizing others with
  | nil => exact .nil
  | cons first _ inductionHypothesis =>
    simp only [List.mapM_cons, Option.bind_eq_bind, Option.bind_eq_some_iff] at found
    obtain ⟨other, own, others, rest, _⟩ := found
    exact .cons (refines first own) (inductionHypothesis rest)

namespace Document

theorem Optional.refine {holds holds' : α → Document → Prop} {read : Document → Option β}
    {default value : α} {default' other : β} {part : Option Document}
    (written : Optional default holds value part)
    (found : optional? read default' part = some other)
    (refines : ∀ {value document other}, holds value document → read document = some other →
      holds' value document) : Optional default holds' value part := by
  cases written with
  | leftOut => exact .leftOut
  | written held => exact .written (refines held found)

theorem Listed.refine {presented presented' : Nat → α → Document → Prop}
    {read : Nat → Document → Option β} {room : Nat} {items : List α} {document : Document}
    {others : List β} (listed : Listed presented room items document)
    (found : list? (inside room read) document = some others)
    (refines : ∀ {room item document other}, presented room item document →
      read room document = some other → presented' room item document) :
    Listed presented' room items document := by
  cases listed with
  | intro each => exact .intro (forall₂_of_mapM each found refines)

end Document

end

open Document

/-- Whether one condition on the objects around numbers has another one as a consequence
    wherever such an object has a value. -/
def Refines (wraps wraps' : Nat → Document → Prop) : Prop :=
  ∀ {room : Nat} {document : Document}, wraps room document → document.Readable room →
    wraps' room document

section

variable {wraps wraps' : Nat → Document → Prop} {room : Nat}

theorem EnumEntry.Presented.refine (refines : Refines wraps wraps') {entry : EnumEntry}
    {written : Option String × Document} {number : Int}
    (presented : EnumEntry.Presented wraps room entry written)
    (read : EnumType.number? room written.2 = some number) :
    EnumEntry.Presented wraps' room entry written := by
  cases presented with
  | plain integer fits => exact .plain integer fits
  | @detailed _ _ _ document integer fits record admitted =>
    -- The number is taken only from an object that has a value as a whole.
    have readable : document.Readable room := by
      obtain ⟨entries, rfl⟩ := record.isObject
      simp only [EnumType.number?] at read
      split at read
      next value _ whole _ => exact Json.readable_of_ofDocumentWithin? whole
      next => cases read
    exact .detailed integer fits record (refines admitted readable)

theorem EnumEntry.AllPresented.refine (refines : Refines wraps wraps')
    {entries others : List EnumEntry} {document : Document}
    (presented : EnumEntry.AllPresented wraps room entries document)
    (read : EnumType.entries? room document = some others) :
    EnumEntry.AllPresented wraps' room entries document := by
  cases presented with
  | intro each =>
    simp only [EnumType.entries?, inside, Option.bind_some] at read
    refine .intro (forall₂_of_mapM each read fun presented found => ?_)
    split at found
    next number => exact presented.refine refines number
    next => cases found

theorem EnumType.Presented.refine (refines : Refines wraps wraps') {enum other : EnumType}
    {document : Document} (presented : EnumType.Presented wraps room enum document)
    (read : EnumType.ofDocumentWithin? room document = some other) :
    EnumType.Presented wraps' room enum document := by
  cases presented with
  | intro record listed =>
    simp only [ofDocumentWithin?, record.parts?_eq (by decide), Option.bind_eq_bind,
      Option.bind_eq_some_iff] at read
    obtain ⟨_, _, _, entries, _⟩ := read
    exact .intro record (listed.refine entries fun all found => all.refine refines found)

mutual

theorem Message.Presented.refine (refines : Refines wraps wraps') : ∀ {room : Nat}
    {message other : Message} {document : Document},
      Message.Presented wraps room message document →
      Message.ofDocumentWithin? room document = some other →
      Message.Presented wraps' room message document
  | _, _, _, _, .intro record fieldsWritten messagesWritten enumsWritten, read => by
    rw [Message.ofDocumentWithin?_of_parts (record.parts?_eq (by decide))] at read
    simp only [Option.bind_eq_bind, Option.bind_eq_some_iff] at read
    obtain ⟨_, _, _, _, _, messages, _, enums, _⟩ := read
    exact .intro record fieldsWritten (messagesWritten.refine refines messages)
      (enumsWritten.refine enums fun listed found =>
        listed.refine found (EnumType.Presented.refine refines))

theorem Message.NestedPresented.refine (refines : Refines wraps wraps') : ∀ {room : Nat}
    {messages others : List Message} {part : Option Document},
      Message.NestedPresented wraps room messages part →
      optional? (list? (inside room Message.ofDocumentWithin?)) [] part = some others →
      Message.NestedPresented wraps' room messages part
  | _, _, _, _, .leftOut, _ => .leftOut
  | _, _, _, _, .written each, read => .written (each.refine refines read)

theorem Message.AllPresented.refine (refines : Refines wraps wraps') : ∀ {room : Nat}
    {messages others : List Message} {documents : List Document},
      Message.AllPresented wraps room messages documents →
      documents.mapM (Message.ofDocumentWithin? room) = some others →
      Message.AllPresented wraps' room messages documents
  | _, _, _, _, .nil, _ => .nil
  | _, _, _, _, .cons first rest, read => by
    simp only [List.mapM_cons, Option.bind_eq_bind, Option.bind_eq_some_iff] at read
    obtain ⟨_, own, _, later, _⟩ := read
    exact .cons (first.refine refines own) (rest.refine refines later)

end

theorem Schema.Presented.refine (refines : Refines wraps wraps') {schema other : Schema}
    {document : Document} (presented : Schema.Presented wraps room schema document)
    (read : Schema.ofDocumentWithin? room document = some other) :
    Schema.Presented wraps' room schema document := by
  cases presented with
  | intro record messagesWritten enumsWritten =>
    simp only [ofDocumentWithin?, record.parts?_eq (by decide), Option.bind_eq_bind,
      Option.bind_eq_some_iff] at read
    obtain ⟨_, messages, _, enums, _⟩ := read
    exact .intro record
      (messagesWritten.refine messages fun listed found =>
        listed.refine found (Message.Presented.refine refines))
      (enumsWritten.refine enums fun listed found =>
        listed.refine found (EnumType.Presented.refine refines))

end

/-- Of the texts that present a schema, those are read in which every object around a number
    has a value, and they are read as that schema.  Every other one is refused. -/
theorem Schema.parse?_presented {text : String} {document : Document} {schema : Schema}
    (read : Document.read? text = some document)
    (presented : Schema.Presented Document.Nests nestingLimit schema document) :
    (Schema.parse? text = some schema ↔
      Schema.Presented Document.Readable nestingLimit schema document) ∧
    (Schema.parse? text = none ↔
      ¬ Schema.Presented Document.Readable nestingLimit schema document) := by
  have whole : Schema.parse? text = Schema.ofDocumentWithin? nestingLimit document := by
    rw [parse?, read, Option.bind_some]
    rfl
  -- Whatever schema is read, the document presents the given one, which then is what is read.
  have readable {other : Schema} (found : Schema.parse? text = some other) :
      Schema.Presented Document.Readable nestingLimit schema document :=
    presented.refine (fun _ readable => readable) (whole ▸ found)
  have kept (settled : Schema.Presented Document.Readable nestingLimit schema document) :
      Schema.parse? text = some schema := whole.trans settled.ofDocumentWithin?_eq
  refine ⟨⟨readable, kept⟩, ?_, ?_⟩
  · intro refused settled
    cases refused.symm.trans (kept settled)
  · intro unsettled
    exact Option.eq_none_iff_forall_ne_some.mpr fun _ found => unsettled (readable found)

namespace Schema

def shirts : Schema where
  messages := [
    { name := "Shirt"
      fields := [{ name := "color", typeName := "Color", default := some "RED" },
        { name := "sizes", typeName := "uint32", repeated := true }]
      messages := [{ name := "Label" }]
      enums := [{ name := "Color", entries := [⟨"RED", 0⟩, ⟨"BLUE", -1⟩, ⟨"RED", 0⟩] }] }]

/-- The shirts with their keys out of order, under both kinds of names, and with more. -/
def shirtsText : String :=
  "\x7b\"package\": [\"shop\", \x7b\x7d], \"messages\": [\x7b\"fields\": [" ++
  "\x7b\"name\": \"color\", \"type\": \"Color\", \"oneof\": null, " ++
  "\"options\": \x7b\"packed\": true, \"default\": \"RED\"\x7d\x7d, " ++
  "\x7b\"type\": \"uint32\", \"name\": \"sizes\", \"repeated\": true, \"required\": false\x7d], " ++
  "\"name\": \"Shirt\", \"nestedMessages\": [\x7b\"name\": \"Label\"\x7d], " ++
  "\"enums\": [\x7b\"values\": \x7b\"RED\": \x7b\"options\": null, \"value\": 0\x7d, " ++
  "\"BLUE\": -1, \"RED\": 0\x7d, \"name\": \"Color\"\x7d], \"tag\": 7\x7d]\x7d"

def shirtsDocument : Document :=
  let integer (negative : Bool) (digit : Char) : Document :=
    .number ⟨negative, [digit], [], 0, true⟩
  let text (content : String) : Document := .string (some content)
  let color : Document := .object [(some "name", text "color"), (some "type", text "Color"),
    (some "oneof", .null),
    (some "options", .object [(some "packed", .bool true), (some "default", text "RED")])]
  let sizes : Document := .object [(some "type", text "uint32"), (some "name", text "sizes"),
    (some "repeated", .bool true), (some "required", .bool false)]
  let red : Document := .object [(some "options", .null), (some "value", integer false '0')]
  let colors : Document := .object [
    (some "values", .object [(some "RED", red), (some "BLUE", integer true '1'),
      (some "RED", integer false '0')]),
    (some "name", text "Color")]
  let shirt : Document := .object [(some "fields", .array [color, sizes]),
    (some "name", text "Shirt"),
    (some "nestedMessages", .array [.object [(some "name", text "Label")]]),
    (some "enums", .array [colors]), (some "tag", integer false '7')]
  .object [(some "package", .array [text "shop", .object []]), (some "messages", .array [shirt])]

theorem append_eq_ofList {first second : String} {letters others : List Char}
    (spelled : first = String.ofList letters) (followed : second = String.ofList others) :
    first ++ second = String.ofList (letters ++ others) := by
  rw [spelled, followed, String.ofList_append]

set_option maxRecDepth 2000 in
theorem shirtsText_read : Document.read? shirtsText = some shirtsDocument := by
  -- The letters of a text are in reach of evaluation, unlike its bytes.
  have spelled : shirtsText = _ :=
    append_eq_ofList (append_eq_ofList (append_eq_ofList (append_eq_ofList
      (append_eq_ofList (append_eq_ofList rfl rfl) rfl) rfl) rfl) rfl) rfl
  rw [Document.read?, Token.scan?, spelled, String.toList_ofList]
  rfl

theorem shirts_presented :
    Schema.Presented Document.Readable nestingLimit shirts shirtsDocument := by
  refine .intro (.intro (.written (by decide) (.leftOut .done)) ?_ (.swap _ _ _))
    (.written (.intro (.cons ?shirt .nil))) .leftOut
  · decide
  case shirt =>
    refine .intro (.intro (.written ?_ (.written ?_ (.written ?_ (.written ?_ .done)))) ?_
        (.swap _ _ _))
      (.written (.intro (.cons ?color (.cons ?sizes .nil)))) (.written (.cons ?label .nil))
      (.written (.intro (.cons ?colors .nil)))
    case color =>
      refine .intro (.intro (.written ?_ (.written ?_ (.leftOut (.leftOut
          (.written ?_ (.written ?_ .done)))))) ?_ (.refl _))
        .leftOut .leftOut (.written .null) (.written ?options)
      case options =>
        refine .intro (.intro (.written ?_ .done) ?_ (.swap _ _ _)) (.written (.written rfl))
        all_goals decide
      all_goals decide
    case sizes =>
      refine .intro (.intro (.written ?_ (.written ?_ (.written ?_ (.written ?_
          (.leftOut (.leftOut .done)))))) ?_ (.swap _ _ _))
        (.written rfl) (.written rfl) .leftOut .leftOut
      all_goals decide
    case label =>
      refine .intro (.intro (.written ?_ (.leftOut (.leftOut (.leftOut .done)))) ?_ (.refl _))
        .leftOut .leftOut .leftOut
      all_goals decide
    case colors =>
      refine .intro (.intro (.written ?_ (.written ?_ .done)) ?_ (.swap _ _ _))
        (.written (.intro (.cons ?red (.cons (.plain ?_ ?_) (.cons (.plain ?_ ?_) .nil)))))
      case red =>
        refine .detailed ?_ ?_ (.intro (.written ?_ .done) ?_ (.swap _ _ _)) (.object ?_ ?each)
        case each =>
          have read : Numeral.number? ⟨false, ['0'], [], 0, true⟩ = some (.int 0) := by decide
          exact List.forall_mem_cons.mpr ⟨.null, List.forall_mem_singleton.mpr (.number read)⟩
        all_goals decide
      all_goals decide
    all_goals decide

/-- Both reds are there, and neither the package nor the tag matters. -/
theorem parse?_shirtsText :
    Document.read? shirtsText = some shirtsDocument ∧
      Schema.Presented Document.Nests nestingLimit shirts shirtsDocument ∧
      Schema.Presented Document.Readable nestingLimit shirts shirtsDocument ∧
      Schema.parse? shirtsText = some shirts := by
  have nested : Schema.Presented Document.Nests nestingLimit shirts shirtsDocument :=
    shirts_presented.refine (fun readable _ => readable.nests) shirts_presented.ofDocumentWithin?_eq
  exact ⟨shirtsText_read, nested, shirts_presented,
    (parse?_presented shirtsText_read nested).1.mpr shirts_presented⟩

def levels : Schema where
  enums := [{ name := "Level", entries := [⟨"LOW", 0⟩] }]

def levelsText : String :=
  "\x7b\"enums\":[\x7b\"name\":\"Level\",\"values\":" ++
  "\x7b\"LOW\":\x7b\"value\":0,\"scale\":1e999\x7d\x7d\x7d]\x7d"

def levelsDocument : Document :=
  let low : Document := .object [(some "value", .number ⟨false, ['0'], [], 0, true⟩),
    (some "scale", .number ⟨false, ['1'], [], 999, false⟩)]
  .object [(some "enums", .array [.object [(some "name", .string (some "Level")),
    (some "values", .object [(some "LOW", low)])]])]

theorem levelsText_read : Document.read? levelsText = some levelsDocument := by
  have spelled : levelsText = _ := append_eq_ofList rfl rfl
  rw [Document.read?, Token.scan?, spelled, String.toList_ofList]
  rfl

theorem levels_presented :
    Schema.Presented Document.Nests nestingLimit levels levelsDocument := by
  refine .intro (.intro (.leftOut (.written ?_ .done)) ?_ (.refl _)) .leftOut
    (.written (.intro (.cons ?level .nil)))
  case level =>
    refine .intro (.intro (.written ?_ (.written ?_ .done)) ?_ (.refl _))
      (.written (.intro (.cons ?low .nil)))
    case low =>
      refine .detailed ?_ ?_ (.intro (.written ?_ .done) ?_ (.refl _)) (.object ?each)
      case each =>
        exact List.forall_mem_cons.mpr ⟨.number _, List.forall_mem_singleton.mpr (.number _)⟩
      all_goals decide
    all_goals decide
  all_goals decide

/-- A scale out of range, under a key that no record knows, has the whole schema refused. -/
theorem levels_refused :
    Document.read? levelsText = some levelsDocument ∧
      Schema.Presented Document.Nests nestingLimit levels levelsDocument ∧
      Schema.parse? levelsText = none := by
  refine ⟨levelsText_read, levels_presented, ?_⟩
  rw [parse?, levelsText_read]
  rfl

end Schema

end PayloadSchema
