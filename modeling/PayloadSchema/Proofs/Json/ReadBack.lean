import PayloadSchema.Json.Document
import PayloadSchema.Proofs.Json.Printer
import PayloadSchema.Proofs.Json.Scan

/-! # Reading back what was written

Both texts of a value, the compact one and the one over lines, are JSON texts: they are read as
the one document that has the same structure, the same keys in the same order, and the numerals
of its numbers.  The texts differ only in the blanks behind brackets, commas and colons. -/

namespace PayloadSchema

namespace Json

mutual

/-- The document that the texts of a value write down. -/
def document : Json → Document
  | .null => .null
  | .bool value => .bool value
  | .num number => .number number.numeral
  | .str text => .string (some text)
  | .arr items => .array (documents items)
  | .obj members => .object (entries members)

def documents : List Json → List Document
  | [] => []
  | item :: rest => document item :: documents rest

def entries : Members → Document.Entries
  | [] => []
  | (key, value) :: rest => (some key, document value) :: entries rest

end

theorem entries_eq (members : Members) :
    entries members = members.map fun member => (some member.1, member.2.document) := by
  induction members with
  | nil => rfl
  | cons member rest inductionHypothesis => rw [entries, inductionHypothesis, List.map_cons]

end Json

namespace Document

open Expecting Token

/-- Whether letters scan to tokens that the reader takes for a document, whatever encloses
    it. -/
def WrittenAs (document : Document) (letters : List Char) : Prop :=
  ∃ tokens, Scans letters tokens ∧ ∀ enclosing,
    tokens.foldlM Expecting.step (.value enclosing) = some (.after document enclosing)

theorem writtenAs_of_token {letters : List Char} {token : Token} {document : Document}
    (scans : Scans letters [token])
    (begins : ∀ enclosing, begin enclosing token = some (.after document enclosing)) :
    document.WrittenAs letters :=
  ⟨[token], scans, fun enclosing => by simp [Expecting.step, begins]⟩

/-- A finished document is all that its letters say. -/
theorem WrittenAs.read? {document : Document} {text : String}
    (written : document.WrittenAs text.toList) : Document.read? text = some document := by
  obtain ⟨tokens, scans, reads⟩ := written
  obtain ⟨scan, read, closes⟩ := scans []
  simp [Document.read?, scan?, read, closes, ofTokens?, reads, finish?]

theorem WrittenAs.append_blank {document : Document} {letters : List Char}
    (written : document.WrittenAs letters) {text : String} (blank : Blank text) :
    document.WrittenAs (letters ++ text.toList) := by
  obtain ⟨tokens, scans, reads⟩ := written
  exact ⟨tokens, scans.append_blank blank, reads⟩

theorem WrittenAs.read?_line {document : Document} {text : String}
    (written : document.WrittenAs text.toList) : Document.read? (text ++ "\n") = some document := by
  refine read? ?_
  rw [String.toList_append]
  exact written.append_blank .newline

theorem foldlM_firstItem {tokens : List Token} {enclosing outer : List Enclosing}
    {document : Document}
    (reads : tokens.foldlM Expecting.step (.value (.array [] :: enclosing)) =
      some (.after document outer)) :
    tokens.foldlM Expecting.step (.firstItem enclosing) = some (.after document outer) := by
  cases tokens with
  | nil => cases reads
  | cons token rest =>
    rw [List.foldlM_cons] at reads ⊢
    obtain ⟨next, begins, others⟩ := Option.bind_eq_some_iff.mp reads
    -- Only a closing bracket is read in another way at the start, and it begins no value.
    have first : Expecting.step (.firstItem enclosing) token = some next := by
      cases token with
      | closeArray => cases begins
      | _ => exact begins
    exact Option.bind_eq_some_iff.mpr ⟨next, first, others⟩

theorem foldlM_firstKey {tokens : List Token} {enclosing outer : List Enclosing}
    {document : Document}
    (reads : tokens.foldlM Expecting.step (.key [] enclosing) = some (.after document outer)) :
    tokens.foldlM Expecting.step (.firstKey enclosing) = some (.after document outer) := by
  cases tokens with
  | nil => cases reads
  | cons token rest =>
    rw [List.foldlM_cons] at reads ⊢
    obtain ⟨next, begins, others⟩ := Option.bind_eq_some_iff.mp reads
    have first : Expecting.step (.firstKey enclosing) token = some next := by
      cases token with
      | string name => exact begins
      | _ => cases begins
    exact Option.bind_eq_some_iff.mpr ⟨next, first, others⟩

end Document

/-! ## Arrays and objects -/

namespace Json

open Document Expecting Token

section

-- How the values inside an array or an object are written, and the blanks between them.
variable {write : Json → String} {gap space : String}

/-- The items of an array between its brackets, as far as its end. -/
theorem exists_tokens_items (blank : Blank gap) {item : Json} {rest : List Json}
    (each : ∀ other ∈ item :: rest, other.document.WrittenAs (write other).toList) :
    ∃ tokens, Scans (("," ++ gap).intercalate ((item :: rest).map write)).toList tokens ∧
      ∀ before enclosing,
        (tokens ++ [Token.closeArray]).foldlM Expecting.step (.value (.array before :: enclosing)) =
          some (.after (.array (before.reverse ++ documents (item :: rest))) enclosing) := by
  -- Each item is read into those before it, so the ones before are arbitrary.
  induction rest generalizing item with
  | nil =>
    obtain ⟨tokens, scans, reads⟩ := each item List.mem_cons_self
    refine ⟨tokens, by simpa using scans, fun before enclosing => ?_⟩
    simp [List.foldlM_append, reads, Expecting.step, documents]
  | cons next rest inductionHypothesis =>
    obtain ⟨⟨tokens, scans, reads⟩, later⟩ := List.forall_mem_cons.mp each
    obtain ⟨others, scans', reads'⟩ := inductionHypothesis later
    refine ⟨tokens ++ [.comma] ++ others, ?_, fun before enclosing => ?_⟩
    · have joined := (scans.append_gap .comma blank).append_scans scans'
      simpa [String.intercalate_cons_cons] using joined
    · have continued := reads' (item.document :: before) enclosing
      rw [List.append_assoc, List.append_assoc, List.foldlM_append, reads]
      simpa [Expecting.step, documents] using continued

def memberText (write : Json → String) (space : String) (member : String × Json) : String :=
  quote member.1 ++ (":" ++ space) ++ write member.2

theorem memberText_scans (blank : Blank space) {member : String × Json} {tokens : List Token}
    (scans : Scans (write member.2).toList tokens) :
    Scans (memberText write space member).toList
      ([.string (some member.1)] ++ [.colon] ++ tokens) := by
  have joined :=
    ((quote_scansWhole member.1).scans.append_gap .colon blank).append_scans scans
  simpa [memberText] using joined

theorem exists_tokens_members (blank : Blank gap) (colon : Blank space)
    {member : String × Json} {rest : Members}
    (each : ∀ other ∈ member :: rest, other.2.document.WrittenAs (write other.2).toList) :
    ∃ tokens,
      Scans (("," ++ gap).intercalate ((member :: rest).map (memberText write space))).toList
        tokens ∧
      ∀ before enclosing,
        (tokens ++ [Token.closeObject]).foldlM Expecting.step (.key before enclosing) =
          some (.after (.object (before.reverse ++ entries (member :: rest))) enclosing) := by
  induction rest generalizing member with
  | nil =>
    obtain ⟨key, value⟩ := member
    obtain ⟨tokens, scans, reads⟩ := each _ List.mem_cons_self
    refine ⟨_, by simpa using memberText_scans colon scans, fun before enclosing => ?_⟩
    simp [reads, Expecting.step, entries]
  | cons next rest inductionHypothesis =>
    obtain ⟨key, value⟩ := member
    obtain ⟨⟨tokens, scans, reads⟩, later⟩ := List.forall_mem_cons.mp each
    obtain ⟨others, scans', reads'⟩ := inductionHypothesis later
    refine ⟨[.string (some key)] ++ [.colon] ++ tokens ++ [.comma] ++ others, ?_,
      fun before enclosing => ?_⟩
    · have joined :=
        ((memberText_scans colon scans).append_gap .comma blank).append_scans scans'
      simpa [String.intercalate_cons_cons] using joined
    · have continued := reads' ((some key, value.document) :: before) enclosing
      simp only [List.append_assoc, List.cons_append, List.nil_append, List.foldlM_cons,
        List.foldlM_append]
      simpa [reads, Expecting.step, entries] using continued

variable {opening closing : String}

theorem writtenAs_array (blank : Blank gap) (opens : Blank opening) (closes : Blank closing)
    {item : Json} {rest : List Json}
    (each : ∀ other ∈ item :: rest, other.document.WrittenAs (write other).toList) :
    (Json.arr (item :: rest)).document.WrittenAs
      ("[" ++ opening ++ ("," ++ gap).intercalate ((item :: rest).map write) ++ closing ++
        "]").toList := by
  obtain ⟨tokens, scans, reads⟩ := exists_tokens_items blank each
  refine ⟨[.openArray] ++ (tokens ++ [.closeArray]), ?_, fun enclosing => ?_⟩
  · have ended := (scans.append_blank closes).append_delimiter .closeArray
    have joined := (Delimiter.openArray.scansWhole.append opens.scansWhole).append ended
    simpa using joined.scans
  · exact foldlM_firstItem (reads [] enclosing)

theorem writtenAs_object (blank : Blank gap) (colon : Blank space) (opens : Blank opening)
    (closes : Blank closing) {member : String × Json} {rest : Members}
    (each : ∀ other ∈ member :: rest, other.2.document.WrittenAs (write other.2).toList) :
    (Json.obj (member :: rest)).document.WrittenAs
      ("\x7b" ++ opening ++
        ("," ++ gap).intercalate ((member :: rest).map (memberText write space)) ++ closing ++
        "\x7d").toList := by
  obtain ⟨tokens, scans, reads⟩ := exists_tokens_members blank colon each
  refine ⟨[.openObject] ++ (tokens ++ [.closeObject]), ?_, fun enclosing => ?_⟩
  · have ended := (scans.append_blank closes).append_delimiter .closeObject
    have joined := (Delimiter.openObject.scansWhole.append opens.scansWhole).append ended
    simpa using joined.scans
  · exact foldlM_firstKey (reads [] enclosing)

end

theorem writtenAs_array_nil : (Json.arr []).document.WrittenAs "[]".toList :=
  ⟨_, (Delimiter.openArray.scansWhole.append Delimiter.closeArray.scansWhole).scans,
    fun _ => rfl⟩

theorem writtenAs_object_nil : (Json.obj []).document.WrittenAs "\x7b\x7d".toList :=
  ⟨_, (Delimiter.openObject.scansWhole.append Delimiter.closeObject.scansWhole).scans,
    fun _ => rfl⟩

theorem writtenAs (value : Json) : value.document.WrittenAs value.compact.toList := by
  induction value with
  | null => exact writtenAs_of_token (fun found => ⟨_, rfl, rfl⟩) fun _ => rfl
  | bool value =>
    cases value with
    | true => exact writtenAs_of_token (fun found => ⟨_, rfl, rfl⟩) fun _ => rfl
    | false => exact writtenAs_of_token (fun found => ⟨_, rfl, rfl⟩) fun _ => rfl
  | num number => exact writtenAs_of_token number.render_scans fun _ => rfl
  | str text => exact writtenAs_of_token (quote_scansWhole text).scans fun _ => rfl
  | arr items inductionHypothesis =>
    cases items with
    | nil => exact writtenAs_array_nil
    | cons item rest =>
      have written := writtenAs_array .nil .nil .nil inductionHypothesis
      simpa [compact, compactItems_eq] using written
  | obj members inductionHypothesis =>
    cases members with
    | nil => exact writtenAs_object_nil
    | cons member rest =>
      have written := writtenAs_object .nil .nil .nil .nil inductionHypothesis
      have texts : memberText compact "" =
          fun member => quote member.1 ++ ":" ++ compact member.2 := by
        funext member
        rw [memberText, String.append_empty]
      simpa [compact, compactMembers_eq, texts] using written

/-- A line with the compact text of a value is read as the document of that value. -/
theorem read?_compact (value : Json) :
    Document.read? (value.compact ++ "\n") = some value.document :=
  value.writtenAs.read?_line

theorem prettyItems_eq (depth : Nat) (items : List Json) :
    prettyItems depth items = items.map (pretty depth) := by
  induction items with
  | nil => rfl
  | cons item rest inductionHypothesis => simp [prettyItems, inductionHypothesis]

theorem prettyMembers_eq (depth : Nat) (members : Members) :
    prettyMembers depth members = members.map (memberText (pretty depth) " ") := by
  induction members with
  | nil => rfl
  | cons member rest inductionHypothesis =>
    simp [prettyMembers, inductionHypothesis, memberText, String.append_assoc]

theorem blank_lineBreak (depth : Nat) :
    Blank ("\n" ++ String.ofList (List.replicate (2 * depth) ' ')) := by
  intro c listed
  rw [String.toList_append, List.mem_append] at listed
  rcases listed with first | later
  · rw [List.mem_singleton.mp first]
    exact .newline
  · rw [String.toList_ofList] at later
    rw [List.eq_of_mem_replicate later]
    exact .space

theorem pretty_writtenAs (value : Json) (depth : Nat) :
    value.document.WrittenAs (value.pretty depth).toList := by
  -- The values inside stand one level deeper.
  induction value generalizing depth with
  | null => exact writtenAs .null
  | bool value => cases value <;> exact writtenAs (.bool _)
  | num number => exact writtenAs (.num number)
  | str text => exact writtenAs (.str text)
  | arr items inductionHypothesis =>
    cases items with
    | nil => exact writtenAs_array_nil
    | cons item rest =>
      have inner := blank_lineBreak (depth + 1)
      have written := writtenAs_array inner inner (blank_lineBreak depth)
        fun other listed => inductionHypothesis other listed (depth + 1)
      simpa [pretty, prettyItems_eq, enclose] using written
  | obj members inductionHypothesis =>
    cases members with
    | nil => exact writtenAs_object_nil
    | cons member rest =>
      have inner := blank_lineBreak (depth + 1)
      have written := writtenAs_object inner .space inner (blank_lineBreak depth)
        fun other listed => inductionHypothesis other listed (depth + 1)
      simpa [pretty, prettyMembers_eq, enclose] using written

end Json

end PayloadSchema
