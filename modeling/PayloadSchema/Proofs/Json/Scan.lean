import PayloadSchema.Proofs.Json.Printer

/-! # Scanning what was written

The compact text of a value is scanned to the tokens of that value.  Brackets, commas,
colons and strings end by themselves; a word or a numeral is ended by what follows it, which
is never one of its own characters. -/

namespace PayloadSchema

open Token

namespace Token

/-- Whether letters scan to tokens, up to a last word or numeral that is still open. -/
def Scans (letters : List Char) (tokens : List Token) : Prop :=
  ∀ found, ∃ scan, letters.foldlM Scan.step ⟨.none, found⟩ = some scan ∧
    scan.close = some ⟨.none, tokens.reverse ++ found⟩

/-- Whether letters scan to tokens and leave no lexeme open. -/
def ScansWhole (letters : List Char) (tokens : List Token) : Prop :=
  ∀ found, letters.foldlM Scan.step ⟨.none, found⟩ = some ⟨.none, tokens.reverse ++ found⟩

theorem ScansWhole.scans {letters : List Char} {tokens : List Token}
    (whole : ScansWhole letters tokens) : Scans letters tokens :=
  fun found => ⟨_, whole found, rfl⟩

theorem ScansWhole.append {first second : List Char} {tokens others : List Token}
    (whole : ScansWhole first tokens) (next : ScansWhole second others) :
    ScansWhole (first ++ second) (tokens ++ others) := by
  intro found
  rw [List.foldlM_append, whole found]
  simpa using next (tokens.reverse ++ found)

theorem ScansWhole.append_scans {first second : List Char} {tokens others : List Token}
    (whole : ScansWhole first tokens) (next : Scans second others) :
    Scans (first ++ second) (tokens ++ others) := by
  intro found
  obtain ⟨scan, read, closes⟩ := next (tokens.reverse ++ found)
  refine ⟨scan, ?_, by simpa using closes⟩
  rw [List.foldlM_append, whole found]
  exact read

theorem step_of_close {scan closed : Scan} (closes : scan.close = some closed) {c : Char}
    (noWord : c.isAlpha = false) (noNumeral : Scan.isNumeralChar c = false) :
    scan.step c = closed.start c := by
  obtain ⟨lexeme, tokens⟩ := scan
  -- A string that is still open does not close, so those cases do not arise.
  cases lexeme with
  | none =>
    cases closes
    rfl
  | word letters => simp [Scan.step, noWord, closes]
  | numeral written => simp [Scan.step, noNumeral, closes]
  | string pieces => cases closes
  | escape pieces => cases closes
  | unit pieces digits value => cases closes

/-- Whether a character belongs to no word and no numeral and is a token by itself, or none. -/
structure Delimiter (c : Char) (token : Option Token) : Prop where
  noWord : c.isAlpha = false
  noNumeral : Scan.isNumeralChar c = false
  starts : ∀ found, Scan.start ⟨.none, found⟩ c = some ⟨.none, token.toList ++ found⟩

namespace Delimiter

theorem openArray : Delimiter '[' (some .openArray) := ⟨by decide, by decide, fun _ => rfl⟩

theorem closeArray : Delimiter ']' (some .closeArray) := ⟨by decide, by decide, fun _ => rfl⟩

theorem openObject : Delimiter '\x7b' (some .openObject) := ⟨by decide, by decide, fun _ => rfl⟩

theorem closeObject : Delimiter '\x7d' (some .closeObject) :=
  ⟨by decide, by decide, fun _ => rfl⟩

theorem comma : Delimiter ',' (some .comma) := ⟨by decide, by decide, fun _ => rfl⟩

theorem colon : Delimiter ':' (some .colon) := ⟨by decide, by decide, fun _ => rfl⟩

theorem newline : Delimiter '\n' none := ⟨by decide, by decide, fun _ => rfl⟩

theorem space : Delimiter ' ' none := ⟨by decide, by decide, fun _ => rfl⟩

variable {c : Char} {token : Option Token}

theorem scansWhole (delimiter : Delimiter c token) : ScansWhole [c] token.toList := by
  intro found
  cases token with
  | none => simp [Scan.step, delimiter.starts]
  | some token => simp [Scan.step, delimiter.starts]

end Delimiter

/-- A delimiter ends what is still open before it. -/
theorem Scans.append_delimiter {letters : List Char} {tokens : List Token} {c : Char}
    {token : Option Token} (scans : Scans letters tokens) (delimiter : Delimiter c token) :
    ScansWhole (letters ++ [c]) (tokens ++ token.toList) := by
  intro found
  obtain ⟨scan, read, closes⟩ := scans found
  have ended := step_of_close closes delimiter.noWord delimiter.noNumeral
  cases token with
  | none => simp [read, ended, delimiter.starts]
  | some token => simp [read, ended, delimiter.starts]

def Blank (text : String) : Prop := ∀ c ∈ text.toList, Delimiter c none

theorem Blank.nil : Blank "" := by simp [Blank]

theorem Blank.space : Blank " " := by simp [Blank, Delimiter.space]

theorem Blank.newline : Blank "\n" := by simp [Blank, Delimiter.newline]

theorem Scans.append_blank {letters : List Char} {tokens : List Token}
    (scans : Scans letters tokens) {text : String} (blank : Blank text) :
    Scans (letters ++ text.toList) tokens := by
  unfold Blank at blank
  generalize text.toList = blanks at blank
  induction blanks generalizing letters with
  | nil => simpa using scans
  | cons c rest inductionHypothesis =>
    obtain ⟨first, others⟩ := List.forall_mem_cons.mp blank
    have ended : ScansWhole (letters ++ [c]) tokens := by simpa using scans.append_delimiter first
    simpa using inductionHypothesis ended.scans others

theorem Blank.scansWhole {text : String} (blank : Blank text) : ScansWhole text.toList [] := by
  unfold Blank at blank
  generalize text.toList = blanks at blank
  induction blanks with
  | nil => exact fun found => rfl
  | cons c rest inductionHypothesis =>
    obtain ⟨first, others⟩ := List.forall_mem_cons.mp blank
    exact first.scansWhole.append (inductionHypothesis others)

theorem Scans.append_gap {letters : List Char} {tokens : List Token} {c : Char}
    {token : Option Token} (scans : Scans letters tokens) (delimiter : Delimiter c token)
    {gap : String} (blank : Blank gap) :
    ScansWhole (letters ++ (c :: gap.toList)) (tokens ++ token.toList) := by
  simpa using (scans.append_delimiter delimiter).append blank.scansWhole

end Token

namespace Json

theorem hexValue?_hexDigit : ∀ n < 16, hexValue? (hexDigit n) = some n := by decide

theorem scan_escape (c : Char) (pieces : List Piece) (found : List Token) :
    (escape c).toList.foldlM Scan.step ⟨.string pieces, found⟩ =
      some ⟨.string (.char c :: pieces), found⟩ := by
  unfold escape
  iterate 7
    split
    · subst c
      rfl
  split
  -- A control character below `0x20` is two hexadecimal digits after two zeros.
  next control =>
    have first := hexValue?_hexDigit (c.toNat / 16) (by omega)
    have second := hexValue?_hexDigit (c.toNat % 16) (by omega)
    have value : 16 * (c.toNat / 16) + c.toNat % 16 = c.toNat := by omega
    have piece : Piece.ofUnit c.toNat = .char c := by
      rw [Piece.ofUnit, if_neg (by omega), Char.ofNat_toNat]
    have opened : "\\u00".toList.foldlM Scan.step ⟨.string pieces, found⟩ =
        some ⟨.unit pieces 2 0, found⟩ := rfl
    rw [String.toList_append, List.foldlM_append, opened]
    simp [Scan.step, first, second, value, piece, Scan.stay]
  next noQuote noBackslash _ _ _ _ _ printable =>
    simp [Scan.step, Char.toString, noQuote, noBackslash, printable, Scan.stay]

theorem join?_chars (letters : List Char) :
    Piece.join? (letters.map .char) = some letters := by
  induction letters with
  | nil => rfl
  | cons c rest inductionHypothesis => simp [Piece.join?, inductionHypothesis]

theorem quote_scansWhole (text : String) :
    ScansWhole (quote text).toList [.string (some text)] := by
  -- Inside the quotes each letter adds one piece, whatever was read before it.
  have inside : ∀ (letters : List Char) (pieces : List Piece) (found : List Token),
      (letters.flatMap fun c => (escape c).toList).foldlM Scan.step ⟨.string pieces, found⟩ =
        some ⟨.string ((letters.map .char).reverse ++ pieces), found⟩ := by
    intro letters
    induction letters with
    | nil => simp
    | cons c rest inductionHypothesis =>
      intro pieces found
      simp [scan_escape, inductionHypothesis]
  intro found
  have opened : Scan.step ⟨.none, found⟩ '"' = some ⟨.string [], found⟩ := rfl
  rw [quote_toList, List.foldlM_append, List.foldlM_cons, opened]
  simp [inside, Scan.step, Scan.emit, join?_chars]

end Json

namespace Token

theorem le_toNat_of_isAlpha {c : Char} (alpha : c.isAlpha = true) : 'A'.toNat ≤ c.toNat := by
  cases Bool.or_eq_true_iff.mp alpha with
  | inl upper => exact (of_decide_eq_true upper).1
  | inr lower =>
    have low := of_decide_eq_true (Bool.and_eq_true_iff.mp lower).1
    exact Nat.le_trans (by decide) (UInt32.le_iff_toNat_le.mp low)

theorem start_digit {c : Char} (digit : c.isDigit = true) (found : List Token) :
    Scan.start ⟨.none, found⟩ c = some ⟨.numeral [c], found⟩ := by
  have high : c.toNat ≤ '9'.toNat := (Char.isDigit_iff_toNat.mp digit).2
  have noWord : c.isAlpha = false := Bool.eq_false_iff.mpr fun alpha =>
    absurd (Nat.le_trans (le_toNat_of_isAlpha alpha) high) (by decide)
  unfold Scan.start
  split
  case h_12 => simp [noWord, digit, Scan.stay]
  all_goals exact absurd digit (by decide)

theorem scans_numeral {c : Char} {rest : List Char} {numeral : Numeral}
    (starts : c.isDigit = true ∨ c = '-') (all : ∀ c ∈ rest, Scan.isNumeralChar c = true)
    (read : Numeral.ofChars? (c :: rest) = some numeral) :
    Scans (c :: rest) [.number numeral] := by
  have inside : ∀ (letters written : List Char) (found : List Token),
      (∀ c ∈ letters, Scan.isNumeralChar c = true) →
        letters.foldlM Scan.step ⟨.numeral written, found⟩ =
          some ⟨.numeral (letters.reverse ++ written), found⟩ := by
    intro letters
    induction letters with
    | nil => simp
    | cons c rest inductionHypothesis =>
      intro written found numeralChars
      obtain ⟨first, others⟩ := List.forall_mem_cons.mp numeralChars
      simp [Scan.step, first, Scan.stay, inductionHypothesis _ _ others]
  intro found
  have begun : Scan.step ⟨.none, found⟩ c = some ⟨.numeral [c], found⟩ := by
    rcases starts with digit | rfl
    · exact start_digit digit found
    · rfl
  refine ⟨⟨.numeral (rest.reverse ++ [c]), found⟩, ?_, ?_⟩
  · rw [List.foldlM_cons, begun]
    exact inside rest [c] found all
  · simp [Scan.close, read, Scan.emit]

theorem scans_signed (negative : Bool) {unsigned : List Char} {numeral : Numeral}
    (starts : ∃ c rest, unsigned = c :: rest ∧ c.isDigit = true)
    (all : ∀ c ∈ unsigned, Scan.isNumeralChar c = true)
    (read : Numeral.ofChars? (Numeral.signLetters negative ++ unsigned) = some numeral) :
    Scans (Numeral.signLetters negative ++ unsigned) [.number numeral] := by
  obtain ⟨c, rest, rfl, digit⟩ := starts
  -- The first letter of the numeral is the sign, or without one the first digit.
  cases negative with
  | true => exact scans_numeral (.inr rfl) all read
  | false => exact scans_numeral (.inl digit) (List.forall_mem_cons.mp all).2 read

end Token

theorem Number.render_scans (number : Number) :
    Scans number.render.toList [.number number.numeral] := by
  obtain ⟨negative, unsigned, written, starts, all, read⟩ := number.exists_letters
  rw [written] at read ⊢
  exact scans_signed negative starts all read

end PayloadSchema
