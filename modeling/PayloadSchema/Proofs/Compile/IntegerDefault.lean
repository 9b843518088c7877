import PayloadSchema.Proofs.Compile.Steps
import PayloadSchema.Proofs.Json.Numeral
import PayloadSchema.Proofs.Schema.IntegerLiteral
import PayloadSchema.Schema.Reading

/-! # Defaults of integer fields are exact

The default of a field of an integer type is written as a text or as a number.  A number is kept
as its text, so both come to the reader of literals, which takes just the integers in range of the
type.  A number that is no 64-bit integer is kept in double precision, whose text always has a
fraction or an exponent, and is refused: nothing is rounded to an integer on the way. -/

namespace PayloadSchema

namespace Numeral

/-- Whether letters have no fraction and no exponent. -/
def IsWhole (letters : List Char) : Prop := ∀ c ∈ letters, c ≠ '.' ∧ c ≠ 'e' ∧ c ≠ 'E'

instance IsWhole.decidable (letters : List Char) : Decidable (IsWhole letters) :=
  List.decidableBAll _ letters

/-- The integer that a number without fraction and exponent stands for. -/
def writtenInteger : List Char → Int
  | '-' :: digits => -numberOfDigits digits
  | digits => numberOfDigits digits

variable {letters : List Char} {numeral : Numeral}

theorem exists_mark_of_exponentPart? {exponent : Int} (nonempty : letters ≠ [])
    (marked : Decimal.exponentPart? letters = some exponent) :
    ∃ mark ∈ letters, mark = '.' ∨ mark = 'e' ∨ mark = 'E' := by
  obtain ⟨mark, written, rfl⟩ := List.exists_cons_of_ne_nil nonempty
  rw [Decimal.exponentPart?] at marked
  split at marked
  next stands => exact ⟨mark, List.mem_cons_self, .inr stands⟩
  next => cases marked

theorem ofUnsigned?_eq_some {negative : Bool} (read : ofUnsigned? negative letters = some numeral) :
    ∃ whole rest, letters = whole ++ rest ∧ WholePart whole ∧
      (rest = [] ∧ numeral = ⟨negative, whole, [], 0, true⟩ ∨
        numeral.plain = false ∧ ∃ mark ∈ rest, mark = '.' ∨ mark = 'e' ∨ mark = 'E') := by
  unfold ofUnsigned? at read
  dsimp only at read
  split at read
  next => cases read
  next wellFormed =>
    simp only [Bool.or_eq_true, List.isEmpty_iff, Bool.and_eq_true, decide_eq_true_eq, not_or,
      not_and, not_not] at wellFormed
    refine ⟨letters.takeWhile Char.isDigit, letters.dropWhile Char.isDigit,
      List.takeWhile_append_dropWhile.symm,
      ⟨wellFormed.1, fun c listed => List.mem_takeWhile_imp listed, wellFormed.2⟩, ?_⟩
    split at read
    next ended =>
      cases read
      exact .inl ⟨ended, rfl⟩
    next fraction =>
      split at read
      next => cases read
      next =>
        obtain ⟨exponent, _, same⟩ := Option.bind_eq_some_iff.mp read
        cases same
        exact .inr ⟨rfl, '.', by simp [fraction], .inl rfl⟩
    next nonempty _ =>
      obtain ⟨exponent, marked, same⟩ := Option.bind_eq_some_iff.mp read
      cases same
      exact .inr ⟨rfl, exists_mark_of_exponentPart? nonempty marked⟩

/-- What a numeral is read from: a sign, a whole part, and a fraction or an exponent unless the
    numeral is plain. -/
theorem ofChars?_eq_some (read : ofChars? letters = some numeral) :
    ∃ negative whole rest, letters = signLetters negative ++ (whole ++ rest) ∧ WholePart whole ∧
      (rest = [] ∧ numeral = ⟨negative, whole, [], 0, true⟩ ∨
        numeral.plain = false ∧ ∃ mark ∈ rest, mark = '.' ∨ mark = 'e' ∨ mark = 'E') := by
  unfold ofChars? at read
  split at read
  next unsigned =>
    obtain ⟨whole, rest, rfl, wholePart, form⟩ := ofUnsigned?_eq_some read
    exact ⟨true, whole, rest, rfl, wholePart, form⟩
  next =>
    obtain ⟨whole, rest, rfl, wholePart, form⟩ := ofUnsigned?_eq_some read
    exact ⟨false, whole, rest, rfl, wholePart, form⟩

theorem isWhole_of_wholePart (negative : Bool) {whole : List Char} (wholePart : WholePart whole) :
    IsWhole (signLetters negative ++ whole) := by
  intro c listed
  rcases List.mem_append.mp listed with sign | digit
  · cases negative with
    | true =>
      rw [List.mem_singleton.mp sign]
      decide
    | false => cases sign
  · have digit := wholePart.digits c digit
    refine ⟨?_, ?_, ?_⟩
    all_goals
      rintro rfl
      exact absurd digit (by decide)

theorem writtenInteger_eq (negative : Bool) {whole : List Char} (wholePart : WholePart whole) :
    writtenInteger (signLetters negative ++ whole) =
      if negative then -(numberOfDigits whole : Int) else numberOfDigits whole := by
  cases negative with
  | true => rfl
  | false =>
    obtain ⟨split, noMinus⟩ := WritesInteger.splitSign_of_digits wholePart.nonempty wholePart.digits
    rw [signLetters, if_neg Bool.false_ne_true, List.nil_append]
    unfold writtenInteger
    split
    next => exact absurd rfl noMinus
    next => rfl

theorem numberOfDigits_eq_zero_iff {whole : List Char} (wholePart : WholePart whole) :
    numberOfDigits whole = 0 ↔ whole = ['0'] := by
  constructor
  · intro zero
    obtain ⟨c, rest, rfl⟩ := List.exists_cons_of_ne_nil wholePart.nonempty
    have ⟨low, _⟩ := Char.isDigit_iff_toNat.mp (wholePart.digits c List.mem_cons_self)
    have first : c.toNat - '0'.toNat = 0 := by
      simp only [numberOfDigits, List.reverse_cons, List.map_append, List.map_cons, List.map_nil,
        Nat.ofDigits_append, Nat.ofDigits_singleton, Nat.add_eq_zero_iff, Nat.mul_eq_zero,
        List.length_map] at zero
      exact zero.2.resolve_left (Nat.ne_of_gt (Nat.pow_pos (by decide)))
    have same : c = '0' := Char.toNat_inj.mp (by omega)
    exact wholePart.noLeadingZero (same ▸ rfl)
  · rintro rfl
    rfl

/-- Which letters are read as an integer: those without fraction and exponent that are in the
    range of 64 bits, with a sign or without, and not a negative zero. -/
theorem int?_eq_some_iff (read : ofChars? letters = some numeral) {n : Int} :
    numeral.int? = some n ↔ IsWhole letters ∧ letters ≠ ['-', '0'] ∧ n = writtenInteger letters ∧
      (FitsInteger true n ∨ FitsInteger false n) := by
  obtain ⟨negative, whole, rest, rfl, wholePart, form⟩ := ofChars?_eq_some read
  rcases form with ⟨rfl, rfl⟩ | ⟨notPlain, mark, listed, marked⟩
  · rw [List.append_nil]
    simp only [isWhole_of_wholePart negative wholePart, writtenInteger_eq negative wholePart,
      true_and]
    have magnitude := digitsValue_eq_numberOfDigits whole
    cases negative with
    | true =>
      have nonzero : signLetters true ++ whole ≠ ['-', '0'] ↔ numberOfDigits whole ≠ 0 := by
        rw [Ne, Ne, numberOfDigits_eq_zero_iff wholePart]
        simp [signLetters]
      simp only [int?, magnitude, nonzero, Bool.not_true,
        Bool.false_eq_true, if_false, if_true, Option.ite_none_right_eq_some, Option.some.injEq,
        ne_eq, Int.natCast_eq_zero, and_assoc]
      refine and_congr_right fun positive => ?_
      rw [and_comm, eq_comm]
      refine and_congr_right fun same => ?_
      rw [← same, ← fitsInteger_false_iff, fitsInteger_or_iff_of_neg (by omega)]
    | false =>
      have positive : signLetters false ++ whole ≠ ['-', '0'] := by
        rintro rfl
        exact absurd (wholePart.digits '-' List.mem_cons_self) (by decide)
      simp only [int?, magnitude, Bool.not_true,
        Bool.false_eq_true, if_false, Option.ite_none_right_eq_some, Option.some.injEq, positive,
        ne_eq, not_false_eq_true, true_and]
      rw [and_comm, eq_comm]
      refine and_congr_right fun same => ?_
      rw [← same, ← fitsInteger_true_iff, fitsInteger_or_iff_of_nonneg (by omega)]
  · have fraction : ¬ IsWhole (signLetters negative ++ (whole ++ rest)) := by
      intro isWhole
      obtain ⟨noPoint, noMark, noMark'⟩ := isWhole mark (by simp [listed])
      exact marked.elim noPoint fun exponent => exponent.elim noMark noMark'
    simp [int?, notPlain, fraction]

end Numeral

/-! ## The text of a number as a literal -/

section

variable {unsigned : Bool} {n m : Int}

theorem StatesInteger.letters {literal : String} (states : StatesInteger unsigned literal n) :
    ∀ c ∈ literal.toList, Text.isBlank c = true ∨ c.isDigit = true ∨ c = '+' ∨ c = '-' := by
  obtain ⟨before, core, after, split, blankBefore, blankAfter, writes, _⟩ := states
  have inside : ∀ c ∈ core, c.isDigit = true ∨ c = '+' ∨ c = '-' := by
    intro c listed
    cases writes with
    | bare _ all => exact .inl (all c listed)
    | plus _ all =>
      cases List.mem_cons.mp listed with
      | inl sign => exact .inr (.inl sign)
      | inr digit => exact .inl (all c digit)
    | minus _ _ all =>
      cases List.mem_cons.mp listed with
      | inl sign => exact .inr (.inr sign)
      | inr digit => exact .inl (all c digit)
  rw [split]
  intro c listed
  rcases List.mem_append.mp listed with first | last
  · rcases List.mem_append.mp first with blank | own
    · exact .inl (blankBefore c blank)
    · exact .inr (inside c own)
  · exact .inl (blankAfter c last)

theorem Numeral.FloatForm.exists_mark {letters : List Char} (form : Numeral.FloatForm letters) :
    ∃ mark ∈ letters, mark = '.' ∨ mark = 'e' := by
  cases form with
  | fraction => exact ⟨'.', by simp, .inl rfl⟩
  | exponent _ nonempty part =>
    cases part with
    | none => exact absurd rfl nonempty
    | signed => exact ⟨'e', by simp, .inr rfl⟩

theorem integer?_render_float (x : Binary64) :
    LiteralKind.integer? unsigned x.render = none := by
  rw [Option.eq_none_iff_forall_ne_some]
  intro n read
  obtain ⟨letters, written, form⟩ := x.exists_render
  obtain ⟨mark, listed, marked⟩ := form.exists_mark
  have states := LiteralKind.integer?_eq_some_iff.mp read
  have inside := states.letters mark (by simp [written, listed])
  rcases marked with rfl | rfl
  · exact absurd inside (by decide)
  · exact absurd inside (by decide)

theorem writesInteger_toString (allowed : unsigned = true → 0 ≤ n) :
    WritesInteger unsigned (toString n).toList n := by
  have digits := isDigit_toDigits n.natAbs
  have nonempty : Nat.toDigits 10 n.natAbs ≠ [] := Nat.toDigits_ne_nil
  have value : numberOfDigits (Nat.toDigits 10 n.natAbs) = n.natAbs := by
    rw [← digitsValue_eq_numberOfDigits, digitsValue_toDigits]
  rw [Number.toString_toList]
  by_cases below : n < 0
  · have signed : unsigned = false := Bool.eq_false_iff.mpr fun plain =>
      absurd (allowed plain) (Int.not_le.mpr below)
    have minus := WritesInteger.minus signed nonempty digits
    have same : -(n.natAbs : Int) = n := by omega
    rw [value, same] at minus
    simpa [Numeral.signLetters, below] using minus
  · have bare : WritesInteger unsigned (Nat.toDigits 10 n.natAbs) _ := .bare nonempty digits
    have same : (n.natAbs : Int) = n := by omega
    rw [value, same] at bare
    simpa [Numeral.signLetters, below] using bare

theorem integer?_toString_eq_some_iff :
    LiteralKind.integer? unsigned (toString m) = some n ↔ n = m ∧ FitsInteger unsigned n := by
  have written : WritesInteger false (toString m).toList m := writesInteger_toString (by simp)
  have trimmed : Text.trim (toString m).toList = (toString m).toList := by
    have kept : Text.trim ([] ++ (toString m).toList ++ []) = (toString m).toList :=
      Text.trim_append written.ne_nil nofun nofun written.head_not_blank
        written.getLast_not_blank
    simpa using kept
  rw [LiteralKind.integer?_eq_some_iff_trim, trimmed]
  constructor
  · rintro ⟨writes, fits⟩
    exact ⟨writes.signed.unique written, fits⟩
  · rintro ⟨rfl, fits⟩
    refine ⟨writesInteger_toString ?_, fits⟩
    rintro rfl
    exact fits.1

/-- A number is read as the integer that it is written as, if that is in range.  A number with a
    fraction or an exponent, and a negative zero, is read as none. -/
theorem reads_number_iff {letters : List Char} {numeral : Numeral}
    (read : Numeral.ofChars? letters = some numeral) :
    (∃ literal, Document.literal? (.number numeral) = some literal ∧
      LiteralKind.integer? unsigned literal = some n) ↔
    Numeral.IsWhole letters ∧ letters ≠ ['-', '0'] ∧ n = Numeral.writtenInteger letters ∧
      FitsInteger unsigned n := by
  have range : FitsInteger unsigned n → FitsInteger true n ∨ FitsInteger false n := by
    cases unsigned with
    | true => exact .inl
    | false => exact .inr
  have whole (m : Int) := Numeral.int?_eq_some_iff read (n := m)
  simp only [Document.literal?, Numeral.number?, Option.map_eq_some_iff]
  cases integral : numeral.int? with
  | some m =>
    obtain ⟨isWhole, nonzero, same, _⟩ := (whole m).mp integral
    have stated : LiteralKind.integer? unsigned (toString m) = some n ↔ _ :=
      integer?_toString_eq_some_iff
    simpa [Number.render, isWhole, nonzero, same] using stated
  | none =>
    constructor
    · rintro ⟨literal, ⟨number, float, rfl⟩, stated⟩
      obtain ⟨x, _, rfl⟩ := Option.map_eq_some_iff.mp float
      rw [Number.render, integer?_render_float] at stated
      cases stated
    · rintro ⟨isWhole, nonzero, same, fits⟩
      have read := (whole n).mpr ⟨isWhole, nonzero, same, range fits⟩
      cases integral.symm.trans read

end

/-! ## Fields of integer types -/

def integerTypes (unsigned : Bool) : List String :=
  if unsigned then ["uint32", "uint64"] else ["int32", "sint32", "int64", "sint64"]

/-- The default that a compiled rule carries, which is that of its items if it has any. -/
def Rule.carriedDefault (rule : Rule) : Option Json :=
  match rule.shape with
  | .array element => element.default
  | _ => rule.default

section

variable {catalog : Catalog} (options : Options) (reference : Reference catalog) (scope : Entry)

/-- Whether a field gets a rule, whatever was compiled before it and is compiled after it. -/
def Field.CompilesTo (field : Field) (rule : Rule) : Prop :=
  ∀ rest progress, compileFields catalog options reference scope (field :: rest) progress =
    (compileFields catalog options reference scope rest progress).map fun compiled =>
      ((field.name, rule) :: compiled.1, compiled.2)

/-- Whether a field ends the compilation with an error, whatever was compiled before it. -/
def Field.FailsWith (field : Field) (error : SchemaError) : Prop :=
  ∀ rest progress,
    compileFields catalog options reference scope (field :: rest) progress = .error error

/-- Whether a field accepts a default that is written as a document, with this value. -/
def Field.AcceptsWritten (field : Field) (document : Document) (value : Json) : Prop :=
  ∃ literal rule, Document.literal? document = some literal ∧
    (field.withDefault literal).CompilesTo options reference scope rule ∧
    rule.carriedDefault = some value

variable {options reference scope} {field : Field} {unsigned : Bool}

theorem fieldType_integer (typed : field.typeName ∈ integerTypes unsigned) (progress : Progress) :
    fieldType catalog reference scope field progress =
      .ok (⟨.integer unsigned, .literal (.integer unsigned)⟩, progress) := by
  unfold fieldType
  cases unsigned with
  | true =>
    simp only [integerTypes, if_true, List.mem_cons, List.not_mem_nil, or_false] at typed
    rcases typed with named | named <;> rw [named] <;> rfl
  | false =>
    simp only [integerTypes, Bool.false_eq_true, if_false, List.mem_cons, List.not_mem_nil,
      or_false] at typed
    rcases typed with named | named | named | named <;> rw [named] <;> rfl

theorem carriedDefault_ruleOf (default : Option Json) :
    (field.ruleOf (.integer unsigned) default options).carriedDefault = default := by
  cases repeated : field.repeated <;> simp [Rule.carriedDefault, repeated]

theorem compilesTo_of_integer? (typed : field.typeName ∈ integerTypes unsigned) {literal : String}
    {n : Int} (read : LiteralKind.integer? unsigned literal = some n) :
    (field.withDefault literal).CompilesTo options reference scope
      ((field.withDefault literal).ruleOf (.integer unsigned) (some (.num (.int n))) options) := by
  intro rest progress
  have typed' : (field.withDefault literal).typeName ∈ integerTypes unsigned := typed
  have composed : (field.withDefault literal).rule scope.message.name
      ⟨.integer unsigned, .literal (.integer unsigned)⟩ options =
      .ok ((field.withDefault literal).ruleOf (.integer unsigned) (some (.num (.int n)))
        options) := by
    simp [Field.rule, Field.defaultValue, Field.withDefault, DefaultForm.read?, LiteralKind.read?,
      read, Except.map]
  rw [compileFields, fieldType_integer typed']
  dsimp only
  rw [composed]
  dsimp only
  cases compileFields catalog options reference scope rest progress <;> rfl

theorem failsWith_of_integer? (typed : field.typeName ∈ integerTypes unsigned) {literal : String}
    (read : LiteralKind.integer? unsigned literal = none) :
    (field.withDefault literal).FailsWith options reference scope
      (.unfitDefault scope.message.name field.name literal field.typeName) := by
  intro rest progress
  have typed' : (field.withDefault literal).typeName ∈ integerTypes unsigned := typed
  have refused : (field.withDefault literal).rule scope.message.name
      ⟨.integer unsigned, .literal (.integer unsigned)⟩ options =
      .error (.unfitDefault scope.message.name field.name literal field.typeName) := by
    simp [Field.rule, Field.defaultValue, Field.withDefault, DefaultForm.read?, LiteralKind.read?,
      read, Except.map]
  rw [compileFields, fieldType_integer typed']
  dsimp only
  rw [refused]

theorem Field.CompilesTo.unique {rule other : Rule}
    (compiles : field.CompilesTo options reference scope rule)
    (compiles' : field.CompilesTo options reference scope other) : rule = other := by
  have alone := (compiles [] {}).symm.trans (compiles' [] {})
  simpa [compileFields, Except.map] using alone

theorem Field.CompilesTo.not_failsWith {rule : Rule} {error : SchemaError}
    (compiles : field.CompilesTo options reference scope rule) :
    ¬ field.FailsWith options reference scope error := by
  intro fails
  have alone := (compiles [] {}).symm.trans (fails [] {})
  cases alone

theorem acceptsWritten_iff (typed : field.typeName ∈ integerTypes unsigned) {document : Document}
    {value : Json} :
    field.AcceptsWritten options reference scope document value ↔
      ∃ n, (∃ literal, Document.literal? document = some literal ∧
        LiteralKind.integer? unsigned literal = some n) ∧ value = .num (.int n) := by
  constructor
  · rintro ⟨literal, rule, written, compiles, carried⟩
    cases read : LiteralKind.integer? unsigned literal with
    | none => exact absurd (failsWith_of_integer? typed read) compiles.not_failsWith
    | some n =>
      rw [compiles.unique (compilesTo_of_integer? typed read), carriedDefault_ruleOf] at carried
      exact ⟨n, ⟨literal, written, read⟩, (Option.some.inj carried).symm⟩
  · rintro ⟨n, ⟨literal, written, read⟩, rfl⟩
    exact ⟨literal, _, written, compilesTo_of_integer? typed read, carriedDefault_ruleOf _⟩

end

/-- A field of an integer type takes as its default just the integers in range, however they are
    written: as a text with blanks around it, a sign and digits, or as a number without fraction
    and exponent.  The rule of the field then carries that very integer.  Any other text is
    reported, and no other number is taken. -/
theorem integer_default_exact {catalog : Catalog} (options : Options)
    (reference : Reference catalog) (scope : Entry) {field : Field} {unsigned : Bool}
    (typed : field.typeName ∈ integerTypes unsigned) :
    (∀ text value, field.AcceptsWritten options reference scope (.string (some text)) value ↔
      ∃ n, StatesInteger unsigned text n ∧ value = .num (.int n)) ∧
    (∀ text, (∀ n, ¬ StatesInteger unsigned text n) →
      (field.withDefault text).FailsWith options reference scope
        (.unfitDefault scope.message.name field.name text field.typeName)) ∧
    ∀ letters numeral, Numeral.ofChars? letters = some numeral → ∀ value,
      field.AcceptsWritten options reference scope (.number numeral) value ↔
        Numeral.IsWhole letters ∧ letters ≠ ['-', '0'] ∧
          FitsInteger unsigned (Numeral.writtenInteger letters) ∧
          value = .num (.int (Numeral.writtenInteger letters)) := by
  refine ⟨fun text value => ?_, fun text unstated => ?_, fun letters numeral read value => ?_⟩
  · rw [acceptsWritten_iff typed]
    refine exists_congr fun n => and_congr_left fun _ => ?_
    rw [← LiteralKind.integer?_eq_some_iff]
    simp [Document.literal?]
  · refine failsWith_of_integer? typed (Option.eq_none_iff_forall_ne_some.mpr fun n read => ?_)
    exact unstated n (LiteralKind.integer?_eq_some_iff.mp read)
  · simp only [acceptsWritten_iff typed, reads_number_iff read]
    constructor
    · rintro ⟨_, ⟨isWhole, nonzero, rfl, fits⟩, same⟩
      exact ⟨isWhole, nonzero, fits, same⟩
    · rintro ⟨isWhole, nonzero, fits, same⟩
      exact ⟨_, ⟨isWhole, nonzero, rfl, fits⟩, same⟩

/-- The greatest integer without a sign is taken as the default of the items of a list, with a
    zero ahead of it and a wide blank behind it.  The next one is reported as a text and not taken
    as a number. -/
theorem sizes_default_exact :
    let field : Field := { name := "sizes", typeName := "uint64", repeated := true }
    let catalog := Catalog.ofSchema {}
    let scope : Entry := ⟨0, none, { name := "Box" }⟩
    let reference := compileReference catalog {} []
    let next : List Char := "18446744073709551616".toList
    field.typeName ∈ integerTypes true ∧
      field.AcceptsWritten {} reference scope (.string (some " +018446744073709551615\u3000"))
        (.num (.int 18446744073709551615)) ∧
      (field.withDefault (String.ofList next)).FailsWith {} reference scope
        (.unfitDefault "Box" "sizes" "18446744073709551616" "uint64") ∧
      Numeral.ofChars? next = some ⟨false, next, [], 0, true⟩ ∧
      ∀ value, ¬ field.AcceptsWritten {} reference scope
        (.number ⟨false, next, [], 0, true⟩) value := by
  intro field catalog scope reference next
  have typed : field.typeName ∈ integerTypes true := by decide
  obtain ⟨texts, reports, numbers⟩ := integer_default_exact {} reference scope typed
  have greatest : LiteralKind.integer? true " +018446744073709551615\u3000" =
      some 18446744073709551615 := by decide
  have beyond : LiteralKind.integer? true (String.ofList next) = none := by decide
  have read : Numeral.ofChars? next = some ⟨false, next, [], 0, true⟩ := by decide
  refine ⟨typed, ?_, ?_, read, ?_⟩
  · exact (texts _ _).mpr ⟨_, LiteralKind.integer?_eq_some_iff.mp greatest, rfl⟩
  · refine reports _ fun n states => ?_
    cases beyond.symm.trans (LiteralKind.integer?_eq_some_iff.mpr states)
  · intro value accepts
    exact absurd ((numbers next _ read value).mp accepts).2.2.1 (by decide)

end PayloadSchema
