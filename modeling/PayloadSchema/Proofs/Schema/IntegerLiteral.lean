import Mathlib.Data.List.Induction
import Mathlib.Data.List.TakeWhile
import Mathlib.Data.Nat.Digits.Defs
import PayloadSchema.Schema.Literal

/-! # Integers as literals

A literal states an integer if, blanks around it apart, it is digits after at most one sign, and
the integer they stand for is in range.  Each literal states at most one integer, which is the
one that is read: nothing is wrapped, cut off or rounded, however long the run of digits is. -/

namespace PayloadSchema

namespace Text

theorem exists_trim (text : List Char) :
    ∃ before after, text = before ++ trim text ++ after ∧
      (∀ c ∈ before, isBlank c = true) ∧ ∀ c ∈ after, isBlank c = true := by
  let rest := text.dropWhile isBlank
  have front : text = text.takeWhile isBlank ++ rest := List.takeWhile_append_dropWhile.symm
  have back : rest = trim text ++ (rest.reverse.takeWhile isBlank).reverse := by
    have split := congrArg List.reverse
      (List.takeWhile_append_dropWhile (p := isBlank) (l := rest.reverse)).symm
    rwa [List.reverse_reverse, List.reverse_append] at split
  refine ⟨text.takeWhile isBlank, (rest.reverse.takeWhile isBlank).reverse, ?_, ?_, ?_⟩
  · rw [List.append_assoc, ← back, ← front]
  · exact fun c listed => List.mem_takeWhile_imp listed
  · exact fun c listed => List.mem_takeWhile_imp (List.mem_reverse.mp listed)

theorem dropWhile_isBlank {before core : List Char} (nonempty : core ≠ [])
    (blank : ∀ c ∈ before, isBlank c = true) (starts : isBlank (core.head nonempty) = false) :
    (before ++ core).dropWhile isBlank = core := by
  rw [List.dropWhile_append_of_pos blank]
  cases core with
  | nil => exact absurd rfl nonempty
  | cons c rest => exact List.dropWhile_cons_of_neg (Bool.eq_false_iff.mp starts)

theorem trim_append {before core after : List Char} (nonempty : core ≠ [])
    (blankBefore : ∀ c ∈ before, isBlank c = true) (blankAfter : ∀ c ∈ after, isBlank c = true)
    (starts : isBlank (core.head nonempty) = false)
    (ends : isBlank (core.getLast nonempty) = false) : trim (before ++ core ++ after) = core := by
  have front : (before ++ (core ++ after)).dropWhile isBlank = core ++ after := by
    refine dropWhile_isBlank (List.append_ne_nil_of_left_ne_nil nonempty after) blankBefore ?_
    rwa [List.head_append_of_ne_nil nonempty]
  have back : (after.reverse ++ core.reverse).dropWhile isBlank = core.reverse := by
    refine dropWhile_isBlank (List.reverse_ne_nil_iff.mpr nonempty) ?_ ?_
    · exact fun c listed => blankAfter c (List.mem_reverse.mp listed)
    · rwa [List.head_reverse]
  rw [trim, List.append_assoc, front, List.reverse_append, back, List.reverse_reverse]

end Text

/-- The number that a run of decimal digits stands for, by the places of the digits. -/
def numberOfDigits (digits : List Char) : Nat :=
  Nat.ofDigits 10 (digits.reverse.map fun digit => digit.toNat - '0'.toNat)

theorem digitsValue_eq_numberOfDigits (digits : List Char) :
    Decimal.digitsValue digits = numberOfDigits digits := by
  induction digits using List.reverseRecOn with
  | nil => rfl
  | append_singleton digits digit inductionHypothesis =>
    -- The last digit read is the one of the lowest place.
    rw [Decimal.digitsValue, List.foldl_append, ← Decimal.digitsValue, inductionHypothesis]
    simp [numberOfDigits, Nat.ofDigits_cons, Nat.add_comm]

theorem isBlank_of_isDigit {c : Char} (digit : c.isDigit = true) : Text.isBlank c = false := by
  have ⟨low, high⟩ := Char.isDigit_iff_toNat.mp digit
  simp only [Text.isBlank, Text.blankRanges, List.any_cons, List.any_nil, Bool.or_false,
    Bool.or_eq_false_iff, Bool.and_eq_false_iff, decide_eq_false_iff_not]
  simp only [Char.reduceToNat] at low high
  omega

/-- Whether letters write an integer: digits after at most one sign, and a minus only where the
    type of the integer has a sign. -/
inductive WritesInteger (unsigned : Bool) : List Char → Int → Prop where
  | bare {digits : List Char} (nonempty : digits ≠ [])
      (all : ∀ c ∈ digits, c.isDigit = true) :
      WritesInteger unsigned digits (numberOfDigits digits)
  | plus {digits : List Char} (nonempty : digits ≠ [])
      (all : ∀ c ∈ digits, c.isDigit = true) :
      WritesInteger unsigned ('+' :: digits) (numberOfDigits digits)
  | minus {digits : List Char} (signed : unsigned = false) (nonempty : digits ≠ [])
      (all : ∀ c ∈ digits, c.isDigit = true) :
      WritesInteger unsigned ('-' :: digits) (-numberOfDigits digits)

/-- Whether an integer fits 64 bits, without a sign or with one. -/
def FitsInteger (unsigned : Bool) (n : Int) : Prop :=
  if unsigned then 0 ≤ n ∧ n < 2 ^ 64 else -2 ^ 63 ≤ n ∧ n < 2 ^ 63

instance FitsInteger.decidable (unsigned : Bool) (n : Int) : Decidable (FitsInteger unsigned n) :=
  inferInstanceAs (Decidable (if unsigned then _ else _))

/-- Whether a literal states an integer of a type, with blanks around it or without. -/
def StatesInteger (unsigned : Bool) (literal : String) (n : Int) : Prop :=
  ∃ before core after, literal.toList = before ++ core ++ after ∧
    (∀ c ∈ before, Text.isBlank c = true) ∧ (∀ c ∈ after, Text.isBlank c = true) ∧
    WritesInteger unsigned core n ∧ FitsInteger unsigned n

theorem fitsInteger_true_iff {n : Int} : FitsInteger true n ↔ Word.isUnsigned n = true := by
  simp only [FitsInteger, if_true, Word.isUnsigned, Bool.and_eq_true, decide_eq_true_eq]
  rw [Word.count]
  omega

theorem fitsInteger_false_iff {n : Int} : FitsInteger false n ↔ Word.isSigned n = true := by
  simp only [FitsInteger, Bool.false_eq_true, if_false, Word.isSigned, Bool.and_eq_true,
    decide_eq_true_eq]
  rw [Word.half]
  omega

theorem fitsInteger_or_iff_of_nonneg {n : Int} (nonneg : 0 ≤ n) :
    FitsInteger true n ∨ FitsInteger false n ↔ FitsInteger true n := by
  simp only [FitsInteger, if_true, Bool.false_eq_true, if_false]
  omega

theorem fitsInteger_or_iff_of_neg {n : Int} (negative : n < 0) :
    FitsInteger true n ∨ FitsInteger false n ↔ FitsInteger false n := by
  simp only [FitsInteger, if_true, Bool.false_eq_true, if_false]
  omega

namespace WritesInteger

variable {unsigned : Bool} {letters : List Char} {n : Int}

theorem ne_nil (writes : WritesInteger unsigned letters n) : letters ≠ [] := by
  cases writes with
  | bare nonempty _ => exact nonempty
  | plus | minus => exact List.cons_ne_nil _ _

theorem head_not_blank (writes : WritesInteger unsigned letters n) :
    Text.isBlank (letters.head writes.ne_nil) = false := by
  cases writes with
  | bare nonempty all => exact isBlank_of_isDigit (all _ (List.head_mem nonempty))
  | plus => exact (by decide : Text.isBlank '+' = false)
  | minus => exact (by decide : Text.isBlank '-' = false)

theorem getLast_not_blank (writes : WritesInteger unsigned letters n) :
    Text.isBlank (letters.getLast writes.ne_nil) = false := by
  cases writes with
  | bare nonempty all => exact isBlank_of_isDigit (all _ (List.getLast_mem nonempty))
  | plus nonempty all | minus _ nonempty all =>
    rw [List.getLast_cons nonempty]
    exact isBlank_of_isDigit (all _ (List.getLast_mem nonempty))

theorem splitSign_cases (letters : List Char) :
    (∃ rest, letters = '-' :: rest) ∨ (∃ rest, letters = '+' :: rest) ∨
      Decimal.splitSign letters = (false, letters) := by
  unfold Decimal.splitSign
  split
  next rest => exact .inl ⟨rest, rfl⟩
  next rest => exact .inr (.inl ⟨rest, rfl⟩)
  next => exact .inr (.inr rfl)

theorem splitSign_of_digits {digits : List Char} (nonempty : digits ≠ [])
    (all : ∀ c ∈ digits, c.isDigit = true) :
    Decimal.splitSign digits = (false, digits) ∧ digits.head? ≠ some '-' := by
  obtain ⟨c, rest, rfl⟩ := List.exists_cons_of_ne_nil nonempty
  have digit := all c List.mem_cons_self
  have noMinus : c ≠ '-' := by
    rintro rfl
    exact absurd digit (by decide)
  have noPlus : c ≠ '+' := by
    rintro rfl
    exact absurd digit (by decide)
  simp [Decimal.splitSign, noMinus, noPlus]

/-- What letters write is read off what is left when a sign is split off. -/
theorem iff_splitSign :
    WritesInteger unsigned letters n ↔
      (Decimal.splitSign letters).2 ≠ [] ∧
      (∀ c ∈ (Decimal.splitSign letters).2, c.isDigit = true) ∧
      (unsigned = true → letters.head? ≠ some '-') ∧
      n = if (Decimal.splitSign letters).1
        then -(numberOfDigits (Decimal.splitSign letters).2 : Int)
        else numberOfDigits (Decimal.splitSign letters).2 := by
  constructor
  · intro writes
    cases writes with
    | bare nonempty all =>
      obtain ⟨split, noMinus⟩ := splitSign_of_digits nonempty all
      rw [split]
      exact ⟨nonempty, all, fun _ => noMinus, rfl⟩
    | plus nonempty all => exact ⟨nonempty, all, by simp, rfl⟩
    | minus signed nonempty all => exact ⟨nonempty, all, by simp [signed], rfl⟩
  · rintro ⟨nonempty, all, allowed, rfl⟩
    rcases splitSign_cases letters with ⟨digits, rfl⟩ | ⟨digits, rfl⟩ | whole
    · have signed : unsigned = false := Bool.eq_false_iff.mpr fun plain => allowed plain rfl
      exact .minus signed nonempty all
    · exact .plus nonempty all
    · rw [whole] at nonempty all ⊢
      exact .bare nonempty all

theorem unique {m : Int} (writes : WritesInteger unsigned letters n)
    (writes' : WritesInteger unsigned letters m) : n = m := by
  rw [iff_splitSign] at writes writes'
  exact writes.2.2.2.trans writes'.2.2.2.symm

theorem signed (writes : WritesInteger unsigned letters n) : WritesInteger false letters n := by
  cases writes with
  | bare nonempty all => exact .bare nonempty all
  | plus nonempty all => exact .plus nonempty all
  | minus _ nonempty all => exact .minus rfl nonempty all

end WritesInteger

namespace LiteralKind

variable {unsigned : Bool} {literal : String} {n : Int}

theorem integer?_eq_some_iff_trim :
    integer? unsigned literal = some n ↔
      WritesInteger unsigned (Text.trim literal.toList) n ∧ FitsInteger unsigned n := by
  rw [WritesInteger.iff_splitSign]
  have plain : (Text.trim literal.toList).head? ≠ some '-' →
      (Decimal.splitSign (Text.trim literal.toList)).1 = false := by
    rcases WritesInteger.splitSign_cases (Text.trim literal.toList) with
      ⟨rest, trimmed⟩ | ⟨rest, trimmed⟩ | whole
    · simp [trimmed]
    · simp [trimmed, Decimal.splitSign]
    · simp [whole]
  simp only [integer?, digitsValue_eq_numberOfDigits]
  generalize Decimal.splitSign (Text.trim literal.toList) = parts at plain ⊢
  obtain ⟨negative, digits⟩ := parts
  by_cases wellFormed : digits ≠ [] ∧ ∀ c ∈ digits, c.isDigit = true
  · have read : (digits.isEmpty || !digits.all Char.isDigit) = false := by simpa using wellFormed
    cases unsigned with
    | true =>
      simp only [read, Bool.false_eq_true, if_false, if_true, Option.ite_none_right_eq_some,
        Option.some.injEq, fitsInteger_true_iff, true_implies]
      constructor
      · rintro ⟨⟨bare, fits⟩, rfl⟩
        refine ⟨⟨wellFormed.1, wellFormed.2, bare, ?_⟩, fits⟩
        rw [show negative = false from plain bare, if_neg Bool.false_ne_true]
      · rintro ⟨⟨_, _, bare, same⟩, fits⟩
        rw [show negative = false from plain bare, if_neg Bool.false_ne_true] at same
        exact ⟨⟨bare, same ▸ fits⟩, same.symm⟩
    | false =>
      simp only [read, Bool.false_eq_true, if_false, Option.ite_none_right_eq_some,
        Option.some.injEq, fitsInteger_false_iff, false_implies, true_and]
      constructor
      · rintro ⟨fits, rfl⟩
        exact ⟨⟨wellFormed.1, wellFormed.2, rfl⟩, fits⟩
      · rintro ⟨⟨_, _, same⟩, fits⟩
        exact ⟨same ▸ fits, same.symm⟩
  · have refused : (digits.isEmpty || !digits.all Char.isDigit) = true := by
      rw [← Bool.not_eq_false]
      exact fun read => wellFormed (by simpa using read)
    simp only [refused, if_true, reduceCtorEq, false_iff]
    exact fun written => wellFormed ⟨written.1.1, written.1.2.1⟩

/-- A literal that is read as an integer states it, and one that states an integer is read
    so. -/
theorem integer?_eq_some_iff :
    integer? unsigned literal = some n ↔ StatesInteger unsigned literal n := by
  constructor
  · intro read
    obtain ⟨before, after, split, blankBefore, blankAfter⟩ := Text.exists_trim literal.toList
    obtain ⟨writes, fits⟩ := integer?_eq_some_iff_trim.mp read
    exact ⟨before, _, after, split, blankBefore, blankAfter, writes, fits⟩
  · rintro ⟨before, core, after, split, blankBefore, blankAfter, writes, fits⟩
    have trimmed : Text.trim literal.toList = core := by
      rw [split]
      exact Text.trim_append writes.ne_nil blankBefore blankAfter writes.head_not_blank
        writes.getLast_not_blank
    exact integer?_eq_some_iff_trim.mpr ⟨trimmed ▸ writes, fits⟩

end LiteralKind

end PayloadSchema
