import PayloadSchema.Json.Numeral

/-! # Runs of digits

The decimal digits of a natural number stand for that number, and no zero leads them unless
it is the only one.  A numeral is read from what such a run is followed by. -/

namespace PayloadSchema

/-- Whether letters can be the whole part of a numeral: digits without a superfluous zero. -/
structure WholePart (letters : List Char) : Prop where
  nonempty : letters ≠ []
  digits : ∀ c ∈ letters, c.isDigit = true
  noLeadingZero : letters.head? = some '0' → letters = ['0']

theorem isDigit_toDigits (n : Nat) : ∀ c ∈ Nat.toDigits 10 n, c.isDigit = true :=
  fun _ listed => Nat.isDigit_of_mem_toDigits (by decide) (by decide) listed

theorem digitsValue_toDigits (n : Nat) : Decimal.digitsValue (Nat.toDigits 10 n) = n :=
  Nat.ofDigitChars_toDigits (by decide) (by decide)

theorem digitChar_ne_zero {n : Nat} (positive : 0 < n) (below : n < 10) :
    n.digitChar ≠ '0' := by
  revert positive
  revert n
  decide

theorem head?_toDigits_ne_zero {n : Nat} (positive : 0 < n) :
    (Nat.toDigits 10 n).head? ≠ some '0' := by
  -- The last digit is written after those of `n / 10`, which lead whenever there are any.
  induction n using Nat.strongRecOn with
  | ind n inductionHypothesis =>
    rw [Nat.toDigits_eq_if (by decide)]
    split
    next below => simpa using digitChar_ne_zero positive below
    next above =>
      have leading := inductionHypothesis (n / 10) (by omega) (by omega)
      cases digits : Nat.toDigits 10 (n / 10) with
      | nil => exact absurd digits Nat.toDigits_ne_nil
      | cons c rest => simpa [digits] using leading

theorem wholePart_toDigits (n : Nat) : WholePart (Nat.toDigits 10 n) where
  nonempty := Nat.toDigits_ne_nil
  digits := isDigit_toDigits n
  noLeadingZero leads := by
    cases n with
    | zero => rfl
    | succ n => exact absurd leads (head?_toDigits_ne_zero (Nat.succ_pos n))

namespace Numeral

/-- Whether letters are the exponent of a numeral: nothing, or a mark, a sign and digits. -/
inductive ExponentPart : List Char → Prop where
  | none : ExponentPart []
  | signed {sign : Char} {digits : List Char} (signed : sign = '+' ∨ sign = '-')
      (nonempty : digits ≠ []) (all : ∀ c ∈ digits, c.isDigit = true) :
      ExponentPart ('e' :: sign :: digits)

/-- Whether letters are a numeral with a fraction or an exponent, without the sign. -/
inductive FloatForm : List Char → Prop where
  | fraction {whole fraction exponent : List Char} (wholePart : WholePart whole)
      (nonempty : fraction ≠ []) (digits : ∀ c ∈ fraction, c.isDigit = true)
      (exponentPart : ExponentPart exponent) :
      FloatForm (whole ++ '.' :: (fraction ++ exponent))
  | exponent {whole exponent : List Char} (wholePart : WholePart whole)
      (nonempty : exponent ≠ []) (exponentPart : ExponentPart exponent) :
      FloatForm (whole ++ exponent)

theorem ExponentPart.exists_exponentPart? {letters : List Char} (part : ExponentPart letters) :
    ∃ exponent, Decimal.exponentPart? letters = some exponent := by
  cases part with
  | none => exact ⟨0, rfl⟩
  | @signed sign digits signed nonempty all =>
    have shown : (digits.isEmpty || !digits.all Char.isDigit) = false := by
      simpa [nonempty] using all
    rcases signed with rfl | rfl
    · exact ⟨_, if_neg (by simp [shown])⟩
    · exact ⟨_, if_neg (by simp [shown])⟩

theorem ExponentPart.head?_not_digit {letters : List Char} (part : ExponentPart letters) :
    ∀ c, letters.head? = some c → c.isDigit = false := by
  cases part with
  | none => simp
  | signed => simp

theorem takeWhile_isDigit {digits rest : List Char} (all : ∀ c ∈ digits, c.isDigit = true)
    (stop : ∀ c, rest.head? = some c → c.isDigit = false) :
    (digits ++ rest).takeWhile Char.isDigit = digits := by
  rw [List.takeWhile_append_of_pos all]
  cases rest with
  | nil => simp
  | cons c rest => simp [stop c rfl]

theorem dropWhile_isDigit {digits rest : List Char} (all : ∀ c ∈ digits, c.isDigit = true)
    (stop : ∀ c, rest.head? = some c → c.isDigit = false) :
    (digits ++ rest).dropWhile Char.isDigit = rest := by
  rw [List.dropWhile_append_of_pos all]
  cases rest with
  | nil => rfl
  | cons c rest => simp [stop c rfl]

def signLetters (negative : Bool) : List Char := if negative then ['-'] else []

theorem ofChars?_sign (negative : Bool) {unsigned : List Char}
    (starts : ∃ c rest, unsigned = c :: rest ∧ c.isDigit = true) :
    ofChars? (signLetters negative ++ unsigned) = ofUnsigned? negative unsigned := by
  obtain ⟨c, rest, rfl, digit⟩ := starts
  cases negative with
  | true => rfl
  | false =>
    have unsigned : c ≠ '-' := by
      rintro rfl
      exact absurd digit (by decide)
    simp [signLetters, ofChars?, unsigned]

end Numeral

theorem WholePart.starts {whole : List Char} (wholePart : WholePart whole) (rest : List Char) :
    ∃ c others, whole ++ rest = c :: others ∧ c.isDigit = true := by
  obtain ⟨nonempty, digits, _⟩ := wholePart
  cases whole with
  | nil => exact absurd rfl nonempty
  | cons c others => exact ⟨c, others ++ rest, rfl, digits c List.mem_cons_self⟩

namespace Numeral

theorem ofChars?_plain (negative : Bool) {whole : List Char} (wholePart : WholePart whole) :
    ofChars? (signLetters negative ++ whole) =
      some ⟨negative, whole, [], 0, true⟩ := by
  have starts := wholePart.starts []
  have taken := takeWhile_isDigit wholePart.digits (by simp : ∀ c, [].head? = some c → _)
  have dropped := dropWhile_isDigit wholePart.digits (by simp : ∀ c, [].head? = some c → _)
  rw [List.append_nil] at starts taken dropped
  rw [ofChars?_sign negative starts]
  simpa [ofUnsigned?, taken, dropped] using ⟨wholePart.nonempty, wholePart.noLeadingZero⟩

theorem ofChars?_float (negative : Bool) {letters : List Char} (form : FloatForm letters) :
    ∃ whole fraction exponent,
      ofChars? (signLetters negative ++ letters) =
        some ⟨negative, whole, fraction, exponent, false⟩ := by
  cases form with
  | @fraction whole fraction exponent wholePart nonempty digits part =>
    -- The whole part stops at the point, the fraction where the exponent begins.
    obtain ⟨value, read⟩ := part.exists_exponentPart?
    have stop : ∀ c, ('.' :: (fraction ++ exponent)).head? = some c → c.isDigit = false := by simp
    refine ⟨whole, fraction, value, ?_⟩
    rw [ofChars?_sign negative (wholePart.starts _)]
    simpa [ofUnsigned?, takeWhile_isDigit wholePart.digits stop,
      dropWhile_isDigit wholePart.digits stop, takeWhile_isDigit digits part.head?_not_digit,
      dropWhile_isDigit digits part.head?_not_digit, nonempty, read]
      using ⟨wholePart.nonempty, wholePart.noLeadingZero⟩
  | @exponent whole exponent wholePart nonempty part =>
    obtain ⟨value, read⟩ := part.exists_exponentPart?
    refine ⟨whole, [], value, ?_⟩
    rw [ofChars?_sign negative (wholePart.starts _)]
    cases part with
    | none => exact absurd rfl nonempty
    | @signed sign digits signed shown all =>
      have stop : ∀ c, ('e' :: sign :: digits).head? = some c → c.isDigit = false := by simp
      simpa [ofUnsigned?, takeWhile_isDigit wholePart.digits stop,
        dropWhile_isDigit wholePart.digits stop, read]
        using ⟨wholePart.nonempty, wholePart.noLeadingZero⟩

end Numeral

end PayloadSchema
