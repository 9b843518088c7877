import PayloadSchema.Number.Shortest
import PayloadSchema.Proofs.Number.Digits

/-! # The shortest text of a number is a numeral

The digits of a number other than zero are those of a positive number.  Laid out in any of
the ways, they make a numeral with a fraction or an exponent. -/

namespace PayloadSchema.Binary64

variable {x : Binary64}

theorem readsBack_zero (nonzero : x.significand ≠ 0) (power : Int) :
    x.readsBack 0 power = false := by
  -- The lower end of the interval of `x` is above zero, so zero compares below it.
  have lower : 0 < 4 * x.significand - (if x.narrowBelow then 1 else 2) := by
    split <;> omega
  have below : compareScaled 0 power (4 * x.significand - (if x.narrowBelow then 1 else 2))
      (x.exponent - 2) = .lt := by
    simp only [compareScaled, scale, Nat.zero_mul]
    rw [Nat.compare_eq_lt]
    exact Nat.mul_pos (Nat.mul_pos lower (Nat.pow_pos (by decide))) (Nat.pow_pos (by decide))
  simp [readsBack, below]

theorem readsBack_of_nearestOnGrid? {power : Int} {digits : Nat}
    (nearest : x.nearestOnGrid? power = some digits) : x.readsBack digits power = true := by
  unfold nearestOnGrid? at nearest
  dsimp only at nearest
  split at nearest
  · cases nearest
  · cases nearest
    assumption
  · cases nearest
    assumption
  · split at nearest
    · cases nearest
      assumption
    · cases nearest
      assumption
    · split at nearest <;> cases nearest <;> assumption

theorem nearestOnGrid?_ne_zero (nonzero : x.significand ≠ 0) {power : Int} {digits : Nat}
    (nearest : x.nearestOnGrid? power = some digits) : digits ≠ 0 := by
  rintro rfl
  cases (readsBack_of_nearestOnGrid? nearest).symm.trans (readsBack_zero nonzero power)

theorem dropTrailingZeros_ne_zero {digits : Nat} (nonzero : digits ≠ 0) (power : Int) :
    (dropTrailingZeros digits power).1 ≠ 0 := by
  induction digits, power using dropTrailingZeros.induct with
  | case1 digits power trailing inductionHypothesis =>
    rw [dropTrailingZeros, if_pos trailing]
    exact inductionHypothesis (by omega)
  | case2 digits power done =>
    rw [dropTrailingZeros, if_neg done]
    exact nonzero

theorem shortest_ne_zero (nonzero : x.significand ≠ 0) : x.shortest.1 ≠ 0 := by
  have found : ∀ hit, (List.range 17).findSome? (fun (more : Nat) =>
      (x.nearestOnGrid? (x.decimalPoint - more - 1)).map fun digits =>
        (digits, x.decimalPoint - more - 1)) = some hit → hit.1 ≠ 0 := by
    intro hit first
    obtain ⟨more, _, nearest⟩ := List.exists_of_findSome?_eq_some first
    obtain ⟨_, onGrid, rfl⟩ := Option.map_eq_some_iff.mp nearest
    exact nearestOnGrid?_ne_zero nonzero onGrid
  unfold shortest
  dsimp only
  apply dropTrailingZeros_ne_zero
  -- Without a hit on a grid the digits are those of the exact value.
  cases first : (List.range 17).findSome? (fun (more : Nat) =>
      (x.nearestOnGrid? (x.decimalPoint - more - 1)).map fun digits =>
        (digits, x.decimalPoint - more - 1)) with
  | some hit => exact found hit first
  | none =>
    rw [Option.getD_none]
    split
    · exact Nat.mul_ne_zero nonzero (Nat.ne_of_gt (Nat.pow_pos (by decide)))
    · exact Nat.mul_ne_zero nonzero (Nat.ne_of_gt (Nat.pow_pos (by decide)))

open Numeral

theorem wholePart_append {whole more : List Char} (wholePart : WholePart whole)
    (leads : whole.head? ≠ some '0') (digits : ∀ c ∈ more, c.isDigit = true) :
    WholePart (whole ++ more) where
  nonempty := by simp [wholePart.nonempty]
  digits c listed := by
    cases List.mem_append.mp listed with
    | inl first => exact wholePart.digits c first
    | inr later => exact digits c later
  noLeadingZero zero := by
    cases whole with
    | nil => exact absurd rfl wholePart.nonempty
    | cons c rest => exact absurd zero leads

theorem wholePart_take {digits : List Char} (wholePart : WholePart digits)
    (leads : digits.head? ≠ some '0') {count : Nat} (positive : 0 < count) :
    WholePart (digits.take count) where
  nonempty := by simp [wholePart.nonempty, Nat.ne_of_gt positive]
  digits c listed := wholePart.digits c (List.mem_of_mem_take listed)
  noLeadingZero zero := by
    rw [List.head?_take, if_neg (Nat.ne_of_gt positive)] at zero
    exact absurd zero leads

theorem isDigit_zeros (count : Nat) : ∀ c ∈ List.replicate count '0', c.isDigit = true := by
  intro c listed
  rw [List.eq_of_mem_replicate listed]
  decide

theorem exponentPart (exponent : Int) :
    ((if exponent < 0 then "e-" else "e+") ++ toString exponent.natAbs).toList ≠ [] ∧
      ExponentPart
        ((if exponent < 0 then "e-" else "e+") ++ toString exponent.natAbs).toList := by
  rw [String.toList_append, Nat.toString_eq_ofList_toDigits, String.toList_ofList]
  split
  · exact ⟨by simp, .signed (.inr rfl) Nat.toDigits_ne_nil (isDigit_toDigits _)⟩
  · exact ⟨by simp, .signed (.inl rfl) Nat.toDigits_ne_nil (isDigit_toDigits _)⟩

theorem layOut_floatForm {digits : String} (wholePart : WholePart digits.toList)
    (leads : digits.toList.head? ≠ some '0') (point : Int) :
    FloatForm (layOut digits point).toList := by
  unfold layOut
  dsimp only
  split
  next small =>
    have fraction : ∀ c ∈ List.replicate (-point).toNat '0' ++ digits.toList,
        c.isDigit = true := by
      intro c listed
      cases List.mem_append.mp listed with
      | inl zero => exact isDigit_zeros _ c zero
      | inr digit => exact wholePart.digits c digit
    have form :=
      FloatForm.fraction (wholePart_toDigits 0) (by simp [wholePart.nonempty]) fraction .none
    simpa using form
  next =>
    split
    next middle =>
      split
      next short =>
        have form := FloatForm.fraction
          (wholePart_append wholePart leads (isDigit_zeros (point - digits.length).toNat))
          (by simp) (isDigit_zeros 1) .none
        simpa using form
      next long =>
        have positive : 0 < point.toNat := by omega
        -- The point falls inside the digits, so that some are left for the fraction.
        have remaining : digits.toList.drop point.toNat ≠ [] := by
          rw [Ne, List.drop_eq_nil_iff, String.length_toList]
          omega
        have form := FloatForm.fraction (wholePart_take wholePart leads positive) remaining
          (fun c listed => wholePart.digits c (List.mem_of_mem_drop listed)) .none
        simpa using form
    next =>
      have lead := wholePart_take wholePart leads (by decide : 0 < 1)
      obtain ⟨marked, exponent⟩ := exponentPart (point - 1)
      rw [String.append_assoc, String.toList_append]
      split
      next =>
        rw [String.toList_ofList]
        exact .exponent lead marked exponent
      next more =>
        have remaining : digits.toList.drop 1 ≠ [] := by simpa using more
        have form := FloatForm.fraction lead remaining
          (fun c listed => wholePart.digits c (List.mem_of_mem_drop listed)) exponent
        simpa using form

/-- A number is written as a sign and a numeral with a fraction or an exponent. -/
theorem exists_render (x : Binary64) :
    ∃ letters, x.render.toList = signLetters x.negative ++ letters ∧ FloatForm letters := by
  have sign : (if x.negative then "-" else "").toList = signLetters x.negative := by
    cases x.negative <;> rfl
  unfold render
  dsimp only
  split
  next =>
    refine ⟨"0.0".toList, by rw [String.toList_append, sign], ?_⟩
    exact .fraction (wholePart_toDigits 0) (by simp) (isDigit_zeros 1) .none
  next nonzero =>
    have digits := shortest_ne_zero (by simpa [isZero] using nonzero)
    have spelled : (toString x.shortest.1).toList = Nat.toDigits 10 x.shortest.1 := by
      rw [Nat.toString_eq_ofList_toDigits, String.toList_ofList]
    refine ⟨_, by rw [String.toList_append, sign], layOut_floatForm ?_ ?_ _⟩
    · rw [spelled]
      exact wholePart_toDigits _
    · rw [spelled]
      exact head?_toDigits_ne_zero (Nat.pos_of_ne_zero digits)

end PayloadSchema.Binary64
