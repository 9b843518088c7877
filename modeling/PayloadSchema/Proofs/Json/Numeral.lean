import PayloadSchema.Json.Printer
import PayloadSchema.Json.Token
import PayloadSchema.Proofs.Number.Shortest

/-! # The text of a number is a numeral

An integer is written as a plain numeral, and every other number as one with a fraction or
an exponent.  Either is made of the characters of numerals only. -/

namespace PayloadSchema

open Token

namespace Numeral

theorem isNumeralChar_of_isDigit {c : Char} (digit : c.isDigit = true) :
    Scan.isNumeralChar c = true := by
  simp [Scan.isNumeralChar, digit]

theorem ExponentPart.isNumeralChar {letters : List Char} (part : ExponentPart letters) :
    ∀ c ∈ letters, Scan.isNumeralChar c = true := by
  cases part with
  | none => simp
  | @signed sign digits signed nonempty all =>
    have written : Scan.isNumeralChar sign = true := by
      rcases signed with rfl | rfl <;> decide
    simp only [List.forall_mem_cons]
    exact ⟨by decide, written, fun c listed => isNumeralChar_of_isDigit (all c listed)⟩

theorem FloatForm.starts {letters : List Char} (form : FloatForm letters) :
    ∃ c rest, letters = c :: rest ∧ c.isDigit = true := by
  cases form with
  | fraction wholePart => exact wholePart.starts _
  | exponent wholePart => exact wholePart.starts _

theorem FloatForm.isNumeralChar {letters : List Char} (form : FloatForm letters) :
    ∀ c ∈ letters, Scan.isNumeralChar c = true := by
  cases form with
  | fraction wholePart nonempty digits part =>
    simp only [List.forall_mem_append, List.forall_mem_cons]
    exact ⟨fun c listed => isNumeralChar_of_isDigit (wholePart.digits c listed), by decide,
      fun c listed => isNumeralChar_of_isDigit (digits c listed), part.isNumeralChar⟩
  | exponent wholePart nonempty part =>
    simp only [List.forall_mem_append]
    exact ⟨fun c listed => isNumeralChar_of_isDigit (wholePart.digits c listed),
      part.isNumeralChar⟩

end Numeral

namespace Number

def numeral (number : Number) : Numeral :=
  (Numeral.ofChars? number.render.toList).getD ⟨false, [], [], 0, false⟩

theorem toString_toList (n : Int) :
    (toString n).toList = Numeral.signLetters (n < 0) ++ Nat.toDigits 10 n.natAbs := by
  have spelled : ∀ n : Nat, (toString n).toList = Nat.toDigits 10 n := by
    intro n
    rw [Nat.toString_eq_ofList_toDigits, String.toList_ofList]
  cases n with
  | ofNat n => exact spelled n
  | negSucc n =>
    have signed : toString (Int.negSucc n) = "-" ++ toString (n + 1) := rfl
    rw [signed, String.toList_append, spelled]
    simp [Numeral.signLetters, Int.negSucc_lt_zero]

theorem ofChars?_toString (n : Int) :
    Numeral.ofChars? (toString n).toList =
      some ⟨n < 0, Nat.toDigits 10 n.natAbs, [], 0, true⟩ := by
  rw [toString_toList, Numeral.ofChars?_plain _ (wholePart_toDigits _)]

theorem numeral_int (n : Int) :
    (Number.int n).numeral = ⟨n < 0, Nat.toDigits 10 n.natAbs, [], 0, true⟩ := by
  rw [numeral, render, ofChars?_toString]
  rfl

theorem exists_letters (number : Number) :
    ∃ negative unsigned, number.render.toList = Numeral.signLetters negative ++ unsigned ∧
      (∃ c rest, unsigned = c :: rest ∧ c.isDigit = true) ∧
      (∀ c ∈ unsigned, Scan.isNumeralChar c = true) ∧
      Numeral.ofChars? number.render.toList = some number.numeral := by
  cases number with
  | int n =>
    have starts := (wholePart_toDigits n.natAbs).starts []
    rw [List.append_nil] at starts
    rw [numeral_int, render]
    exact ⟨_, _, toString_toList n, starts,
      fun c listed => Numeral.isNumeralChar_of_isDigit (isDigit_toDigits _ c listed),
      ofChars?_toString n⟩
  | float x =>
    obtain ⟨letters, written, form⟩ := x.exists_render
    obtain ⟨whole, fraction, exponent, read⟩ := Numeral.ofChars?_float x.negative form
    refine ⟨x.negative, letters, written, form.starts, form.isNumeralChar, ?_⟩
    rw [numeral, render, written, read]
    rfl

end Number

end PayloadSchema
