import PayloadSchema.Proofs.Json.Induction
import PayloadSchema.Proofs.Json.Numeral

/-! # The compact text of a value stands on one line

Strings are quoted with their control characters escaped, numbers are written with
digits, and nothing else is put between the parts of a value.  So the compact text has
no control character at all, and in particular no line break. -/

namespace PayloadSchema

open Token

/-- Whether a text can stand within a line: no control character is in it. -/
def Inline (text : String) : Prop := ∀ c ∈ text.toList, 0x20 ≤ c.toNat

instance Inline.decidable (text : String) : Decidable (Inline text) :=
  List.decidableBAll _ text.toList

theorem Inline.newline_not_mem {text : String} (inline : Inline text) : '\n' ∉ text.toList :=
  fun listed => absurd (inline '\n' listed) (by decide)

@[simp]
theorem inline_append {first second : String} :
    Inline (first ++ second) ↔ Inline first ∧ Inline second := by
  simp [Inline, or_imp, forall_and]

@[simp]
theorem inline_ofList {letters : List Char} :
    Inline (String.ofList letters) ↔ ∀ c ∈ letters, 0x20 ≤ c.toNat := by
  simp [Inline]

theorem Inline.ite {condition : Prop} [Decidable condition] {first second : String}
    (inline : Inline first) (other : Inline second) :
    Inline (if condition then first else second) := by
  split
  · exact inline
  · exact other

theorem Inline.intercalate {separator : String} {parts : List String}
    (between : Inline separator) (each : ∀ part ∈ parts, Inline part) :
    Inline (separator.intercalate parts) := by
  induction parts with
  | nil => simp [Inline]
  | cons part rest inductionHypothesis =>
    rw [List.forall_mem_cons] at each
    cases rest with
    | nil => simpa using each.1
    | cons next rest =>
      rw [String.intercalate_cons_cons, inline_append, inline_append]
      exact ⟨⟨each.1, between⟩, inductionHypothesis each.2⟩

namespace Json

theorem inline_hexDigit : ∀ n < 16, 0x20 ≤ (hexDigit n).toNat := by decide

theorem inline_escape (c : Char) : Inline (escape c) := by
  unfold escape
  iterate 7 refine .ite (by decide) ?_
  split
  case isTrue control =>
    have digits : ∀ letter ∈ [hexDigit (c.toNat / 16), hexDigit (c.toNat % 16)],
        0x20 ≤ letter.toNat := by
      simp only [List.forall_mem_cons, List.not_mem_nil, false_implies, implies_true, and_true]
      exact ⟨inline_hexDigit _ (by omega), inline_hexDigit _ (by omega)⟩
    exact inline_append.mpr ⟨(by decide : Inline "\\u00"), inline_ofList.mpr digits⟩
  case isFalse control =>
    simpa [Inline, Char.toString] using control

theorem quote_toList (text : String) :
    (quote text).toList = '"' :: (text.toList.flatMap fun c => (escape c).toList) ++ ['"'] := by
  simp [quote, String.toList_join, List.flatMap_map]

theorem inline_quote (text : String) : Inline (quote text) := by
  unfold Inline
  rw [quote_toList]
  simp only [List.forall_mem_append, List.forall_mem_cons, List.forall_mem_flatMap]
  exact ⟨⟨by decide, fun c _ => inline_escape c⟩, by decide, by simp⟩

end Json

theorem le_toNat_of_isNumeralChar {c : Char} (inside : Scan.isNumeralChar c = true) :
    0x20 ≤ c.toNat := by
  simp only [Scan.isNumeralChar, Bool.or_eq_true, decide_eq_true_eq, or_assoc] at inside
  rcases inside with digit | rfl | rfl | rfl | rfl | rfl
  · rw [Char.isDigit_iff_toNat] at digit
    exact Nat.le_trans (by decide) digit.1
  all_goals decide

theorem Number.inline_render (number : Number) : Inline number.render := by
  obtain ⟨negative, unsigned, written, _, all, _⟩ := number.exists_letters
  unfold Inline
  rw [written, List.forall_mem_append]
  constructor
  · cases negative <;> simp [Numeral.signLetters]
  · exact fun c listed => le_toNat_of_isNumeralChar (all c listed)

namespace Json

theorem compactItems_eq (items : List Json) : compactItems items = items.map compact := by
  induction items with
  | nil => rfl
  | cons item rest inductionHypothesis => simp [compactItems, inductionHypothesis]

theorem compactMembers_eq (members : Members) :
    compactMembers members =
      members.map fun member => quote member.1 ++ ":" ++ compact member.2 := by
  induction members with
  | nil => rfl
  | cons member rest inductionHypothesis => simp [compactMembers, inductionHypothesis]

theorem inline_compact (value : Json) : Inline value.compact := by
  induction value with
  | null => decide
  | bool value => cases value <;> decide
  | num number => exact number.inline_render
  | str text => exact inline_quote text
  | arr items inductionHypothesis =>
    simp only [compact, compactItems_eq, inline_append]
    exact ⟨⟨by decide, .intercalate (by decide) (List.forall_mem_map.mpr inductionHypothesis)⟩,
      by decide⟩
  | obj members inductionHypothesis =>
    have each : ∀ member ∈ members, Inline (quote member.1 ++ ":" ++ compact member.2) := by
      intro member listed
      simp only [inline_append]
      exact ⟨⟨inline_quote _, by decide⟩, inductionHypothesis member listed⟩
    simp only [compact, compactMembers_eq, inline_append]
    exact ⟨⟨by decide, .intercalate (by decide) (List.forall_mem_map.mpr each)⟩, by decide⟩

end Json

end PayloadSchema
