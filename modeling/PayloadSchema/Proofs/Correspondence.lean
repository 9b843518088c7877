import Mathlib.Data.List.Forall2

/-! # Lists that correspond

Where the items of two lists are related one by one, each item of the one has its partner in the
other, and what agrees on related items makes one list of both. -/

namespace PayloadSchema

variable {α β : Type} {related : α → β → Prop} {lefts : List α} {rights : List β}

theorem forall₂_right_of_mem (pairs : List.Forall₂ related lefts rights) {left : α}
    (listed : left ∈ lefts) : ∃ right ∈ rights, related left right := by
  induction pairs with
  | nil => cases listed
  | cons pair _ inductionHypothesis =>
    rcases List.mem_cons.mp listed with rfl | later
    · exact ⟨_, List.mem_cons_self, pair⟩
    · obtain ⟨right, member, found⟩ := inductionHypothesis later
      exact ⟨right, List.mem_cons_of_mem _ member, found⟩

theorem forall₂_left_of_mem (pairs : List.Forall₂ related lefts rights) {right : β}
    (listed : right ∈ rights) : ∃ left ∈ lefts, related left right :=
  forall₂_right_of_mem pairs.flip listed

theorem forall₂_map_eq {γ : Type} {left : α → γ} {right : β → γ}
    (agree : ∀ first second, related first second → left first = right second)
    (pairs : List.Forall₂ related lefts rights) : lefts.map left = rights.map right := by
  induction pairs with
  | nil => rfl
  | cons pair _ inductionHypothesis =>
    rw [List.map_cons, List.map_cons, agree _ _ pair, inductionHypothesis]

end PayloadSchema
