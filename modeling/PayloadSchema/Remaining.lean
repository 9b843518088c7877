/-! # What a walk has still to visit

A walk over finitely many items that marks each one before it goes on ends, because
the number of unmarked items falls with every mark. -/

namespace PayloadSchema

variable {α : Type}

/-- The number of items that are not marked, an item being known by its key. -/
def remaining (key : α → Nat) (items : List α) (marked : List Nat) : Nat :=
  items.countP fun item => !marked.contains (key item)

/-- The more is marked, the fewer items remain. -/
theorem remaining_le_of_subset (key : α → Nat) (items : List α) {marked others : List Nat}
    (more : marked ⊆ others) : remaining key items others ≤ remaining key items marked := by
  apply List.countP_mono_left
  intro item _ unmarked
  simp only [Bool.not_eq_true', List.contains_eq_mem, decide_eq_false_iff_not] at unmarked ⊢
  exact fun known => unmarked (more known)

/-- A further mark leaves no more items than before. -/
theorem remaining_cons_le (key : α → Nat) (items : List α) (marked : List Nat) (mark : Nat) :
    remaining key items (mark :: marked) ≤ remaining key items marked :=
  remaining_le_of_subset key items (List.subset_cons_self mark marked)

/-- Marking an unmarked item leaves fewer items. -/
theorem remaining_cons_lt (key : α → Nat) (items : List α) (marked : List Nat) (item : α)
    (listed : item ∈ items) (unmarked : marked.contains (key item) = false) :
    remaining key items (key item :: marked) < remaining key items marked := by
  obtain ⟨before, after, rfl⟩ := List.append_of_mem listed
  have earlier := remaining_cons_le key before marked (key item)
  have later := remaining_cons_le key after marked (key item)
  have counted : (!marked.contains (key item)) = true := by rw [unmarked]; rfl
  have dropped : ¬ (!(key item :: marked).contains (key item)) = true := by simp
  simp only [remaining, List.countP_append, List.countP_cons, if_pos counted,
    if_neg dropped] at earlier later ⊢
  omega

end PayloadSchema
