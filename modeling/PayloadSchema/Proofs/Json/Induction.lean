import PayloadSchema.Json.Basic

/-! # Induction over JSON values

What holds of a value if it holds of the items and members inside it holds of every
value.  The lists inside a value need no induction of their own. -/

namespace PayloadSchema

/-- Induction over a value: an array may rely on its items, an object on its members. -/
@[elab_as_elim, induction_eliminator]
theorem Json.induction {motive : Json → Prop}
    (null : motive .null) (bool : ∀ value, motive (.bool value))
    (num : ∀ value, motive (.num value)) (str : ∀ value, motive (.str value))
    (arr : ∀ items, (∀ item ∈ items, motive item) → motive (.arr items))
    (obj : ∀ members, (∀ member ∈ members, motive member.2) → motive (.obj members)) :
    ∀ value, motive value
  | .null => null
  | .bool value => bool value
  | .num value => num value
  | .str value => str value
  | .arr items => arr items fun item _ => induction null bool num str arr obj item
  | .obj members => obj members fun member _ => induction null bool num str arr obj member.2
termination_by value => sizeOf value
decreasing_by
  · have smaller := List.sizeOf_lt_of_mem ‹item ∈ items›
    simp only [Json.arr.sizeOf_spec]
    omega
  · have smaller := List.sizeOf_lt_of_mem ‹member ∈ members›
    have part : sizeOf member.2 < sizeOf member := by
      obtain ⟨key, value⟩ := member
      simp only [Prod.mk.sizeOf_spec]
      omega
    simp only [Json.obj.sizeOf_spec]
    omega

inductive Json.Inside : Json → Json → Prop where
  | item {item : Json} {items : List Json} (listed : item ∈ items) : item.Inside (.arr items)
  | member {member : String × Json} {members : Members} (listed : member ∈ members) :
      member.2.Inside (.obj members)

theorem Json.inside_induction {motive : Json → Prop}
    (step : ∀ value, (∀ part, part.Inside value → motive part) → motive value)
    (value : Json) : motive value := by
  induction value with
  | arr items inductionHypothesis =>
    refine step _ fun part inside => ?_
    cases inside with
    | item listed => exact inductionHypothesis part listed
  | obj members inductionHypothesis =>
    refine step _ fun part inside => ?_
    cases inside with
    | member listed => exact inductionHypothesis _ listed
  | _ => exact step _ fun part inside => by cases inside

theorem Json.array_cases (value : Json) :
    (∃ items, value = .arr items) ∨ ∀ items, value ≠ .arr items := by
  cases value with
  | arr items => exact .inl ⟨items, rfl⟩
  | _ => exact .inr (by simp)

theorem Json.object_cases (value : Json) :
    (∃ members, value = .obj members) ∨ ∀ members, value ≠ .obj members := by
  cases value with
  | obj members => exact .inl ⟨members, rfl⟩
  | _ => exact .inr (by simp)

theorem Members.mem_of_get? {members : Members} {key : String} {value : Json}
    (found : members.get? key = some value) : (key, value) ∈ members := by
  obtain ⟨before, after, split, _⟩ := List.lookup_eq_some_iff.mp found
  simp [split]

end PayloadSchema
