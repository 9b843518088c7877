import PayloadSchema.Proofs.Rule.Part

/-! # Routes through rules

A route starts with the rule of a message and goes on, through a field and the lists that it
may hold, to a rule that stands right inside the one before it.  Whatever stands inside a rule
is held by the last rule of some route. -/

namespace PayloadSchema

/-- Whether a shape is another one, or that of the items of lists. -/
inductive Shape.Underlies (part : Shape) : Shape → Prop where
  | itself : part.Underlies part
  | items {element : Rule} (inner : part.Underlies element.shape) : part.Underlies (.array element)

namespace RecordRule

/-- Whether a shape is that of a field, or of the items of its lists. -/
def Holds (rule : RecordRule) (part : Shape) : Prop :=
  ∃ field ∈ rule.fields, part.Underlies field.2.shape

/-- The rules on a route, from an outermost to an innermost one, both included. -/
inductive Route : RecordRule → List RecordRule → RecordRule → Prop where
  | here (rule : RecordRule) : Route rule [rule] rule
  | inside {outer inner innermost : RecordRule} {rules : List RecordRule}
      (held : outer.Holds (.record inner)) (deeper : Route inner rules innermost) :
      Route outer (outer :: rules) innermost

end RecordRule

namespace Shape

variable {part whole : Shape}

theorem Underlies.within (underlies : part.Underlies whole) : part.Within whole := by
  induction underlies with
  | itself => exact .whole
  | items _ inductionHypothesis => exact .element inductionHypothesis

theorem Underlies.eq_of_single (underlies : part.Underlies whole)
    (single : ∀ element, whole ≠ .array element) : part = whole := by
  cases underlies with
  | itself => rfl
  | items => exact absurd rfl (single _)

theorem Within.underlies_or_held (inside : part.Within whole) :
    part.Underlies whole ∨ ∃ rule rules innermost, (Shape.record rule).Underlies whole ∧
      rule.Route rules innermost ∧ innermost.Holds part := by
  induction inside with
  | whole => exact .inl .itself
  | @field rule field listed _ inductionHypothesis =>
    refine .inr ?_
    rcases inductionHypothesis with underlies | ⟨inner, rules, innermost, underlies, route, holds⟩
    · exact ⟨rule, [rule], rule, .itself, .here rule, field, listed, underlies⟩
    · have held : rule.Holds (.record inner) := ⟨field, listed, underlies⟩
      exact ⟨rule, rule :: rules, innermost, .itself, .inside held route, holds⟩
  | element _ inductionHypothesis =>
    rcases inductionHypothesis with underlies | ⟨rule, rules, innermost, underlies, route, holds⟩
    · exact .inl (.items underlies)
    · exact .inr ⟨rule, rules, innermost, .items underlies, route, holds⟩

end Shape

namespace RecordRule

theorem Holds.within {rule : RecordRule} {part : Shape} (holds : rule.Holds part) :
    part.Within (.record rule) := by
  obtain ⟨field, listed, underlies⟩ := holds
  exact .field listed underlies.within

theorem Route.within {outermost innermost : RecordRule} {rules : List RecordRule}
    (route : outermost.Route rules innermost) :
    (Shape.record innermost).Within (.record outermost) := by
  induction route with
  | here => exact .whole
  | inside held _ inductionHypothesis => exact inductionHypothesis.trans held.within

/-- What stands inside a rule is the rule, or is held by the last rule of a route. -/
theorem within_iff_route {rule : RecordRule} {part : Shape} :
    part.Within (.record rule) ↔
      part = .record rule ∨
        ∃ rules innermost, rule.Route rules innermost ∧ innermost.Holds part := by
  constructor
  · intro inside
    rcases inside.underlies_or_held with
      underlies | ⟨outer, rules, innermost, underlies, route, holds⟩
    · cases underlies
      exact .inl rfl
    · cases underlies
      exact .inr ⟨rules, innermost, route, holds⟩
  · rintro (rfl | ⟨rules, innermost, route, holds⟩)
    · exact .whole
    · exact holds.within.trans route.within

theorem exists_route_of_within {rule inner : RecordRule}
    (inside : (Shape.record inner).Within (.record rule)) : ∃ rules, rule.Route rules inner := by
  rcases within_iff_route.mp inside with same | ⟨rules, innermost, route, holds⟩
  · cases same
    exact ⟨[rule], .here rule⟩
  · -- One more step leads from the last rule of the route to the rule that it holds.
    clear inside
    induction route with
    | here rule => exact ⟨[rule, inner], .inside holds (.here inner)⟩
    | @inside outer next _ _ held _ inductionHypothesis =>
      obtain ⟨rules, route⟩ := inductionHypothesis holds
      exact ⟨outer :: rules, .inside held route⟩

end RecordRule

end PayloadSchema
