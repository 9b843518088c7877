import PayloadSchema.Violation

/-! # Violations up to the order of unknown keys

Two lists of violations may differ in nothing but the order in which unknown keys of one and
the same object are named.  So they hold the same violations, and any selection of them that
has at most one unknown key of each object stands in the same order in both. -/

namespace PayloadSchema.Violation

/-- Whether a selection of violations has at most one unknown key of each object. -/
def Apart (keep : Violation → Bool) : Prop :=
  ∀ path key other, keep ⟨Path.field path key, .undeclared⟩ = true →
    keep ⟨Path.field path other, .undeclared⟩ = true → key = other

/-- Whether two lists hold the same violations, in the same order but for the unknown keys of
    one object. -/
structure Reordered (violations others : List Violation) : Prop where
  perm : violations.Perm others
  order : ∀ keep, Apart keep → violations.filter keep = others.filter keep

namespace Reordered

theorem refl (violations : List Violation) : Reordered violations violations :=
  ⟨.refl violations, fun _ _ => rfl⟩

theorem append {first second third fourth : List Violation} (left : Reordered first second)
    (right : Reordered third fourth) : Reordered (first ++ third) (second ++ fourth) := by
  refine ⟨left.perm.append right.perm, fun keep apart => ?_⟩
  rw [List.filter_append, List.filter_append, left.order keep apart, right.order keep apart]

theorem eq_nil_iff {violations others : List Violation} (same : Reordered violations others) :
    violations = [] ↔ others = [] := by
  rw [← List.length_eq_zero_iff, ← List.length_eq_zero_iff, same.perm.length_eq]

theorem undeclared {keys others : List String} (perm : keys.Perm others) (path : Path) :
    Reordered (keys.map fun key => ⟨path.field key, .undeclared⟩)
      (others.map fun key => ⟨path.field key, .undeclared⟩) := by
  refine ⟨perm.map _, fun keep apart => ?_⟩
  induction perm with
  | nil => rfl
  | cons key _ inductionHypothesis =>
    rw [List.map_cons, List.map_cons, List.filter_cons, List.filter_cons, inductionHypothesis]
  | swap key other rest =>
    simp only [List.map_cons, List.filter_cons]
    by_cases first : keep ⟨path.field key, .undeclared⟩ = true
    · by_cases second : keep ⟨path.field other, .undeclared⟩ = true
      · -- Only one of them is selected, so that they are one.
        rw [apart path key other first second]
      · simp [second]
    · simp [first]
  | trans _ _ left right => exact left.trans right

end Reordered

end PayloadSchema.Violation
