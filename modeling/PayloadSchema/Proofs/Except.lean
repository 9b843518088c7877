/-! # Results that may be errors

When two steps succeed one after the other and which of them failed, what mapping over a
result does to it, when it has a value, and when a result that hangs on a condition is a
success. -/

namespace PayloadSchema

variable {ε α β : Type}

theorem bind_eq_ok_iff {first : Except ε α} {next : α → Except ε β} {result : β} :
    (first >>= next) = .ok result ↔ ∃ value, first = .ok value ∧ next value = .ok result := by
  cases first with
  | error cause => simp [bind, Except.bind]
  | ok value => simp [bind, Except.bind]

theorem bind_eq_error_iff {first : Except ε α} {next : α → Except ε β} {cause : ε} :
    (first >>= next) = .error cause ↔
      first = .error cause ∨ ∃ value, first = .ok value ∧ next value = .error cause := by
  cases first with
  | error other => simp [bind, Except.bind]
  | ok value => simp [bind, Except.bind]

theorem seq_eq_ok_iff {first : Except ε Unit} {next : Except ε β} {result : β} :
    (first >>= fun _ => next) = .ok result ↔ first = .ok () ∧ next = .ok result := by
  cases first with
  | error cause => simp [bind, Except.bind]
  | ok value => simp [bind, Except.bind]

theorem forM_eq_ok_iff {list : List α} {step : α → Except ε Unit} :
    list.forM step = .ok () ↔ ∀ value ∈ list, step value = .ok () := by
  induction list with
  | nil => simp [pure, Except.pure]
  | cons first rest inductionHypothesis =>
    rw [List.forM, seq_eq_ok_iff, inductionHypothesis, List.forall_mem_cons]

theorem forM_eq_error_iff {list : List α} {step : α → Except ε Unit} {cause : ε} :
    list.forM step = .error cause ↔ ∃ before item after, list = before ++ item :: after ∧
      (∀ earlier ∈ before, step earlier = .ok ()) ∧ step item = .error cause := by
  induction list with
  | nil => simp [pure, Except.pure]
  | cons first rest inductionHypothesis =>
    rw [List.forM, bind_eq_error_iff, inductionHypothesis]
    constructor
    · rintro (refused | ⟨_, passed, before, item, after, rfl, earlier, refused⟩)
      · exact ⟨[], first, rest, rfl, by simp, refused⟩
      · exact ⟨first :: before, item, after, rfl, List.forall_mem_cons.mpr ⟨passed, earlier⟩,
          refused⟩
    · rintro ⟨before, item, after, split, earlier, refused⟩
      cases before with
      | nil =>
        obtain ⟨rfl, rfl⟩ := List.cons.inj split
        exact .inl refused
      | cons head before =>
        obtain ⟨rfl, rfl⟩ := List.cons.inj split
        obtain ⟨passed, others⟩ := List.forall_mem_cons.mp earlier
        exact .inr ⟨(), passed, before, item, after, rfl, others, refused⟩

theorem forM_eq_error {list : List α} {step : α → Except ε Unit} {cause : ε}
    (failed : list.forM step = .error cause) : ∃ value ∈ list, step value = .error cause := by
  obtain ⟨before, value, after, rfl, _, refused⟩ := forM_eq_error_iff.mp failed
  exact ⟨value, by simp, refused⟩

theorem map_eq_ok_iff {function : α → β} {result : Except ε α} {image : β} :
    result.map function = .ok image ↔ ∃ value, result = .ok value ∧ function value = image := by
  cases result with
  | error cause => simp [Except.map]
  | ok value => simp [Except.map]

theorem map_eq_error_iff {function : α → β} {result : Except ε α} {cause : ε} :
    result.map function = .error cause ↔ result = .error cause := by
  cases result with
  | error other => simp [Except.map]
  | ok value => simp [Except.map]

theorem toOption_eq_some_iff {result : Except ε α} {value : α} :
    result.toOption = some value ↔ result = .ok value := by
  cases result with
  | error cause => simp [Except.toOption]
  | ok other => simp [Except.toOption]

theorem exists_of_isOk {result : Except ε α} (succeeds : result.isOk = true) :
    ∃ value, result = .ok value := by
  cases result with
  | error cause => cases succeeds
  | ok value => exact ⟨value, rfl⟩

variable {condition : Prop} [Decidable condition] {value result : α} {cause other : ε}

theorem ite_eq_ok_iff :
    (if condition then Except.ok value else .error cause) = .ok result ↔
      condition ∧ result = value := by
  by_cases holds : condition <;> simp [holds, eq_comm]

theorem ite_eq_error_iff :
    (if condition then Except.ok value else .error cause) = .error other ↔
      ¬ condition ∧ other = cause := by
  by_cases holds : condition <;> simp [holds, eq_comm]

/-- Whether two results are values that are related, or errors that are linked. -/
inductive AlikeResults (linked : ε → ε → Prop) (related : α → β → Prop) :
    Except ε α → Except ε β → Prop where
  | ok {value : α} {other : β} (alike : related value other) :
      AlikeResults linked related (.ok value) (.ok other)
  | error {cause other : ε} (alike : linked cause other) :
      AlikeResults linked related (.error cause) (.error other)

namespace AlikeResults

variable {γ δ : Type} {linked : ε → ε → Prop} {related : α → β → Prop} {later : γ → δ → Prop}
  {first : Except ε α} {second : Except ε β}

theorem map {function : α → γ} {other : β → δ} (alike : AlikeResults linked related first second)
    (next : ∀ value image, related value image → later (function value) (other image)) :
    AlikeResults linked later (first.map function) (second.map other) := by
  cases alike with
  | ok alike => exact .ok (next _ _ alike)
  | error alike => exact .error alike

theorem bind {next : α → Except ε γ} {other : β → Except ε δ}
    (alike : AlikeResults linked related first second)
    (goesOn : ∀ value image, first = .ok value → related value image →
      AlikeResults linked later (next value) (other image)) :
    AlikeResults linked later (first >>= next) (second >>= other) := by
  cases alike with
  | ok alike => exact goesOn _ _ rfl alike
  | error alike => exact .error alike

end AlikeResults

end PayloadSchema
