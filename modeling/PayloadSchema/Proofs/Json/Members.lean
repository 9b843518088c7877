import Mathlib.Data.List.Nodup
import PayloadSchema.Json.Basic

/-! # Members by their keys

What stands under a key, where members are put behind others, and where their keys follow the
order of some distinct names. -/

namespace PayloadSchema

theorem lookup_of_mem {α : Type} {pairs : List (String × α)}
    (distinct : (pairs.map Prod.fst).Nodup) {pair : String × α} (listed : pair ∈ pairs) :
    pairs.lookup pair.1 = some pair.2 := by
  obtain ⟨before, after, rfl⟩ := List.append_of_mem listed
  rw [List.map_append, List.map_cons, List.nodup_append] at distinct
  refine List.lookup_eq_some_iff.mpr ⟨before, after, rfl, fun earlier member => ?_⟩
  have apart := distinct.2.2 _ (List.mem_map_of_mem member) pair.1 List.mem_cons_self
  simpa using apart.symm

namespace Members

theorem get?_eq_none_iff {members : Members} {key : String} :
    members.get? key = none ↔ key ∉ members.map Prod.fst := by
  rw [get?, List.lookup_eq_none_iff, List.mem_map]
  constructor
  · rintro apart ⟨member, listed, rfl⟩
    simpa using apart member listed
  · intro absent member listed
    simpa using fun same => absent ⟨member, listed, Eq.symm same⟩

theorem get?_append (first second : Members) (key : String) :
    get? (first ++ second) key = (get? first key).or (get? second key) :=
  List.lookup_append

@[simp] theorem get?_cons_self (key : String) (value : Json) (rest : Members) :
    get? ((key, value) :: rest) key = some value := by
  simp [get?]

theorem get?_cons_ne {key other : String} (differs : key ≠ other) (value : Json)
    (rest : Members) : get? ((other, value) :: rest) key = get? rest key := by
  have unequal : (key == other) = false := by simpa using differs
  simp [get?, List.lookup_cons, unequal]

theorem get?_filter (members : Members) (keep : String → Bool) (key : String) :
    get? (members.filter fun member => keep member.1) key =
      if keep key then members.get? key else none := by
  induction members with
  | nil => simp [get?]
  | cons member rest inductionHypothesis =>
    obtain ⟨other, value⟩ := member
    by_cases same : key = other
    · subst same
      by_cases kept : keep key = true
      · simp [kept]
      · simpa [kept] using inductionHypothesis
    · rw [get?_cons_ne same, ← inductionHypothesis]
      by_cases kept : keep other = true
      · simp [kept, get?_cons_ne same]
      · simp [kept]

/-- Members whose keys follow the order of distinct names are what stands under the names. -/
theorem filterMap_get? {names : List String} (distinct : names.Nodup) {members : Members}
    (order : (members.map Prod.fst).Sublist names) :
    names.filterMap (fun name => (members.get? name).map (name, ·)) = members := by
  induction names generalizing members with
  | nil =>
    rw [List.sublist_nil, List.map_eq_nil_iff] at order
    subst order
    rfl
  | cons name rest inductionHypothesis =>
    obtain ⟨fresh, others⟩ := List.nodup_cons.mp distinct
    rw [List.sublist_cons_iff] at order
    rcases order with later | ⟨keys, first, order⟩
    · -- All keys come after the name, so nothing stands under it.
      have absent : members.get? name = none :=
        get?_eq_none_iff.mpr fun listed => fresh (later.subset listed)
      rw [List.filterMap_cons, absent]
      exact inductionHypothesis others later
    · obtain ⟨⟨key, value⟩, behind, rfl, rfl, rfl⟩ := List.map_eq_cons_iff.mp first
      have passed : rest.filterMap
          (fun name => (get? ((key, value) :: behind) name).map (name, ·)) =
          rest.filterMap fun name => (get? behind name).map (name, ·) := by
        refine List.filterMap_congr fun other listed => ?_
        have differs : other ≠ key := fun same => fresh (show key ∈ rest from same ▸ listed)
        rw [get?_cons_ne differs]
      rw [List.filterMap_cons, get?_cons_self, passed, inductionHypothesis others order]
      rfl

end Members

end PayloadSchema
