import PayloadSchema.Json.Value
import PayloadSchema.Proofs.Json.Induction
import PayloadSchema.Proofs.Json.Members

/-! # Values with distinct keys

A value that was read has no repeated key, in any object inside it: a repeated key keeps its
first place and its last value.  Only of such values is the equality of JSON a comparison of
what stands under each key. -/

namespace PayloadSchema

namespace Members

theorem mem_keys_set {members : Members} {key other : String} {value : Json} :
    other ∈ (members.set key value).map Prod.fst ↔ other = key ∨ other ∈ members.map Prod.fst := by
  induction members with
  | nil => simp [set]
  | cons member rest inductionHypothesis =>
    obtain ⟨first, kept⟩ := member
    rw [set]
    by_cases same : first = key
    · simp [same]
    · rw [if_neg same, List.map_cons, List.map_cons, List.mem_cons, List.mem_cons,
        inductionHypothesis]
      exact or_left_comm

theorem nodup_keys_set {members : Members} (distinct : (members.map Prod.fst).Nodup)
    (key : String) (value : Json) : ((members.set key value).map Prod.fst).Nodup := by
  induction members with
  | nil => simp [set]
  | cons member rest inductionHypothesis =>
    obtain ⟨first, kept⟩ := member
    obtain ⟨fresh, others⟩ := List.nodup_cons.mp distinct
    rw [set]
    by_cases same : first = key
    · simpa [same] using distinct
    · rw [if_neg same, List.map_cons, List.nodup_cons, mem_keys_set, not_or]
      exact ⟨⟨same, fresh⟩, inductionHypothesis others⟩

theorem mem_set {members : Members} {key : String} {value : Json} {member : String × Json}
    (listed : member ∈ members.set key value) : member = (key, value) ∨ member ∈ members := by
  induction members with
  | nil => exact .inl (List.mem_singleton.mp listed)
  | cons first rest inductionHypothesis =>
    rw [set] at listed
    split at listed
    next same =>
      rcases List.mem_cons.mp listed with here | later
      · exact .inl (by rw [here, same])
      · exact .inr (.tail _ later)
    next =>
      rcases List.mem_cons.mp listed with here | later
      · exact .inr (by simp [here])
      · exact (inductionHypothesis later).imp id (.tail _)

end Members

namespace Json

/-- Whether no object inside a value has a repeated key. -/
inductive Distinct : Json → Prop where
  | null : Distinct .null
  | bool (value : Bool) : Distinct (.bool value)
  | num (value : Number) : Distinct (.num value)
  | str (value : String) : Distinct (.str value)
  | arr {items : List Json} (each : ∀ item ∈ items, Distinct item) : Distinct (.arr items)
  | obj {members : Members} (keys : (members.map Prod.fst).Nodup)
      (each : ∀ member ∈ members, Distinct member.2) : Distinct (.obj members)

namespace Distinct

theorem item {items : List Json} (distinct : (Json.arr items).Distinct) :
    ∀ item ∈ items, item.Distinct := by
  cases distinct with
  | arr each => exact each

theorem keys_nodup {members : Members} (distinct : (Json.obj members).Distinct) :
    (members.map Prod.fst).Nodup := by
  cases distinct with
  | obj keys each => exact keys

theorem member {members : Members} (distinct : (Json.obj members).Distinct) :
    ∀ member ∈ members, member.2.Distinct := by
  cases distinct with
  | obj keys each => exact each

theorem inside {value part : Json} (distinct : value.Distinct) (inner : part.Inside value) :
    part.Distinct := by
  cases inner with
  | item listed => exact distinct.item _ listed
  | member listed => exact distinct.member _ listed

theorem set {members : Members} (distinct : (Json.obj members).Distinct) (key : String)
    {value : Json} (inner : value.Distinct) : (Json.obj (members.set key value)).Distinct := by
  refine .obj (Members.nodup_keys_set distinct.keys_nodup key value) fun member listed => ?_
  rcases Members.mem_set listed with rfl | earlier
  · exact inner
  · exact distinct.member member earlier

end Distinct

mutual

theorem ofDocumentWithin?_distinct (room : Nat) (document : Document) {value : Json}
    (read : ofDocumentWithin? room document = some value) : value.Distinct := by
  cases document with
  | null =>
    cases read
    exact .null
  | bool value =>
    cases read
    exact .bool value
  | number numeral =>
    obtain ⟨number, _, rfl⟩ := Option.map_eq_some_iff.mp read
    exact .num number
  | string text =>
    obtain ⟨text, _, rfl⟩ := Option.map_eq_some_iff.mp read
    exact .str text
  | array items =>
    rw [ofDocumentWithin?] at read
    split at read
    next => cases read
    next =>
      obtain ⟨values, each, rfl⟩ := Option.map_eq_some_iff.mp read
      exact .arr (itemsWithin?_distinct (room - 1) items each)
  | object entries =>
    rw [ofDocumentWithin?] at read
    split at read
    next => cases read
    next =>
      obtain ⟨members, each, rfl⟩ := Option.map_eq_some_iff.mp read
      exact membersWithin?_distinct (room - 1) entries (.obj (by simp) (by simp)) each

theorem itemsWithin?_distinct (room : Nat) (items : List Document) {values : List Json}
    (read : itemsWithin? room items = some values) : ∀ value ∈ values, value.Distinct := by
  cases items with
  | nil =>
    cases read
    simp
  | cons item rest =>
    rw [itemsWithin?] at read
    split at read
    next value others first later =>
      cases read
      rw [List.forall_mem_cons]
      exact ⟨ofDocumentWithin?_distinct room item first, itemsWithin?_distinct room rest later⟩
    next => cases read

theorem membersWithin?_distinct (room : Nat) (entries : Document.Entries)
    {before members : Members} (distinct : (obj before).Distinct)
    (read : membersWithin? room before entries = some members) : (obj members).Distinct := by
  cases entries with
  | nil =>
    cases read
    exact distinct
  | cons entry rest =>
    obtain ⟨key, document⟩ := entry
    unfold membersWithin? at read
    split at read
    next key value first =>
      have inner := ofDocumentWithin?_distinct room document first
      exact membersWithin?_distinct room rest (distinct.set key inner) read
    next => cases read

end

/-- A value that was read has no repeated key. -/
theorem parse?_distinct {text : String} {value : Json} (read : parse? text = some value) :
    value.Distinct := by
  obtain ⟨document, _, read⟩ := Option.bind_eq_some_iff.mp read
  exact ofDocumentWithin?_distinct _ document read

end Json

end PayloadSchema
