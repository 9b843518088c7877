import Mathlib.Data.List.Chain
import PayloadSchema.Proofs.Rule.Query

/-! # How deep a check goes

Definitions may refer to one another in cycles, to themselves and to nothing, and a check still
ends: along a chain of queries each record but the first one stands further inside the payload
than the record before it.  A lazy shape that comes back on a chain is asked about a proper part
of the value it was asked about before, and where no value is given it is not asked at all. -/

namespace PayloadSchema

open Relation (ReflTransGen TransGen)

variable {definitions : Definitions} {query next : Query}

/-- Whether a query is about what stands at a place inside what another one is about. -/
def Query.Contains (query next : Query) : Prop :=
  ∃ rest, next.path = query.path ++ rest ∧
    ∀ part, next.value? = some part → query.value?.bind (·.at? rest) = some part

namespace Query.Contains

theorem refl (query : Query) : query.Contains query :=
  ⟨[], (List.append_nil _).symm, fun part found => by rw [found]; rfl⟩

theorem trans {last : Query} (first : query.Contains next) (second : next.Contains last) :
    query.Contains last := by
  obtain ⟨outer, path, outside⟩ := first
  obtain ⟨inner, further, inside⟩ := second
  refine ⟨outer ++ inner, by rw [further, path, List.append_assoc], fun part found => ?_⟩
  obtain ⟨value, stands, deeper⟩ := Option.bind_eq_some_iff.mp (inside part found)
  obtain ⟨whole, whereof, there⟩ := Option.bind_eq_some_iff.mp (outside value stands)
  rw [whereof, Option.bind_some, Json.at?_append, there, Option.bind_some, deeper]

theorem of_asks (asks : Asks definitions query next) : query.Contains next := by
  cases asks with
  | given given =>
    obtain ⟨rfl, _⟩ := (Rule.given?_eq_some_iff _ _ _).mp given
    exact ⟨[], (List.append_nil _).symm, fun part found => found⟩
  | @item path element items position item listed =>
    refine ⟨[.index position], rfl, fun part found => ?_⟩
    cases found
    have root : (Json.arr items).at? [] = some (.arr items) := rfl
    exact (Json.at?_index root position).trans listed
  | @field path rule members field declared =>
    refine ⟨[.field field.1], rfl, fun part found => ?_⟩
    have root : (Json.obj members).at? [] = some (.obj members) := rfl
    have stands := ((Rule.given?_eq_some_iff _ _ _).mp found).1
    exact (Json.at?_field root field.1).trans stands
  | _ => exact ⟨[], (List.append_nil _).symm, fun part found => found⟩

theorem of_steps (steps : ReflTransGen (Asks definitions) query next) : query.Contains next := by
  induction steps with
  | refl => exact .refl query
  | tail _ asks inductionHypothesis => exact inductionHypothesis.trans (.of_asks asks)

end Query.Contains

/-- How many records are entered at most on the way to a query. -/
def Query.reach : Query → Nat
  | .slot path _ _ | .shape path _ _ => path.length
  | .list path _ _ | .record path _ _ => path.length + 1

theorem Asks.reach_le (asks : Asks definitions query next) :
    query.reach + next.isRecord.toNat ≤ next.reach := by
  cases asks with
  | item => simp [Query.reach, Query.isRecord, Path.index]
  | field => simp [Query.reach, Query.isRecord, Path.field]
  | _ => simp [Query.reach, Query.isRecord]

theorem reach_le_of_steps (steps : ReflTransGen (Asks definitions) query next) :
    query.reach ≤ next.reach := by
  induction steps with
  | refl => exact Nat.le_refl _
  | tail _ asks inductionHypothesis =>
    exact Nat.le_trans inductionHypothesis (Nat.le_of_add_right_le asks.reach_le)

variable {first : Query} {chain : List Query}

theorem steps_of_mem (linked : (first :: chain).IsChain (Asks definitions))
    (listed : query ∈ first :: chain) : ReflTransGen (Asks definitions) first query := by
  induction chain generalizing first with
  | nil =>
    rw [List.mem_singleton] at listed
    rw [listed]
  | cons second rest inductionHypothesis =>
    obtain ⟨asks, further⟩ := List.isChain_cons_cons.mp linked
    cases List.mem_cons.mp listed with
    | inl same => rw [same]
    | inr later => exact .head asks (inductionHypothesis further later)

theorem length_le_need (linked : (first :: chain).IsChain (Asks definitions)) :
    (first :: chain).length ≤ first.need := by
  induction chain generalizing first with
  | nil => exact first.need_pos
  | cons second rest inductionHypothesis =>
    obtain ⟨asks, further⟩ := List.isChain_cons_cons.mp linked
    exact Nat.succ_le_of_lt (Nat.lt_of_le_of_lt (inductionHypothesis further) asks.need_lt)

theorem records_le (linked : (first :: chain).IsChain (Asks definitions)) :
    chain.countP Query.isRecord = 0 ∨ ∃ query ∈ chain, query.isRecord = true ∧
      first.reach + chain.countP Query.isRecord ≤ query.reach := by
  induction chain generalizing first with
  | nil => exact .inl rfl
  | cons second rest inductionHypothesis =>
    obtain ⟨asks, further⟩ := List.isChain_cons_cons.mp linked
    have step := asks.reach_le
    rw [List.countP_cons]
    rcases inductionHypothesis further with none | ⟨query, listed, record, bound⟩
    · cases record : second.isRecord with
      | false => exact .inl (by simp [none])
      | true =>
        refine .inr ⟨second, List.mem_cons_self, record, ?_⟩
        rw [record] at step
        simpa [none] using step
    · refine .inr ⟨query, .tail _ listed, record, ?_⟩
      cases own : second.isRecord <;> simp [own] at step ⊢ <;> omega

theorem Query.exists_value_of_isRecord (record : query.isRecord = true) :
    ∃ value, query.value? = some value ∧ query.reach = query.path.length + 1 := by
  cases query with
  | record path rule value => exact ⟨value, rfl, rfl⟩
  | _ => cases record

/-- A chain enters at most one record more than the steps that it goes into the payload. -/
theorem records_le_levels {rule : RecordRule} {payload : Json}
    (linked : (Query.record [] rule payload :: chain).IsChain (Asks definitions)) :
    ∃ query ∈ Query.record [] rule payload :: chain, ∃ value, query.value? = some value ∧
      payload.at? query.path = some value ∧
      (Query.record [] rule payload :: chain).countP Query.isRecord ≤ query.path.length + 1 := by
  rw [List.countP_cons_of_pos rfl]
  rcases records_le linked with none | ⟨query, listed, record, bound⟩
  · exact ⟨_, List.mem_cons_self, payload, rfl, rfl, by simp [none]⟩
  · obtain ⟨value, about, reach⟩ := query.exists_value_of_isRecord record
    obtain ⟨rest, path, inside⟩ := Query.Contains.of_steps (steps_of_mem linked (.tail _ listed))
    have place : query.path = rest := path
    refine ⟨query, .tail _ listed, value, about, place ▸ inside value about, ?_⟩
    rw [reach] at bound
    simp only [Query.reach, List.length_nil] at bound
    omega

/-- A lazy shape that a lazy shape leads to is asked about a proper part of its value. -/
theorem lazy_descends {path place : Path} {message other : String} {id target : MessageId}
    {value part : Json} (steps : TransGen (Asks definitions)
      (.shape path (.lazy message id) value) (.shape place (.lazy other target) part)) :
    ∃ rest, rest ≠ [] ∧ place = path ++ rest ∧ value.at? rest = some part ∧
      part.depth < value.depth := by
  obtain ⟨next, asks, further⟩ := TransGen.head'_iff.mp steps
  obtain ⟨rest, along, inside⟩ := Query.Contains.of_steps steps.to_reflTransGen
  have found : value.at? rest = some part := inside part rfl
  have deeper : path.length + 1 ≤ place.length := by
    -- The first query is about a record at the same place, and no later one reaches less far.
    cases asks with
    | lazy => exact reach_le_of_steps further
  have longer : 0 < rest.length := by
    have lengths := congrArg List.length along
    simp only [Query.path, List.length_append] at lengths
    omega
  have bound := Json.depth_of_at? found
  exact ⟨rest, List.ne_nil_of_length_pos longer, along, found, by omega⟩

/-- A check ends, whatever the definitions are, and each answer rests on the queries that it asks.
    A chain of these is no longer than the payload is deep, up to a factor, and enters at most
    one record more than the steps it goes into the payload; a lazy shape leads to another one only
    at a proper part of its value; and a slot that is given nothing asks nothing. -/
theorem check_terminates (definitions : Definitions) (rule : RecordRule) (payload : Json) :
    (∀ room, 3 * payload.depth + 2 ≤ room →
      run definitions room (.record [] rule payload) =
        some (check definitions (.record rule) [] payload)) ∧
    (∀ ask other query, (∀ next, Asks definitions query next → ask next = other next) →
      answer definitions ask query = answer definitions other query) ∧
    (∀ chain, (Query.record [] rule payload :: chain).IsChain (Asks definitions) →
      (Query.record [] rule payload :: chain).length ≤ 3 * payload.depth + 2 ∧
      ∃ query ∈ Query.record [] rule payload :: chain, ∃ value, query.value? = some value ∧
        payload.at? query.path = some value ∧
        (Query.record [] rule payload :: chain).countP Query.isRecord ≤ query.path.length + 1) ∧
    (∀ path place message other id target value part,
      TransGen (Asks definitions) (.shape path (.lazy message id) value)
        (.shape place (.lazy other target) part) →
      ∃ rest, rest ≠ [] ∧ place = path ++ rest ∧ value.at? rest = some part ∧
        part.depth < value.depth) ∧
    ∀ path (rule : Rule) found, rule.given? found = none →
      (∀ next, ¬ Asks definitions (.slot path rule found) next) ∧
      ∀ ask, answer definitions ask (.slot path rule found) = some (rule.absent path) := by
  refine ⟨fun room enough => run_eq enough, fun ask other query agree => answer_congr agree,
    fun chain linked => ⟨length_le_need linked, records_le_levels linked⟩,
    fun path place message other id target value part steps => lazy_descends steps,
    fun path rule found absent => ⟨fun next asks => ?_, fun ask => by simp only [answer, absent]⟩⟩
  cases asks with
  | given given => cases absent.symm.trans given

def link : RecordRule where
  message := "Link"
  fields := [("next", { shape := .lazy "Link" 0 })]

theorem link_terminates :
    run [(0, link)] 8 (.record [] link (.obj [("next", .obj [("next", .obj [])])])) =
      some (check [(0, link)] (.record link) [] (.obj [("next", .obj [("next", .obj [])])])) ∧
    (Json.obj []).depth < (Json.obj [("next", .obj [])]).depth := by
  obtain ⟨ends, _, _, lazies, _⟩ :=
    check_terminates [(0, link)] link (.obj [("next", .obj [("next", .obj [])])])
  have steps : TransGen (Asks [(0, link)])
      (.shape [.field "next"] (.lazy "Link" 0) (.obj [("next", .obj [])]))
      (.shape [.field "next", .field "next"] (.lazy "Link" 0) (.obj [])) :=
    .head (.lazy rfl) (.head (.field List.mem_cons_self) (.single (.given rfl)))
  obtain ⟨_, _, _, _, smaller⟩ := lazies _ _ _ _ _ _ _ _ steps
  exact ⟨ends 8 (by decide), smaller⟩

end PayloadSchema
