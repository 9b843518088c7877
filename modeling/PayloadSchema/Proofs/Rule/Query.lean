import Mathlib.Data.List.Chain
import PayloadSchema.Proofs.Rule.Place
import PayloadSchema.Proofs.Rule.Under

/-! # The queries of a check

A check may be told as a sequence of queries, each of which asks others: a slot asks about the
value it is given, a shape asks for a list or a record, and these ask about their slots.  A lazy
shape asks for the record of a definition and hands it the same value, so that neither the rule
nor the value decreases from one query to the next.  What decreases is the value from one record
to the next, since a record asks only about what stands one step further inside. -/

namespace PayloadSchema

namespace Json

mutual

/-- How many steps lead into a value at most. -/
def depth : Json → Nat
  | .arr items => itemsDepth items
  | .obj members => membersDepth members
  | .null | .bool _ | .num _ | .str _ => 0

def itemsDepth : List Json → Nat
  | [] => 0
  | item :: rest => max (item.depth + 1) (itemsDepth rest)

def membersDepth : Members → Nat
  | [] => 0
  | (_, value) :: rest => max (value.depth + 1) (membersDepth rest)

end

theorem depth_lt_itemsDepth {item : Json} {items : List Json} (listed : item ∈ items) :
    item.depth < itemsDepth items := by
  induction items with
  | nil => cases listed
  | cons first rest inductionHypothesis =>
    rw [itemsDepth]
    cases List.mem_cons.mp listed with
    | inl same => subst same; omega
    | inr later => have smaller := inductionHypothesis later; omega

theorem depth_lt_membersDepth {member : String × Json} {members : Members}
    (listed : member ∈ members) : member.2.depth < membersDepth members := by
  induction members with
  | nil => cases listed
  | cons first rest inductionHypothesis =>
    rw [membersDepth]
    cases List.mem_cons.mp listed with
    | inl same => subst same; omega
    | inr later => have smaller := inductionHypothesis later; omega

theorem Inside.depth_lt {part value : Json} (inside : part.Inside value) :
    part.depth < value.depth := by
  cases inside with
  | item listed => exact depth_lt_itemsDepth listed
  | member listed => exact depth_lt_membersDepth listed

theorem inside_of_part? {part value : Json} {step : Step} (found : value.part? step = some part) :
    part.Inside value := by
  cases value with
  | arr items =>
    cases step with
    | index position => exact .item (List.mem_of_getElem? found)
    | field name => cases found
  | obj members =>
    cases step with
    | index position => cases found
    | field name => exact .member (Members.mem_of_get? found)
  | _ => cases found

theorem depth_of_at? {part value : Json} {path : Path} (found : value.at? path = some part) :
    part.depth + path.length ≤ value.depth := by
  induction path generalizing value with
  | nil =>
    cases found
    exact Nat.le_refl _
  | cons step rest inductionHypothesis =>
    obtain ⟨next, stands, further⟩ := Option.bind_eq_some_iff.mp found
    have inner := inductionHypothesis further
    have outer := (inside_of_part? stands).depth_lt
    rw [List.length_cons]
    omega

end Json

/-- A question of a check, at a place: about a slot, which may be empty, or about a value and a
    shape, a list or a record. -/
inductive Query where
  | slot (path : Path) (rule : Rule) (found : Option Json)
  | shape (path : Path) (shape : Shape) (value : Json)
  | list (path : Path) (element : Rule) (value : Json)
  | record (path : Path) (rule : RecordRule) (value : Json)

namespace Query

def path : Query → Path
  | .slot path _ _ | .shape path _ _ | .list path _ _ | .record path _ _ => path

def value? : Query → Option Json
  | .slot _ _ found => found
  | .shape _ _ value | .list _ _ value | .record _ _ value => some value

def isRecord : Query → Bool
  | .record _ _ _ => true
  | .slot _ _ _ | .shape _ _ _ | .list _ _ _ => false

end Query

/-- What a check answers. -/
def Query.outcome (definitions : Definitions) : Query → Outcome
  | .slot path rule found => rule.checkGiven definitions path (rule.given? found)
  | .shape path asked value => check definitions asked path value
  | .list path element value => check definitions (.array element) path value
  | .record path rule value => check definitions (.record rule) path value

/-- Which queries a query may ask. -/
inductive Asks (definitions : Definitions) : Query → Query → Prop where
  | given {path : Path} {rule : Rule} {found : Option Json} {value : Json}
      (given : rule.given? found = some value) :
      Asks definitions (.slot path rule found) (.shape path rule.shape value)
  | list {path : Path} {element : Rule} {value : Json} :
      Asks definitions (.shape path (.array element) value) (.list path element value)
  | record {path : Path} {rule : RecordRule} {value : Json} :
      Asks definitions (.shape path (.record rule) value) (.record path rule value)
  | lazy {path : Path} {message : String} {id : MessageId} {rule : RecordRule} {value : Json}
      (defined : definitions.get? id = some rule) :
      Asks definitions (.shape path (.lazy message id) value) (.record path rule value)
  | item {path : Path} {element : Rule} {items : List Json} {position : Nat} {item : Json}
      (listed : items[position]? = some item) :
      Asks definitions (.list path element (.arr items))
        (.slot (path.index position) element (some item))
  | field {path : Path} {rule : RecordRule} {members : Members} {field : String × Rule}
      (declared : field ∈ rule.fields) :
      Asks definitions (.record path rule (.obj members))
        (.slot (path.field field.1) field.2 (field.2.given? (members.get? field.1)))

/-! ## Answers -/

section

variable (definitions : Definitions) (ask : Query → Option Outcome)

/-- Asks about the items of an array from a position on, up to the first that is refused. -/
def askItems (element : Rule) (path : Path) (position : Nat) :
    List Json → Option (Except (List Violation) (List Json))
  | [] => some (.ok [])
  | item :: rest =>
    (ask (.slot (path.index position) element (some item))).bind fun outcome =>
      match outcome.violations with
      | [] => (askItems element path (position + 1) rest).map fun values =>
          values.map (outcome.value.getD .null :: ·)
      | found => some (.error found)

def askFields (path : Path) (members : Members) :
    List (String × Rule) → Option (List FieldOutcome)
  | [] => some []
  | (name, rule) :: rest =>
    let given := rule.given? (members.get? name)
    (ask (.slot (path.field name) rule given)).bind fun outcome =>
      (askFields path members rest).map
        (⟨name, given.isSome || outcome.value.isSome, outcome⟩ :: ·)

/-- The answer to a query, from those to the queries it asks, if these have answers. -/
def answer : Query → Option Outcome
  | .slot path rule found =>
    match rule.given? found with
    | some value => ask (.shape path rule.shape value)
    | none => some (rule.absent path)
  | .shape path (.record rule) value => ask (.record path rule value)
  | .shape path (.array element) value => ask (.list path element value)
  | .shape path (.lazy message id) value =>
    match definitions.get? id with
    | some rule => ask (.record path rule value)
    | none => some (.refuse path (.undefined message))
  | .shape path shape value => some (.judge path value (shape.fault? definitions value))
  | .list path element (.arr items) =>
    (askItems ask element path 0 items).map fun
      | .ok values => .accept (.arr values)
      | .error violations => ⟨none, violations⟩
  | .list path _ value => some (.refuse path (.mismatch "array" value.kindName))
  | .record path rule (.obj members) =>
    (askFields ask path members rule.fields).map (rule.conclude path members)
  | .record path _ value => some (.refuse path (.mismatch "object" value.kindName))

end

/-- Answers a query if the queries inside it end within a bound. -/
def run (definitions : Definitions) : Nat → Query → Option Outcome
  | 0, _ => none
  | room + 1, query => answer definitions (run definitions room) query

section

variable {definitions : Definitions} {ask other : Query → Option Outcome}

theorem askItems_congr {element : Rule} {path : Path} {position : Nat} {items : List Json}
    (agree : ∀ step item, items[step]? = some item →
      ask (.slot (path.index (position + step)) element (some item)) =
        other (.slot (path.index (position + step)) element (some item))) :
    askItems ask element path position items = askItems other element path position items := by
  induction items generalizing position with
  | nil => rfl
  | cons item rest inductionHypothesis =>
    have first := agree 0 item rfl
    have others : askItems ask element path (position + 1) rest =
        askItems other element path (position + 1) rest := by
      apply inductionHypothesis
      intro step item listed
      have later := agree (step + 1) item listed
      rwa [Nat.add_assoc, Nat.add_comm 1 step]
    rw [askItems, askItems, ← Nat.add_zero position, first, Nat.add_zero, others]

theorem askFields_congr {path : Path} {members : Members} {fields : List (String × Rule)}
    (agree : ∀ field ∈ fields,
      ask (.slot (path.field field.1) field.2 (field.2.given? (members.get? field.1))) =
        other (.slot (path.field field.1) field.2 (field.2.given? (members.get? field.1)))) :
    askFields ask path members fields = askFields other path members fields := by
  induction fields with
  | nil => rfl
  | cons field rest inductionHypothesis =>
    obtain ⟨first, others⟩ := List.forall_mem_cons.mp agree
    rw [askFields, askFields, first, inductionHypothesis others]

/-- An answer rests on the queries that are asked, and on no others. -/
theorem answer_congr {query : Query}
    (agree : ∀ next, Asks definitions query next → ask next = other next) :
    answer definitions ask query = answer definitions other query := by
  cases query with
  | slot path rule found =>
    cases given : rule.given? found with
    | none => simp only [answer, given]
    | some value => simp only [answer, given, agree _ (.given given)]
  | shape path shape value =>
    cases shape with
    | record rule => exact agree _ .record
    | array element => exact agree _ .list
    | lazy message id =>
      cases defined : definitions.get? id with
      | none => simp only [answer, defined]
      | some rule => simp only [answer, defined, agree _ (.lazy defined)]
    | _ => rfl
  | list path element value =>
    cases value with
    | arr items =>
      have items : askItems ask element path 0 items = askItems other element path 0 items := by
        apply askItems_congr
        intro step item listed
        rw [Nat.zero_add]
        exact agree _ (.item listed)
      rw [answer, answer, items]
    | _ => rfl
  | record path rule value =>
    cases value with
    | obj members =>
      rw [answer, answer, askFields_congr fun field declared => agree _ (.field declared)]
    | _ => rfl

/-! ## The check as an answer -/

theorem askItems_outcome (element : Rule) (path : Path) (position : Nat) (items : List Json) :
    askItems (fun next => some (next.outcome definitions)) element path position items =
      some (checkItems definitions element path position items) := by
  induction items generalizing position with
  | nil => rfl
  | cons item rest inductionHypothesis =>
    rw [askItems, checkItems_cons, inductionHypothesis, Option.bind_some, Query.outcome]
    rcases element.checkGiven definitions (path.index position) (element.given? (some item)) with
      ⟨value, _ | ⟨violation, more⟩⟩ <;> rfl

theorem askFields_outcome (path : Path) (members : Members) (fields : List (String × Rule)) :
    askFields (fun next => some (next.outcome definitions)) path members fields =
      some (fields.map fun field =>
        checkField definitions field.1 field.2 (path.field field.1) members) := by
  induction fields with
  | nil => rfl
  | cons field rest inductionHypothesis =>
    obtain ⟨name, rule⟩ := field
    have again : rule.given? (rule.given? (members.get? name)) =
        rule.given? (members.get? name) := by
      simp [Rule.given?, Option.filter_filter]
    rw [askFields, inductionHypothesis, List.map_cons, checkField_eq, Query.outcome, again]
    cases given : rule.given? (members.get? name) <;> simp [Rule.checkGiven]

theorem check_lazy {id : MessageId} {rule : RecordRule} (defined : definitions.get? id = some rule)
    (message : String) (path : Path) (value : Json) :
    check definitions (.lazy message id) path value =
      check definitions (.record rule) path value := by
  have own : (Shape.record rule).record? definitions = some rule := rfl
  have stored : (Shape.lazy message id).record? definitions = some rule := defined
  rcases value.object_cases with ⟨members, rfl⟩ | other
  · rw [check_members own, check_members stored]
  · rw [check_not_object own other, check_not_object stored other]

/-- A check gives the answers that it takes for those of the queries inside. -/
theorem answer_outcome (query : Query) :
    answer definitions (fun next => some (next.outcome definitions)) query =
      some (query.outcome definitions) := by
  cases query with
  | slot path rule found =>
    cases given : rule.given? found <;> simp [answer, Query.outcome, given, Rule.checkGiven]
  | shape path shape value =>
    rw [Query.outcome]
    cases shape with
    | record rule => rfl
    | array element => rfl
    | lazy message id =>
      cases defined : definitions.get? id with
      | some rule => simp only [answer, defined, Query.outcome, check_lazy defined]
      | none => simp only [answer, defined, check_of_fault (Shape.fault?_undefined defined _ _)]
    | _ => exact congrArg some (check_flat definitions rfl path value).symm
  | list path element value =>
    rw [Query.outcome]
    cases value with
    | arr items =>
      rw [answer, askItems_outcome, check_array]
      cases checkItems definitions element path 0 items <;> rfl
    | _ => exact congrArg some (check_not_array definitions element (by simp) path).symm
  | record path rule value =>
    have own : (Shape.record rule).record? definitions = some rule := rfl
    rw [Query.outcome]
    cases value with
    | obj members => rw [answer, askFields_outcome, check_members own, Option.map_some]
    | _ => exact congrArg some (check_not_object own (by simp) path).symm

/-- How many queries stand inside one another below a query at most, and the query itself. -/
def Query.need : Query → Nat
  | .slot _ _ none => 1
  | .slot _ _ (some value) => 3 * value.depth + 4
  | .shape _ _ value => 3 * value.depth + 3
  | .list _ _ value | .record _ _ value => 3 * value.depth + 2

theorem Query.need_pos (query : Query) : 0 < query.need := by
  cases query with
  | slot path rule found => cases found <;> simp [need]
  | _ => simp [need]

theorem Asks.need_lt {query next : Query} (asks : Asks definitions query next) :
    next.need < query.need := by
  cases asks with
  | given given =>
    obtain ⟨rfl, _⟩ := (Rule.given?_eq_some_iff _ _ _).mp given
    exact Nat.lt_succ_self _
  | item listed =>
    have smaller := Json.depth_lt_itemsDepth (List.mem_of_getElem? listed)
    simp only [Query.need, Json.depth]
    omega
  | @field path rule members field declared =>
    cases given : field.2.given? (members.get? field.1) with
    | none => simp [Query.need]
    | some value =>
      have found := ((Rule.given?_eq_some_iff _ _ _).mp given).1
      have inside : value.depth < Json.membersDepth members :=
        Json.depth_lt_membersDepth (Members.mem_of_get? found)
      simp only [Query.need, Json.depth]
      omega
  | _ => exact Nat.lt_succ_self _

/-- With room for the queries inside it, a query has the answer of the check. -/
theorem run_eq {room : Nat} {query : Query} (enough : query.need ≤ room) :
    run definitions room query = some (query.outcome definitions) := by
  induction room generalizing query with
  | zero => exact absurd query.need_pos (Nat.not_lt.mpr enough)
  | succ room inductionHypothesis =>
    have inside : ∀ next, Asks definitions query next →
        run definitions room next = some (next.outcome definitions) := by
      intro next asks
      exact inductionHypothesis (Nat.le_of_lt_succ (Nat.lt_of_lt_of_le asks.need_lt enough))
    rw [run, answer_congr inside, answer_outcome]

end

end PayloadSchema
