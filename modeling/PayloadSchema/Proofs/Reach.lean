import Mathlib.Data.List.Perm.Basic
import PayloadSchema.Proofs.Registry
import PayloadSchema.Proofs.Rule.Lazy

/-! # What a rule needs

A check of a rule may come upon the definitions of its lazy shapes, and then upon those of the
lazy shapes inside these.  The walk that collects them marks each message before it goes on to
what its definition refers to, so that it ends on cyclic definitions too.  It finds what is
needed and defined, and nothing else. -/

namespace PayloadSchema

/-- The messages whose definitions a check of a rule may come upon. -/
inductive RecordRule.Needs (definitions : Definitions) (rule : RecordRule) : MessageId → Prop where
  | inside {message : String} {id : MessageId}
      (inside : (Shape.lazy message id).Within (.record rule)) : Needs definitions rule id
  | behind {source : MessageId} {stored : RecordRule} {message : String} {id : MessageId}
      (needed : Needs definitions rule source) (found : definitions.get? source = some stored)
      (inside : (Shape.lazy message id).Within (.record stored)) : Needs definitions rule id

namespace Definitions

variable {definitions : Definitions} {rule stored : RecordRule} {id : MessageId}
  {rest pending found : List MessageId}

/-- What is pending and what is found after a turn of the walk: a message is taken off, and what
    its definition refers to is put on when it is met for the first time. -/
def turn (definitions : Definitions) (id : MessageId) (rest found : List MessageId) :
    List MessageId × List MessageId :=
  match definitions.get? id with
  | none => (rest, found)
  | some stored =>
    if found.contains id = false then (stored.lazyIds ++ rest, id :: found) else (rest, found)

/-- The walk within a number of turns: none, if something is pending after them. -/
def walk (definitions : Definitions) : Nat → List MessageId → List MessageId →
    Option (List MessageId)
  | _, [], found => some found
  | 0, _ :: _, _ => none
  | turns + 1, id :: rest, found =>
    definitions.walk turns (definitions.turn id rest found).1 (definitions.turn id rest found).2

theorem turn_cases (definitions : Definitions) (id : MessageId) (rest found : List MessageId) :
    (∃ stored, definitions.get? id = some stored ∧ found.contains id = false ∧
      definitions.turn id rest found = (stored.lazyIds ++ rest, id :: found)) ∨
    (definitions.get? id = none ∨ id ∈ found) ∧ definitions.turn id rest found = (rest, found) := by
  rw [turn]
  split
  next missing => exact .inr ⟨.inl missing, rfl⟩
  next stored present =>
    by_cases fresh : found.contains id = false
    · exact .inl ⟨stored, present, fresh, if_pos fresh⟩
    · exact .inr ⟨.inr (by simpa using fresh), if_neg fresh⟩

theorem reach_cons (definitions : Definitions) (id : MessageId) (rest found : List MessageId) :
    definitions.reach (id :: rest) found =
      definitions.reach (definitions.turn id rest found).1 (definitions.turn id rest found).2 := by
  rw [reach]
  split
  next missing => simp [turn, missing]
  next stored present =>
    split
    next fresh => simp only [turn, present, if_pos fresh]
    next known => simp only [turn, present, if_neg known]

/-- How many references there are in the definitions of messages that were not found. -/
def unspent : Definitions → List MessageId → Nat
  | [], _ => 0
  | (id, stored) :: rest, found =>
    (if found.contains id then 0 else stored.lazyIds.length) + unspent rest found

theorem unspent_cons_le (definitions : Definitions) (found : List MessageId) (id : MessageId) :
    definitions.unspent (id :: found) ≤ definitions.unspent found := by
  induction definitions with
  | nil => exact Nat.le_refl _
  | cons first rest inductionHypothesis =>
    rw [unspent, unspent]
    by_cases known : found.contains first.1 = true
    · rw [if_pos known, if_pos (by simp_all)]
      omega
    · rw [if_neg known]
      split <;> omega

theorem unspent_enter (listed : (id, stored) ∈ definitions) (fresh : found.contains id = false) :
    stored.lazyIds.length + definitions.unspent (id :: found) ≤ definitions.unspent found := by
  induction definitions with
  | nil => cases listed
  | cons first rest inductionHypothesis =>
    have others := unspent_cons_le rest found id
    rw [unspent, unspent]
    rcases List.mem_cons.mp listed with rfl | later
    · rw [if_pos (by simp), if_neg (by simpa using fresh)]
      show stored.lazyIds.length + (0 + unspent rest (id :: found)) ≤
        stored.lazyIds.length + unspent rest found
      omega
    · have paid := inductionHypothesis later
      by_cases known : found.contains first.1 = true
      · rw [if_pos known, if_pos (by simp_all)]
        omega
      · rw [if_neg known]
        split <;> omega

/-- As many turns are enough as there are messages pending and references left to follow. -/
theorem walk_eq_reach {turns : Nat} (enough : pending.length + definitions.unspent found ≤ turns) :
    definitions.walk turns pending found = some (definitions.reach pending found) := by
  induction turns generalizing pending found with
  | zero =>
    obtain rfl : pending = [] := List.length_eq_zero_iff.mp (by omega)
    rw [walk, reach]
  | succ turns inductionHypothesis =>
    cases pending with
    | nil => rw [walk, reach]
    | cons id rest =>
      rw [walk, reach_cons]
      refine inductionHypothesis ?_
      rw [List.length_cons] at enough
      -- A turn takes a message off, and what it puts on was counted as unspent before.
      rcases turn_cases definitions id rest found with ⟨stored, present, fresh, next⟩ | ⟨_, next⟩
      · have paid := unspent_enter (mem_of_get? present) fresh
        rw [next]
        simp only [List.length_append]
        omega
      · rw [next]
        show rest.length + definitions.unspent found ≤ turns
        omega

theorem reach_of_walk {turns : Nat} {reached : List MessageId}
    (ended : definitions.walk turns pending found = some reached) :
    reached = definitions.reach pending found := by
  fun_induction walk definitions turns pending found with
  | case1 turns found =>
    rw [reach]
    exact (Option.some.inj ended).symm
  | case2 => cases ended
  | case3 found turns id rest inductionHypothesis =>
    rw [reach_cons]
    exact inductionHypothesis ended

/-! ## What the walk finds -/

def Settled (definitions : Definitions) (pending found : List MessageId) (id : MessageId) : Prop :=
  definitions.get? id = none ∨ id ∈ pending ∨ id ∈ found

/-- Where a walk for a rule stands at any time. -/
structure Halfway (definitions : Definitions) (rule : RecordRule) (pending found : List MessageId) :
    Prop where
  needed : ∀ id, id ∈ pending ∨ id ∈ found → rule.Needs definitions id
  defined : ∀ id ∈ found, ∃ stored, definitions.get? id = some stored
  begun : ∀ id ∈ rule.lazyIds, definitions.Settled pending found id
  followed : ∀ source ∈ found, ∀ stored, definitions.get? source = some stored →
    ∀ id ∈ stored.lazyIds, definitions.Settled pending found id

theorem Settled.turn {other : MessageId} (settled : definitions.Settled (id :: rest) found other) :
    definitions.Settled (definitions.turn id rest found).1 (definitions.turn id rest found).2
      other := by
  rcases turn_cases definitions id rest found with ⟨stored, _, _, next⟩ | ⟨passed, next⟩
  · rw [next]
    rcases settled with missing | waiting | known
    · exact .inl missing
    · rcases List.mem_cons.mp waiting with rfl | later
      · exact .inr (.inr List.mem_cons_self)
      · exact .inr (.inl (List.mem_append_right _ later))
    · exact .inr (.inr (.tail _ known))
  · rw [next]
    rcases settled with missing | waiting | known
    · exact .inl missing
    · rcases List.mem_cons.mp waiting with rfl | later
      · -- The message is passed over, for it has no definition or was found before.
        exact passed.imp_right .inr
      · exact .inr (.inl later)
    · exact .inr (.inr known)

namespace Halfway

theorem start (definitions : Definitions) (rule : RecordRule) :
    definitions.Halfway rule rule.lazyIds [] where
  needed id listed := by
    have pending := listed.resolve_right List.not_mem_nil
    obtain ⟨message, inside⟩ := RecordRule.mem_lazyIds_iff.mp pending
    exact .inside inside
  defined _ listed := (List.not_mem_nil listed).elim
  begun _ listed := .inr (.inl listed)
  followed _ listed := (List.not_mem_nil listed).elim

theorem turn (halfway : definitions.Halfway rule (id :: rest) found) :
    definitions.Halfway rule (definitions.turn id rest found).1
      (definitions.turn id rest found).2 := by
  have begun := fun other listed => (halfway.begun other listed).turn
  have followed := fun source known stored present other listed =>
    (halfway.followed source known stored present other listed).turn
  rcases turn_cases definitions id rest found with ⟨stored, present, _, next⟩ | ⟨_, next⟩
  · -- The message is met for the first time: it is needed, and so is what it refers to.
    have own := halfway.needed id (.inl List.mem_cons_self)
    rw [next] at begun followed ⊢
    refine ⟨fun other listed => ?_, fun other known => ?_, begun, ?_⟩
    · rcases listed with waiting | known
      · rcases List.mem_append.mp waiting with new | later
        · obtain ⟨message, inside⟩ := RecordRule.mem_lazyIds_iff.mp new
          exact .behind own present inside
        · exact halfway.needed other (.inl (.tail _ later))
      · rcases List.mem_cons.mp known with rfl | earlier
        · exact own
        · exact halfway.needed other (.inr earlier)
    · rcases List.mem_cons.mp known with rfl | earlier
      · exact ⟨stored, present⟩
      · exact halfway.defined other earlier
    · intro source known other given reference listed
      rcases List.mem_cons.mp known with rfl | earlier
      · -- What the definition of the new one refers to was just put on.
        cases present.symm.trans given
        exact .inr (.inl (List.mem_append_left _ listed))
      · exact followed source earlier other given reference listed
  · rw [next] at begun followed ⊢
    exact ⟨fun other listed => halfway.needed other (listed.imp_left (.tail _)), halfway.defined,
      begun, followed⟩

theorem walk {turns : Nat} {result : List MessageId}
    (halfway : definitions.Halfway rule pending found)
    (ended : definitions.walk turns pending found = some result) :
    definitions.Halfway rule [] result := by
  induction turns generalizing pending found with
  | zero =>
    cases pending with
    | nil => cases ended; exact halfway
    | cons id rest => cases ended
  | succ turns inductionHypothesis =>
    cases pending with
    | nil => cases ended; exact halfway
    | cons id rest => exact inductionHypothesis halfway.turn ended

/-- At the end, what was found is what is needed and defined. -/
theorem mem_iff (ended : definitions.Halfway rule [] found) :
    id ∈ found ↔ rule.Needs definitions id ∧ ∃ stored, definitions.get? id = some stored := by
  have settled : ∀ {other stored}, definitions.Settled [] found other →
      definitions.get? other = some stored → other ∈ found := by
    intro other stored settled present
    rcases settled with missing | waiting | known
    · cases missing.symm.trans present
    · cases waiting
    · exact known
  constructor
  · exact fun known => ⟨ended.needed id (.inr known), ended.defined id known⟩
  · rintro ⟨needed, stored, present⟩
    -- Along the need: what it goes through was found, and its definition was followed.
    induction needed generalizing stored with
    | inside inside => exact settled (ended.begun _ inside.mem_lazyIds) present
    | behind _ given inside inductionHypothesis =>
      have known := inductionHypothesis _ given
      exact settled (ended.followed _ known _ given _ inside.mem_lazyIds) present

end Halfway

theorem mem_reach_iff :
    id ∈ definitions.reach rule.lazyIds [] ↔
      rule.Needs definitions id ∧ ∃ stored, definitions.get? id = some stored :=
  ((Halfway.start definitions rule).walk (walk_eq_reach (Nat.le_refl _))).mem_iff

theorem insertSorted_perm (definition : MessageId × RecordRule) (definitions : Definitions) :
    (insertSorted definition definitions).Perm (definition :: definitions) := by
  induction definitions with
  | nil => exact .refl _
  | cons first rest inductionHypothesis =>
    rw [insertSorted]
    split
    · exact .refl _
    · exact (inductionHypothesis.cons first).trans (.swap definition first rest)

theorem sorted_perm (definitions : Definitions) : definitions.sorted.Perm definitions := by
  induction definitions with
  | nil => exact .nil
  | cons first rest inductionHypothesis =>
    exact (insertSorted_perm first (sorted rest)).trans (inductionHypothesis.cons first)

theorem insertSorted_pairwise {definition : MessageId × RecordRule} {definitions : Definitions}
    (ordered : (definitions.map Prod.fst).Pairwise (· < ·))
    (new : definition.1 ∉ definitions.map Prod.fst) :
    ((insertSorted definition definitions).map Prod.fst).Pairwise (· < ·) := by
  induction definitions with
  | nil => exact List.pairwise_singleton _ _
  | cons first rest inductionHypothesis =>
    rw [List.map_cons, List.mem_cons, not_or] at new
    rw [List.map_cons, List.pairwise_cons] at ordered
    rw [insertSorted]
    split
    next before =>
      simp only [List.map_cons, List.pairwise_cons, List.forall_mem_cons]
      exact ⟨⟨before, fun id listed => Nat.lt_trans before (ordered.1 id listed)⟩, ordered⟩
    next behind =>
      rw [List.map_cons, List.pairwise_cons]
      refine ⟨fun id listed => ?_, inductionHypothesis ordered.2 new.2⟩
      have among := ((insertSorted_perm definition rest).map Prod.fst).mem_iff.mp listed
      rw [List.map_cons, List.mem_cons] at among
      rcases among with rfl | earlier
      · exact Nat.lt_of_le_of_ne (Nat.le_of_not_lt behind) (Ne.symm new.1)
      · exact ordered.1 id earlier

theorem sorted_pairwise {definitions : Definitions} (distinct : (definitions.map Prod.fst).Nodup) :
    (definitions.sorted.map Prod.fst).Pairwise (· < ·) := by
  induction definitions with
  | nil => exact .nil
  | cons first rest inductionHypothesis =>
    rw [List.map_cons, List.nodup_cons] at distinct
    have new : first.1 ∉ (sorted rest).map Prod.fst := by
      rw [((sorted_perm rest).map Prod.fst).mem_iff]
      exact distinct.1
    exact insertSorted_pairwise (inductionHypothesis distinct.2) new

theorem get?_eq_some_iff (distinct : (definitions.map Prod.fst).Nodup) :
    definitions.get? id = some stored ↔ (id, stored) ∈ definitions := by
  refine ⟨mem_of_get?, fun listed => ?_⟩
  obtain ⟨other, present⟩ := get?_of_mem (List.mem_map_of_mem (f := Prod.fst) listed)
  have same := List.inj_on_of_nodup_map distinct (mem_of_get? present) listed rfl
  rw [present, (Prod.mk.inj same).2]

end Definitions

namespace Validator

variable {validator : Validator}

theorem mem_recursive_iff (distinct : (validator.definitions.map Prod.fst).Nodup) {id : MessageId}
    {stored : RecordRule} :
    (id, stored) ∈ validator.recursive ↔
      validator.rule.Needs validator.definitions id ∧
      validator.definitions.get? id = some stored := by
  rw [recursive, (Definitions.sorted_perm _).mem_iff, List.mem_filter, List.contains_iff_mem,
    Definitions.mem_reach_iff, ← Definitions.get?_eq_some_iff distinct]
  constructor
  · exact fun ⟨present, needed, _⟩ => ⟨needed, present⟩
  · exact fun ⟨needed, present⟩ => ⟨present, needed, stored, present⟩

theorem recursive_pairwise (distinct : (validator.definitions.map Prod.fst).Nodup) :
    (validator.recursive.map Prod.fst).Pairwise (· < ·) :=
  Definitions.sorted_pairwise (distinct.sublist (List.filter_sublist.map Prod.fst))

end Validator

end PayloadSchema
