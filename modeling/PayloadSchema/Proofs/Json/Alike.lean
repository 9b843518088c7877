import Mathlib.Data.List.Forall2
import Mathlib.Data.List.Perm.Subperm
import PayloadSchema.Proofs.Correspondence
import PayloadSchema.Proofs.Json.Distinct

/-! # Values that are equal as JSON

Equal values are of one kind and differ, at some depth, only in the order of keys and in the
sign of zeros.  No comparison with a third value tells them apart, however that value is
written. -/

namespace PayloadSchema

namespace Number

theorem equal_cases {number other : Number} (equal : number.equal other = true) :
    number = other ∨ ∃ x y : Binary64, number = .float x ∧ other = .float y ∧
      x.significand = 0 ∧ y.significand = 0 := by
  cases number with
  | int value =>
    cases other with
    | int another => exact .inl (by simpa [Number.equal] using equal)
    | float another => cases equal
  | float value =>
    cases other with
    | int another => cases equal
    | float another =>
      simp only [Number.equal, Binary64.sameValue, Binary64.isZero, Bool.or_eq_true,
        Bool.and_eq_true, decide_eq_true_eq] at equal
      rcases equal with rfl | ⟨left, right⟩
      · exact .inl rfl
      · exact .inr ⟨value, another, rfl, rfl, left, right⟩

theorem equal_self (number : Number) : number.equal number = true := by
  cases number <;> simp [Number.equal, Binary64.sameValue]

variable {number other : Number}

theorem isIntegral_of_equal (equal : number.equal other = true) :
    number.isIntegral = other.isIntegral := by
  rcases equal_cases equal with rfl | ⟨x, y, rfl, rfl, left, right⟩
  · rfl
  · simp [isIntegral, Binary64.isIntegral, left, right]

theorem isNegative_of_equal (equal : number.equal other = true) :
    number.isNegative = other.isNegative := by
  rcases equal_cases equal with rfl | ⟨x, y, rfl, rfl, left, right⟩
  · rfl
  · simp [isNegative, Binary64.isNegative, Binary64.isZero, left, right]

theorem equal_congr (equal : number.equal other = true) (third : Number) :
    third.equal number = third.equal other := by
  rcases equal_cases equal with rfl | ⟨x, y, rfl, rfl, left, right⟩
  · rfl
  · cases third with
    | int value => rfl
    | float z =>
      by_cases zero : z.significand = 0
      · simp [Number.equal, Binary64.sameValue, Binary64.isZero, zero, left, right]
      · -- A number that is not zero is neither of the two.
        have first : z ≠ x := fun same => zero (by rw [same, left])
        have second : z ≠ y := fun same => zero (by rw [same, right])
        simp [Number.equal, Binary64.sameValue, Binary64.isZero, zero, first, second]

end Number

/-! ## Members -/

/-- Whether values stand under the same keys, in whatever order, and are equal. -/
structure Members.Alike (members others : Members) : Prop where
  keys : (members.map Prod.fst).Perm (others.map Prod.fst)
  values : ∀ key, Option.Rel (fun value other => value.equal other = true)
    (members.get? key) (others.get? key)

namespace Members.Alike

theorem length_eq {members others : Members} (alike : members.Alike others) :
    members.length = others.length := by
  simpa using alike.keys.length_eq

theorem get?_cases {members others : Members} (alike : members.Alike others) (key : String) :
    (members.get? key = none ∧ others.get? key = none) ∨
      ∃ value other, members.get? key = some value ∧ others.get? key = some other ∧
        value.equal other = true := by
  have values := alike.values key
  generalize members.get? key = found at values ⊢
  generalize others.get? key = present at values ⊢
  cases values with
  | none => exact .inl ⟨rfl, rfl⟩
  | some same => exact .inr ⟨_, _, rfl, rfl, same⟩

theorem of_pairs {members others : Members}
    (pairs : List.Forall₂ (fun member other => member.1 = other.1 ∧
      member.2.equal other.2 = true) members others) : members.Alike others := by
  induction pairs with
  | nil => exact ⟨.refl [], fun key => .none⟩
  | @cons member other _ _ pair _ inductionHypothesis =>
    obtain ⟨name, value⟩ := member
    obtain ⟨_, another⟩ := other
    obtain ⟨rfl, same⟩ := pair
    refine ⟨inductionHypothesis.keys.cons name, fun key => ?_⟩
    by_cases here : key = name
    · subst here
      simpa using same
    · simpa only [get?_cons_ne here] using inductionHypothesis.values key

theorem append {first second third fourth : Members} (left : first.Alike second)
    (right : third.Alike fourth) : Members.Alike (first ++ third) (second ++ fourth) := by
  constructor
  · simpa using left.keys.append right.keys
  · intro key
    rw [get?_append, get?_append]
    rcases left.get?_cases key with ⟨absent, missing⟩ | ⟨value, other, found, present, same⟩
    · simpa [absent, missing] using right.values key
    · simpa [found, present] using same

theorem filter {members others : Members} (alike : members.Alike others)
    (keep : String → Bool) :
    Members.Alike (members.filter fun member => keep member.1)
      (others.filter fun member => keep member.1) := by
  constructor
  · have kept := alike.keys.filter keep
    rw [List.filter_map, List.filter_map] at kept
    exact kept
  · intro key
    rw [get?_filter, get?_filter]
    by_cases kept : keep key = true
    · simpa [kept] using alike.values key
    · simp only [kept]
      exact .none

end Members.Alike

namespace Json

theorem equalItems_iff {items others : List Json} :
    equalItems items others = true ↔
      List.Forall₂ (fun item other => item.equal other = true) items others := by
  induction items generalizing others with
  | nil => cases others <;> simp [equalItems]
  | cons item rest inductionHypothesis =>
    cases others with
    | nil => simp [equalItems]
    | cons other further => simp [equalItems, inductionHypothesis]

theorem equalMembers_iff {members others : Members} :
    equalMembers members others = true ↔
      ∀ member ∈ members, ∃ other, others.get? member.1 = some other ∧
        member.2.equal other = true := by
  induction members with
  | nil => simp [equalMembers]
  | cons member rest inductionHypothesis =>
    obtain ⟨key, value⟩ := member
    rw [equalMembers, Bool.and_eq_true, inductionHypothesis, List.forall_mem_cons]
    cases Members.get? others key <;> simp

theorem equal_obj_iff {members others : Members} :
    (obj members).equal (obj others) = true ↔ members.length = others.length ∧
      ∀ member ∈ members, ∃ other, others.get? member.1 = some other ∧
        member.2.equal other = true := by
  rw [equal, Bool.and_eq_true, decide_eq_true_eq, equalMembers_iff]

theorem equal_cases {value other : Json} (equal : value.equal other = true) :
    value = other ∨
    (∃ number another, value = .num number ∧ other = .num another ∧
      number.equal another = true) ∨
    (∃ items others, value = .arr items ∧ other = .arr others ∧
      List.Forall₂ (fun item other => item.equal other = true) items others) ∨
    ∃ members others, value = .obj members ∧ other = .obj others ∧
      (obj members).equal (obj others) = true := by
  cases value <;> cases other <;> simp_all [Json.equal, equalItems_iff]

theorem kindName_of_equal {value other : Json} (equal : value.equal other = true) :
    value.kindName = other.kindName := by
  rcases equal_cases equal with rfl | ⟨_, _, rfl, rfl, _⟩ | ⟨_, _, rfl, rfl, _⟩ |
    ⟨_, _, rfl, rfl, _⟩ <;> rfl

theorem alike_of_equal {members others : Members} (distinct : (members.map Prod.fst).Nodup)
    (equal : (obj members).equal (obj others) = true) : members.Alike others := by
  obtain ⟨length, each⟩ := equal_obj_iff.mp equal
  -- The second has each key of the first, and no room for others.
  have keys : (members.map Prod.fst).Perm (others.map Prod.fst) := by
    apply (List.subperm_of_subset distinct _).perm_of_length_le (by simp [length])
    intro key listed
    obtain ⟨member, present, rfl⟩ := List.mem_map.mp listed
    obtain ⟨other, found, _⟩ := each member present
    exact List.mem_map.mpr ⟨_, Members.mem_of_get? found, rfl⟩
  refine ⟨keys, fun key => ?_⟩
  cases found : members.get? key with
  | none =>
    rw [Members.get?_eq_none_iff, keys.mem_iff, ← Members.get?_eq_none_iff] at found
    rw [found]
    exact .none
  | some value =>
    obtain ⟨other, present, same⟩ := each _ (Members.mem_of_get? found)
    rw [present]
    exact .some same

/-- Under distinct keys, equal objects have equal values under each key. -/
theorem members_alike {members others : Members} (distinct : (obj members).Distinct)
    (equal : (obj members).equal (obj others) = true) : members.Alike others :=
  alike_of_equal distinct.keys_nodup equal

/-- Under distinct keys, objects whose members are alike are equal. -/
theorem equal_of_alike {members others : Members} (distinct : (members.map Prod.fst).Nodup)
    (alike : members.Alike others) : (obj members).equal (obj others) = true := by
  refine equal_obj_iff.mpr ⟨alike.length_eq, fun member listed => ?_⟩
  have own : members.get? member.1 = some member.2 := lookup_of_mem distinct listed
  rcases alike.get?_cases member.1 with ⟨absent, _⟩ | ⟨value, other, found, present, same⟩
  · rw [own] at absent
    cases absent
  · rw [own, Option.some.injEq] at found
    exact ⟨other, present, found ▸ same⟩

/-- Objects whose keys are among distinct names, in their order, are equal just if equal values
    stand under each of the names, or none. -/
theorem equal_obj_iff_get? {names : List String} (distinct : names.Nodup)
    {members others : Members} (order : (members.map Prod.fst).Sublist names)
    (also : (others.map Prod.fst).Sublist names) :
    (obj members).equal (obj others) = true ↔
      ∀ name ∈ names, Option.Rel (fun value other => value.equal other = true)
        (members.get? name) (others.get? name) := by
  constructor
  · exact fun equal name _ => (alike_of_equal (distinct.sublist order) equal).values name
  · intro values
    -- Beside the names nothing stands in either of them.
    have everywhere : ∀ key, Option.Rel (fun value other : Json => value.equal other = true)
        (members.get? key) (others.get? key) := by
      intro key
      by_cases listed : key ∈ names
      · exact values key listed
      · rw [Members.get?_eq_none_iff.mpr fun own => listed (order.subset own),
          Members.get?_eq_none_iff.mpr fun own => listed (also.subset own)]
        exact .none
    have keys : (members.map Prod.fst).Perm (others.map Prod.fst) := by
      rw [List.perm_ext_iff_of_nodup (distinct.sublist order) (distinct.sublist also)]
      intro key
      have both := everywhere key
      rw [← not_iff_not, ← Members.get?_eq_none_iff, ← Members.get?_eq_none_iff]
      generalize members.get? key = found at both ⊢
      generalize others.get? key = present at both ⊢
      cases both <;> simp
    exact equal_of_alike (distinct.sublist order) ⟨keys, everywhere⟩

theorem Distinct.equal_self {value : Json} (distinct : value.Distinct) :
    value.equal value = true := by
  induction value with
  | null | bool | str => simp [equal]
  | num number => exact number.equal_self
  | arr items inductionHypothesis =>
    rw [equal, equalItems_iff, List.forall₂_same]
    exact fun item listed => inductionHypothesis item listed (distinct.item item listed)
  | obj members inductionHypothesis =>
    refine equal_obj_iff.mpr ⟨rfl, fun member listed => ⟨member.2, ?_, ?_⟩⟩
    · exact lookup_of_mem distinct.keys_nodup listed
    · exact inductionHypothesis member listed (distinct.member member listed)

theorem equalItems_congr {items others : List Json}
    (each : List.Forall₂ (fun item other => item.equal other = true) items others)
    (agree : ∀ item ∈ items, ∀ other, item.equal other = true → ∀ third : Json,
      third.equal item = third.equal other) (thirds : List Json) :
    equalItems thirds items = equalItems thirds others := by
  induction each generalizing thirds with
  | nil => rfl
  | cons same _ inductionHypothesis =>
    obtain ⟨first, further⟩ := List.forall_mem_cons.mp agree
    cases thirds with
    | nil => rfl
    | cons third rest =>
      rw [equalItems, equalItems, first _ same third, inductionHypothesis further rest]

theorem Distinct.equal_congr {value other : Json} (distinct : value.Distinct)
    (equal : value.equal other = true) (third : Json) :
    third.equal value = third.equal other := by
  induction value using Json.inside_induction generalizing other third with
  | step value inductionHypothesis =>
    rcases equal_cases equal with rfl | ⟨number, another, rfl, rfl, same⟩ |
      ⟨items, others, rfl, rfl, each⟩ | ⟨members, others, rfl, rfl, same⟩
    · rfl
    · cases third with
      | num third => exact Number.equal_congr same third
      | _ => rfl
    · cases third with
      | arr thirds =>
        refine equalItems_congr each (fun item listed other same third => ?_) thirds
        exact inductionHypothesis item (.item listed) (distinct.item item listed) same third
      | _ => rfl
    · cases third with
      | obj thirds =>
        have alike := members_alike distinct same
        rw [Bool.eq_iff_iff, equal_obj_iff, equal_obj_iff, alike.length_eq]
        refine and_congr_right fun _ => forall₂_congr fun member _ => ?_
        -- Under the key of each third member stand two equal values, or none.
        rcases alike.get?_cases member.1 with
          ⟨found, present⟩ | ⟨value, other, found, present, same⟩
        · simp [found, present]
        · have listed := Members.mem_of_get? found
          have agree := inductionHypothesis value (.member listed) (distinct.member _ listed) same
          simp [found, present, agree]
      | _ => rfl

theorem Distinct.of_equal {value other : Json} (distinct : value.Distinct)
    (equal : value.equal other = true) : other.Distinct := by
  induction value using Json.inside_induction generalizing other with
  | step value inductionHypothesis =>
    rcases equal_cases equal with rfl | ⟨_, another, rfl, rfl, _⟩ | ⟨items, others, rfl, rfl, each⟩ |
      ⟨members, others, rfl, rfl, same⟩
    · exact distinct
    · exact .num another
    · refine .arr fun other listed => ?_
      obtain ⟨item, among, same⟩ := forall₂_left_of_mem each listed
      exact inductionHypothesis item (.item among) (distinct.item item among) same
    · have alike := members_alike distinct same
      have keys := alike.keys.nodup_iff.mp distinct.keys_nodup
      refine .obj keys fun other listed => ?_
      -- Its key stands in the first one as well, with an equal value.
      have own : Members.get? others other.1 = some other.2 := lookup_of_mem keys listed
      rcases alike.get?_cases other.1 with ⟨_, missing⟩ | ⟨value, another, found, present, same⟩
      · cases own.symm.trans missing
      · obtain rfl := Option.some.inj (own.symm.trans present)
        have among := Members.mem_of_get? found
        exact inductionHypothesis value (.member among) (distinct.member _ among) same

theorem Distinct.equal_symm {value other : Json} (distinct : value.Distinct)
    (equal : value.equal other = true) : other.equal value = true := by
  rw [distinct.equal_congr equal other]
  exact (distinct.of_equal equal).equal_self

theorem Distinct.congr_equal {value other : Json} (distinct : value.Distinct)
    (equal : value.equal other = true) (third : Json) :
    value.equal third = other.equal third := by
  have also := distinct.of_equal equal
  rw [Bool.eq_iff_iff]
  constructor
  · intro same
    have back := distinct.equal_symm same
    rw [distinct.equal_congr equal] at back
    exact (distinct.of_equal same).equal_symm back
  · intro same
    have back := also.equal_symm same
    rw [← distinct.equal_congr equal] at back
    exact (also.of_equal same).equal_symm back

end Json

end PayloadSchema
