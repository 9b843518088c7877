import PayloadSchema.Proofs.Schema.Group

/-! # The groups of a message partition its tagged fields

Each field that carries a tag stands in one group, that of its tag, and nothing else stands in
any group.  The groups come in the order in which their tags are first used, the members of a
group in declared order.  Fields without a tag have no part in this, wherever they stand. -/

namespace PayloadSchema

/-- The position of the first field that carries a tag. -/
def firstUse (fields : List Field) (tag : String) : Nat :=
  fields.findIdx fun field => field.group = some tag

def taggedFields (fields : List Field) : List (String × String) :=
  fields.filterMap fun field => field.group.map (·, field.name)

def Group.listings (groups : List Group) : List (String × String) :=
  groups.flatMap fun group => group.members.map (group.name, ·)

/-- Whether groups are a partition of the tagged fields of a message. -/
structure Message.PartitionedBy (message : Message) (groups : List Group) : Prop where
  distinct : (groups.map Group.name).Nodup
  named : ∀ tag, tag ∈ groups.map Group.name ↔ ∃ field ∈ message.fields, field.group = some tag
  /-- A group stands before another one if its tag is used first. -/
  ordered : (groups.map Group.name).Pairwise fun tag later =>
    firstUse message.fields tag < firstUse message.fields later
  members : ∀ group ∈ groups, group.members = taggedWith group.name message.fields
  filled : ∀ group ∈ groups, group.members ≠ []
  /-- Every tagged field is listed as often as it is declared, and nothing else is. -/
  complete : (Group.listings groups).Perm (taggedFields message.fields)

theorem mem_tagsOf {fields : List Field} {tag : String} :
    tag ∈ tagsOf fields ↔ ∃ field ∈ fields, field.group = some tag := by
  rw [tagsOf, List.mem_eraseDups, List.mem_filterMap]

theorem firstUse_lt_length {fields : List Field} {tag : String} :
    firstUse fields tag < fields.length ↔ tag ∈ tagsOf fields := by
  simp [firstUse, List.findIdx_lt_length, mem_tagsOf]

theorem firstUse_append {fields : List Field} {tag : String} (used : tag ∈ tagsOf fields)
    (later : List Field) : firstUse (fields ++ later) tag = firstUse fields tag := by
  have inside : fields.findIdx (fun field => field.group = some tag) < fields.length :=
    firstUse_lt_length.mpr used
  rw [firstUse, List.findIdx_append, if_pos inside, firstUse]

theorem length_le_firstUse {fields : List Field} {tag : String} (unused : tag ∉ tagsOf fields)
    (later : List Field) : fields.length ≤ firstUse (fields ++ later) tag := by
  have outside : ¬ fields.findIdx (fun field => field.group = some tag) < fields.length :=
    fun inside => unused (firstUse_lt_length.mp inside)
  rw [firstUse, List.findIdx_append, if_neg outside]
  omega

theorem tagsOf_ordered (fields : List Field) :
    (tagsOf fields).Pairwise fun tag later => firstUse fields tag < firstUse fields later := by
  induction fields using List.reverseRecOn with
  | nil => exact .nil
  | append_singleton fields field inductionHypothesis =>
    -- The tags that were in use before keep their places, and with them their order.
    have kept : (tagsOf fields).Pairwise fun tag later =>
        firstUse (fields ++ [field]) tag < firstUse (fields ++ [field]) later := by
      refine inductionHypothesis.imp_of_mem fun used usedLater before => ?_
      rw [firstUse_append used, firstUse_append usedLater]
      exact before
    cases tagged : field.group with
    | none => rwa [tagsOf_concat_untagged fields tagged]
    | some tag =>
      rw [tagsOf_concat_tagged fields tagged]
      split
      next => exact kept
      next unused =>
        refine List.pairwise_append.mpr ⟨kept, List.pairwise_singleton _ _, ?_⟩
        intro earlier used other single
        rw [List.mem_singleton.mp single, firstUse_append used]
        exact Nat.lt_of_lt_of_le (firstUse_lt_length.mpr used) (length_le_firstUse unused _)

/-- A member that is added is listed once more, under its group, and nothing else changes. -/
theorem Group.listings_insert (groups : List Group) (name member : String) :
    (Group.listings (Group.insert groups name member)).Perm
      ((name, member) :: Group.listings groups) := by
  induction groups with
  | nil => simp [Group.insert, Group.listings]
  | cons group rest inductionHypothesis =>
    rw [Group.insert]
    split
    next same =>
      subst same
      simp [Group.listings]
    next =>
      simp only [Group.listings, List.flatMap_cons] at inductionHypothesis ⊢
      exact (inductionHypothesis.append_left _).trans List.perm_middle

theorem taggedFields_concat (fields : List Field) (field : Field) :
    taggedFields (fields ++ [field]) =
      taggedFields fields ++ (field.group.map (·, field.name)).toList := by
  rw [taggedFields, List.filterMap_append]
  cases tagged : field.group <;> simp [taggedFields, tagged]

theorem listings_groupsOf (fields : List Field) :
    (Group.listings (groupsOf fields)).Perm (taggedFields fields) := by
  induction fields using List.reverseRecOn with
  | nil => exact .refl []
  | append_singleton fields field inductionHypothesis =>
    rw [taggedFields_concat]
    cases tagged : field.group with
    | none =>
      rw [groupsOf_concat_untagged fields tagged]
      simpa using inductionHypothesis
    | some tag =>
      rw [groupsOf_concat_tagged fields tagged]
      have added := Group.listings_insert (groupsOf fields) tag field.name
      exact (added.trans (inductionHypothesis.cons _)).trans
        (List.perm_append_singleton _ _).symm

theorem tagsOf_filter (fields : List Field) :
    tagsOf (fields.filter (·.group.isSome)) = tagsOf fields := by
  have tags : (fields.filter (·.group.isSome)).filterMap (·.group) =
      fields.filterMap (·.group) := by
    rw [List.filterMap_filter]
    refine List.filterMap_congr fun field _ => ?_
    cases tagged : field.group <;> simp
  rw [tagsOf, tags, tagsOf]

theorem taggedWith_filter (tag : String) (fields : List Field) :
    taggedWith tag (fields.filter (·.group.isSome)) = taggedWith tag fields := by
  have same : (fields.filter (·.group.isSome)).filter (fun field => field.group = some tag) =
      fields.filter fun field => field.group = some tag := by
    rw [List.filter_filter]
    refine List.filter_congr fun field _ => ?_
    by_cases tagged : field.group = some tag <;> simp [tagged]
  rw [taggedWith, same, taggedWith]

theorem groupsOf_filter (fields : List Field) :
    groupsOf (fields.filter (·.group.isSome)) = groupsOf fields := by
  simp only [groupsOf, tagsOf_filter, taggedWith_filter]

namespace Message

theorem map_name_groups (message : Message) :
    message.groups.map Group.name = tagsOf message.fields := by
  rw [groups_eq, groupsOf, List.map_map]
  exact List.map_id _

/-- The groups of a message are a partition of its tagged fields.  They stay the same as long
    as the tagged fields do, whatever other fields are put in, left out or moved. -/
theorem groups_partition (message : Message) :
    message.PartitionedBy message.groups ∧
      ∀ other : Message, other.fields.filter (·.group.isSome) =
        message.fields.filter (·.group.isSome) → other.groups = message.groups := by
  constructor
  · exact {
      distinct := message.groups_names_nodup
      named := fun tag => by rw [map_name_groups, mem_tagsOf]
      ordered := by
        rw [map_name_groups]
        exact tagsOf_ordered message.fields
      members := fun group listed => by
        rw [groups_eq, groupsOf] at listed
        obtain ⟨tag, _, rfl⟩ := List.mem_map.mp listed
        rfl
      filled := fun _ listed => members_ne_nil listed
      complete := by
        rw [groups_eq]
        exact listings_groupsOf message.fields }
  · intro other same
    calc other.groups
        = groupsOf (other.fields.filter (·.group.isSome)) := by rw [groups_eq, groupsOf_filter]
      _ = groupsOf (message.fields.filter (·.group.isSome)) := by rw [same]
      _ = message.groups := by rw [groupsOf_filter, groups_eq]

/-- A property has a value of one of two types and stands at a place, with the fields of either
    group declared between those of the other. -/
def property : Message where
  name := "Property"
  fields := [
    { name := "name", typeName := "string" },
    { name := "flag", typeName := "bool", group := some "value" },
    { name := "lat", typeName := "double", group := some "where" },
    { name := "amount", typeName := "float", group := some "value" },
    { name := "note", typeName := "string" },
    { name := "lng", typeName := "double", group := some "where" }]

/-- With a note at the end as its only other field, the message has the same groups. -/
theorem property_partition :
    let moved : Message :=
      { name := "Place"
        fields := property.fields.filter (·.group.isSome) ++
          [{ name := "note", typeName := "string" }] }
    moved.fields ≠ property.fields ∧
      moved.fields.filter (·.group.isSome) = property.fields.filter (·.group.isSome) ∧
      moved.groups = property.groups ∧
      property.groups = [⟨"value", ["flag", "amount"]⟩, ⟨"where", ["lat", "lng"]⟩] ∧
      property.PartitionedBy property.groups := by
  intro moved
  have same : moved.fields.filter (·.group.isSome) = property.fields.filter (·.group.isSome) := by
    decide
  exact ⟨by decide, same, property.groups_partition.2 moved same, by decide,
    property.groups_partition.1⟩

end Message

end PayloadSchema
