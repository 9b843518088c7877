import Mathlib.Data.List.Nodup
import Mathlib.Data.List.Induction
import PayloadSchema.Schema.Group

/-! # Groups by their tags

Building the groups of a message field by field gives one group for each tag that its
fields carry, in the order of first use, and lists under each tag the fields that
carry it. -/

namespace PayloadSchema

/-- The tags of fields, in the order of first use. -/
def tagsOf (fields : List Field) : List String := (fields.filterMap (·.group)).eraseDups

def taggedWith (tag : String) (fields : List Field) : List String :=
  (fields.filter fun field => field.group = some tag).map (·.name)

theorem eraseDups_concat (tags : List String) (tag : String) :
    (tags ++ [tag]).eraseDups = if tag ∈ tags then tags.eraseDups else tags.eraseDups ++ [tag] := by
  rw [List.eraseDups_append]
  by_cases known : tag ∈ tags <;> simp [List.removeAll, known, List.eraseDups_cons]

theorem eraseDups_nodup (tags : List String) : tags.eraseDups.Nodup := by
  induction tags using List.reverseRecOn with
  | nil => simp
  | append_singleton tags tag inductionHypothesis =>
    rw [eraseDups_concat]
    by_cases known : tag ∈ tags
    · rw [if_pos known]
      exact inductionHypothesis
    · rw [if_neg known]
      refine List.Nodup.append inductionHypothesis (by simp) ?_
      intro other member single
      rw [List.mem_singleton] at single
      exact known (single ▸ List.mem_eraseDups.mp member)

theorem tagsOf_nodup (fields : List Field) : (tagsOf fields).Nodup := eraseDups_nodup _

theorem taggedWith_sublist (tag : String) (fields : List Field) :
    (taggedWith tag fields).Sublist (fields.map Field.name) :=
  List.filter_sublist.map Field.name

theorem tagsOf_concat_untagged (fields : List Field) {field : Field}
    (untagged : field.group = none) : tagsOf (fields ++ [field]) = tagsOf fields := by
  simp [tagsOf, untagged]

theorem tagsOf_concat_tagged (fields : List Field) {field : Field} {tag : String}
    (tagged : field.group = some tag) :
    tagsOf (fields ++ [field]) =
      if tag ∈ tagsOf fields then tagsOf fields else tagsOf fields ++ [tag] := by
  simp only [tagsOf, List.filterMap_append, List.filterMap_cons, tagged, List.filterMap_nil,
    eraseDups_concat, List.mem_eraseDups]

theorem taggedWith_concat (tag : String) (fields : List Field) (field : Field) :
    taggedWith tag (fields ++ [field]) =
      taggedWith tag fields ++ if field.group = some tag then [field.name] else [] := by
  by_cases tagged : field.group = some tag <;> simp [taggedWith, tagged]

theorem taggedWith_of_not_mem {tag : String} {fields : List Field} (unused : tag ∉ tagsOf fields) :
    taggedWith tag fields = [] := by
  simp only [tagsOf, List.mem_eraseDups, List.mem_filterMap, not_exists, not_and] at unused
  simp only [taggedWith, List.map_eq_nil_iff, List.filter_eq_nil_iff, decide_eq_true_eq]
  exact unused

def groupsOf (fields : List Field) : List Group :=
  (tagsOf fields).map fun tag => ⟨tag, taggedWith tag fields⟩

theorem insert_known (members : String → List String) {tags : List String} (nodup : tags.Nodup)
    {name : String} (known : name ∈ tags) (member : String) :
    Group.insert (tags.map fun tag => ⟨tag, members tag⟩) name member =
      tags.map fun tag => ⟨tag, members tag ++ if name = tag then [member] else []⟩ := by
  induction tags with
  | nil => simp at known
  | cons tag rest inductionHypothesis =>
    have fresh := (List.nodup_cons.mp nodup).1
    by_cases same : tag = name
    · subst same
      -- The tag stands here only, so the groups behind it keep their members.
      have untouched : ∀ other ∈ rest, Group.mk other (members other) =
          ⟨other, members other ++ if tag = other then [member] else []⟩ := by
        intro other listed
        have differs : tag ≠ other := fun equal => fresh (equal ▸ listed)
        simp [differs]
      simp only [List.map_cons, Group.insert, if_true]
      rw [List.map_congr_left untouched]
    · have later : name ∈ rest := by simpa [Ne.symm same] using known
      simp only [List.map_cons, Group.insert, if_neg same, if_neg (Ne.symm same),
        List.append_nil]
      rw [inductionHypothesis (List.nodup_cons.mp nodup).2 later]

theorem insert_new (members : String → List String) {tags : List String} {name : String}
    (unknown : name ∉ tags) (member : String) :
    Group.insert (tags.map fun tag => ⟨tag, members tag⟩) name member =
      tags.map (fun tag => ⟨tag, members tag⟩) ++ [⟨name, [member]⟩] := by
  induction tags with
  | nil => rfl
  | cons tag rest inductionHypothesis =>
    rw [List.mem_cons, not_or] at unknown
    simp only [List.map_cons, Group.insert, if_neg (Ne.symm unknown.1), List.cons_append]
    rw [inductionHypothesis unknown.2]

theorem groupsOf_concat_untagged (fields : List Field) {field : Field}
    (untagged : field.group = none) : groupsOf (fields ++ [field]) = groupsOf fields := by
  simp [groupsOf, tagsOf_concat_untagged fields untagged, taggedWith_concat, untagged]

theorem groupsOf_concat_tagged (fields : List Field) {field : Field} {tag : String}
    (tagged : field.group = some tag) :
    groupsOf (fields ++ [field]) = Group.insert (groupsOf fields) tag field.name := by
  simp only [groupsOf, tagsOf_concat_tagged fields tagged, taggedWith_concat, tagged,
    Option.some.injEq]
  by_cases known : tag ∈ tagsOf fields
  · -- The tag is in use: its group grows, and the others stay.
    rw [if_pos known, insert_known _ (tagsOf_nodup fields) known]
  · have untouched : ∀ other ∈ tagsOf fields, Group.mk other (taggedWith other fields ++
        if tag = other then [field.name] else []) = ⟨other, taggedWith other fields⟩ := by
      intro other listed
      have differs : tag ≠ other := fun equal => known (equal ▸ listed)
      simp [differs]
    rw [if_neg known, insert_new _ known, List.map_append, List.map_congr_left untouched]
    simp [taggedWith_of_not_mem known]

theorem foldl_groupsOf {step : List Group → Field → List Group}
    (adds : ∀ done field, step (groupsOf done) field = groupsOf (done ++ [field]))
    (done rest : List Field) : rest.foldl step (groupsOf done) = groupsOf (done ++ rest) := by
  induction rest generalizing done with
  | nil => simp
  | cons field rest inductionHypothesis =>
    rw [List.foldl_cons, adds, inductionHypothesis (done ++ [field])]
    simp

/-- The groups of a message are one for each tag of its fields. -/
theorem Message.groups_eq (message : Message) : message.groups = groupsOf message.fields := by
  refine foldl_groupsOf (fun done field => ?_) [] message.fields
  cases tagged : field.group with
  | none => exact (groupsOf_concat_untagged done tagged).symm
  | some tag => exact (groupsOf_concat_tagged done tagged).symm

theorem Message.exists_field_of_member {message : Message} {group : Group}
    (listed : group ∈ message.groups) {member : String} (belongs : member ∈ group.members) :
    ∃ field ∈ message.fields, field.name = member := by
  rw [Message.groups_eq, groupsOf] at listed
  obtain ⟨tag, _, rfl⟩ := List.mem_map.mp listed
  exact List.mem_map.mp ((taggedWith_sublist tag message.fields).subset belongs)

theorem Message.groups_names_nodup (message : Message) :
    (message.groups.map Group.name).Nodup := by
  rw [Message.groups_eq, groupsOf, List.map_map]
  exact (List.map_id (tagsOf message.fields)).symm ▸ tagsOf_nodup message.fields

theorem Message.members_ne_nil {message : Message} {group : Group}
    (listed : group ∈ message.groups) : group.members ≠ [] := by
  rw [Message.groups_eq, groupsOf] at listed
  obtain ⟨tag, used, rfl⟩ := List.mem_map.mp listed
  rw [tagsOf, List.mem_eraseDups, List.mem_filterMap] at used
  obtain ⟨field, declared, tagged⟩ := used
  refine List.ne_nil_of_mem (a := field.name) (List.mem_map_of_mem ?_)
  exact List.mem_filter.mpr ⟨declared, by simpa using tagged⟩

theorem Message.group_eq_of_member {message : Message}
    (distinct : (message.fields.map Field.name).Nodup) {first second : Group}
    (listed : first ∈ message.groups) (other : second ∈ message.groups) {member : String}
    (inFirst : member ∈ first.members) (inSecond : member ∈ second.members) : first = second := by
  rw [Message.groups_eq, groupsOf] at listed other
  obtain ⟨tag, _, rfl⟩ := List.mem_map.mp listed
  obtain ⟨label, _, rfl⟩ := List.mem_map.mp other
  obtain ⟨field, among, named⟩ := List.mem_map.mp inFirst
  obtain ⟨twin, amongOthers, namedAlike⟩ := List.mem_map.mp inSecond
  rw [List.mem_filter, decide_eq_true_eq] at among amongOthers
  obtain rfl :=
    List.inj_on_of_nodup_map distinct among.1 amongOthers.1 (named.trans namedAlike.symm)
  rw [Option.some.inj (among.2.symm.trans amongOthers.2)]

end PayloadSchema
