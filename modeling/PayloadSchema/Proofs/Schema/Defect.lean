import PayloadSchema.Proofs.Schema.Clash

/-! # The first defect of a schema

The names of a schema are checked along its declarations: the enumerations of the schema, and
then each message with its fields, its enumerations and the messages inside it.  The error is that
of the first declaration in which a name stands twice, and it names the first name there that
repeats an earlier one.  Of a field it says that a group has a member twice if both fields of the
name carry one tag, and that a message has a field twice if not. -/

namespace PayloadSchema

/-- Whether an item of a list is the first one that has the name of an earlier one. -/
def FirstRepeat {α : Type} (name : α → String) (list : List α) (earlier item : α) : Prop :=
  ∃ before after, list = before ++ item :: after ∧ (before.map name).Nodup ∧
    earlier ∈ before ∧ name earlier = name item

namespace FirstRepeat

variable {α : Type} {name : α → String} {list : List α} {earlier item other repeated : α}

theorem not_nodup (repeats : FirstRepeat name list earlier item) : ¬ (list.map name).Nodup := by
  obtain ⟨before, after, rfl, _, listed, same⟩ := repeats
  intro distinct
  rw [List.map_append, List.map_cons, List.nodup_append] at distinct
  exact distinct.2.2 _ (List.mem_map_of_mem listed) _ List.mem_cons_self same

theorem unique (repeats : FirstRepeat name list earlier item)
    (also : FirstRepeat name list other repeated) : earlier = other ∧ item = repeated := by
  obtain ⟨before, after, split, distinct, listed, same⟩ := repeats
  obtain ⟨first, last, otherSplit, otherDistinct, otherListed, otherSame⟩ := also
  have same_before : before = first := by
    rcases List.append_eq_append_iff.mp (split.symm.trans otherSplit) with
      ⟨between, rfl, rest⟩ | ⟨between, rfl, rest⟩
    · cases between with
      | nil => rw [List.append_nil]
      | cons head between =>
        obtain ⟨rfl, _⟩ := List.cons.inj rest
        exact absurd otherDistinct (not_nodup ⟨before, between, rfl, distinct, listed, same⟩)
    · cases between with
      | nil => rw [List.append_nil]
      | cons head between =>
        obtain ⟨rfl, _⟩ := List.cons.inj rest
        exact absurd distinct
          (not_nodup ⟨first, between, rfl, otherDistinct, otherListed, otherSame⟩)
  subst same_before
  obtain ⟨rfl, _⟩ := List.cons.inj (List.append_cancel_left (split.symm.trans otherSplit))
  exact ⟨List.inj_on_of_nodup_map distinct listed otherListed (same.trans otherSame.symm), rfl⟩

end FirstRepeat

theorem firstRepeated?_eq_some_iff {seen names : List String} (distinct : seen.Nodup)
    {name : String} :
    firstRepeated? seen names = some name ↔ FirstRepeat id (seen.reverse ++ names) name name := by
  induction names generalizing seen with
  | nil =>
    simp only [firstRepeated?, reduceCtorEq, List.append_nil, false_iff]
    exact fun repeats => repeats.not_nodup (by simpa using distinct)
  | cons first rest inductionHypothesis =>
    rw [firstRepeated?]
    by_cases known : first ∈ seen
    · have repeats : FirstRepeat id (seen.reverse ++ first :: rest) first first :=
        ⟨seen.reverse, rest, rfl, by simpa using distinct, by simpa using known, rfl⟩
      rw [if_pos (List.contains_iff_mem.mpr known), Option.some.injEq]
      constructor
      · rintro rfl
        exact repeats
      · exact fun also => (repeats.unique also).1
    · rw [if_neg (by simpa using known),
        inductionHypothesis (List.nodup_cons.mpr ⟨known, distinct⟩), List.reverse_cons,
        List.append_assoc, List.singleton_append]

/-- A part of a schema with names of its own: the fields of a message, or an enumeration. -/
inductive Declaration where
  | fields (message : Message)
  | enum (enum : EnumType)

mutual

def Message.declarations : Message → List Declaration
  | ⟨name, fields, messages, enums⟩ =>
    .fields ⟨name, fields, messages, enums⟩ :: enums.map .enum ++ declarationsOfAll messages

def Message.declarationsOfAll : List Message → List Declaration
  | [] => []
  | message :: rest => message.declarations ++ declarationsOfAll rest

end

def Schema.declarations (schema : Schema) : List Declaration :=
  schema.enums.map .enum ++ Message.declarationsOfAll schema.messages

namespace Declaration

def Distinct : Declaration → Prop
  | .fields message => message.FieldsDistinct
  | .enum type => type.names.Nodup

/-- Whether an error reports the first name of a declaration that repeats an earlier one. -/
inductive Defect : Declaration → SchemaError → Prop where
  | entry {enum : EnumType} {value : String} (repeats : FirstRepeat id enum.names value value) :
      Defect (.enum enum) (.repeatedEntry enum.name value)
  | member {message : Message} {earlier field : Field} {group : String}
      (repeats : FirstRepeat Field.name message.fields earlier field)
      (tagged : field.group = some group) (alike : earlier.group = some group) :
      Defect (.fields message) (.repeatedMember message.name group field.name)
  | field {message : Message} {earlier field : Field}
      (repeats : FirstRepeat Field.name message.fields earlier field)
      (apart : ∀ group, field.group = some group → earlier.group ≠ some group) :
      Defect (.fields message) (.repeatedField message.name field.name)

def check : Declaration → Except SchemaError Unit
  | .fields message => Message.checkFields message.name [] message.fields
  | .enum type => type.checkNames

end Declaration

mutual

theorem Message.checkNames_eq_forM : ∀ message : Message,
    message.checkNames = message.declarations.forM Declaration.check
  | ⟨name, fields, messages, enums⟩ => by
    rw [checkNames, declarations, checkAllNames_eq_forM messages]
    simp only [List.forM_eq_forM, List.cons_append, List.forM_cons, List.forM_append,
      List.forM_map, Declaration.check]

theorem Message.checkAllNames_eq_forM : ∀ messages : List Message,
    checkAllNames messages = (declarationsOfAll messages).forM Declaration.check
  | [] => rfl
  | message :: rest => by
    rw [checkAllNames, declarationsOfAll, checkNames_eq_forM message, checkAllNames_eq_forM rest]
    simp only [List.forM_eq_forM, List.forM_append]

end

/-- The names of a schema are checked declaration by declaration. -/
theorem Schema.checkNames_eq_forM (schema : Schema) :
    schema.checkNames = schema.declarations.forM Declaration.check := by
  rw [checkNames, declarations, Message.checkAllNames_eq_forM]
  simp only [List.forM_eq_forM, List.forM_append, List.forM_map, Declaration.check]

theorem EnumType.checkNames_eq_error_iff {enum : EnumType} {error : SchemaError} :
    enum.checkNames = .error error ↔ ∃ value, FirstRepeat id enum.names value value ∧
      error = .repeatedEntry enum.name value := by
  have found : ∀ value, firstRepeated? [] enum.names = some value ↔
      FirstRepeat id enum.names value value := fun value => firstRepeated?_eq_some_iff .nil
  simp only [checkNames, ← found]
  cases firstRepeated? [] enum.names with
  | none => simp
  | some value => simp [eq_comm]

theorem Message.checkFields_eq_error_iff (message : String) (before fields : List Field)
    (distinct : (before.map Field.name).Nodup) {error : SchemaError} :
    checkFields message before fields = .error error ↔ ∃ earlier field,
      FirstRepeat Field.name (before ++ fields) earlier field ∧
      error = clash message earlier field := by
  induction fields generalizing before with
  | nil =>
    simp only [checkFields, reduceCtorEq, List.append_nil, false_iff, not_exists, not_and]
    exact fun _ _ repeats _ => repeats.not_nodup distinct
  | cons field rest inductionHypothesis =>
    rw [checkFields]
    cases found : before.find? fun earlier => earlier.name = field.name with
    | some earlier =>
      have repeats : FirstRepeat Field.name (before ++ field :: rest) earlier field :=
        ⟨before, rest, rfl, distinct, List.mem_of_find?_eq_some found,
          by simpa using List.find?_some found⟩
      simp only [Except.error.injEq]
      constructor
      · rintro rfl
        exact ⟨earlier, field, repeats, rfl⟩
      · rintro ⟨other, repeated, also, rfl⟩
        obtain ⟨rfl, rfl⟩ := repeats.unique also
        rfl
    | none =>
      have fresh : field.name ∉ before.map Field.name := by
        simpa using List.find?_eq_none.mp found
      have extended : ((before ++ [field]).map Field.name).Nodup := by
        rw [List.map_append, List.map_singleton]
        exact distinct.append (List.nodup_singleton _) (List.disjoint_singleton.mpr fresh)
      simp only [inductionHypothesis _ extended, List.append_assoc, List.singleton_append]

namespace Declaration

theorem check_eq_ok_iff {declaration : Declaration} :
    declaration.check = .ok () ↔ declaration.Distinct := by
  cases declaration with
  | fields message => exact Message.checkFields_eq_ok_iff message.name [] message.fields .nil
  | enum type => exact EnumType.checkNames_eq_ok_iff

theorem check_eq_error_iff {declaration : Declaration} {error : SchemaError} :
    declaration.check = .error error ↔ declaration.Defect error := by
  cases declaration with
  | enum type =>
    rw [check, EnumType.checkNames_eq_error_iff]
    constructor
    · rintro ⟨value, repeats, rfl⟩
      exact .entry repeats
    · rintro (⟨repeats⟩ | _)
      exact ⟨_, repeats, rfl⟩
  | fields message =>
    rw [check, Message.checkFields_eq_error_iff message.name [] message.fields .nil,
      List.nil_append]
    constructor
    · rintro ⟨earlier, field, repeats, rfl⟩
      rw [Message.clash]
      split
      next group tagged =>
        split
        next alike => exact .member repeats tagged alike
        next apart =>
          refine .field repeats fun other also => ?_
          exact Option.some.inj (tagged.symm.trans also) ▸ apart
      next untagged => exact .field repeats (by simp [untagged])
    · intro defect
      cases defect with
      | @member _ earlier field group repeats tagged alike =>
        exact ⟨earlier, field, repeats, by simp [Message.clash, tagged, alike]⟩
      | @field _ earlier field repeats apart =>
        refine ⟨earlier, field, repeats, ?_⟩
        cases tagged : field.group with
        | none => simp [Message.clash, tagged]
        | some group => simp [Message.clash, tagged, apart group tagged]

end Declaration

/-! ## Two memories -/

namespace Message

/-- Checks fields with a memory of the names met before, and of those met under each tag.  A name
    that is known under the tag of its field is a repeated member, one that is known otherwise a
    repeated field. -/
def scanFields (message : String) (names : List String) (members : List (String × String)) :
    List Field → Except SchemaError Unit
  | [] => .ok ()
  | field :: rest =>
    match field.group with
    | some group =>
      if members.contains (group, field.name) then
        .error (.repeatedMember message group field.name)
      else if names.contains field.name then .error (.repeatedField message field.name)
      else scanFields message (field.name :: names) ((group, field.name) :: members) rest
    | none =>
      if names.contains field.name then .error (.repeatedField message field.name)
      else scanFields message (field.name :: names) members rest

/-- Whether the memories hold what was met in some fields. -/
structure Remembers (before : List Field) (names : List String)
    (members : List (String × String)) : Prop where
  names : ∀ name, name ∈ names ↔ ∃ earlier ∈ before, earlier.name = name
  members : ∀ group name, (group, name) ∈ members ↔
    ∃ earlier ∈ before, earlier.group = some group ∧ earlier.name = name

variable {before : List Field} {names : List String} {members : List (String × String)}
  {field : Field}

theorem Remembers.untagged (remembers : Remembers before names members)
    (untagged : field.group = none) :
    Remembers (before ++ [field]) (field.name :: names) members := by
  constructor
  · intro name
    simp only [List.mem_cons, remembers.names, List.mem_append, List.not_mem_nil, or_false,
      or_and_right, exists_or, exists_eq_left]
    rw [or_comm, eq_comm]
  · intro group name
    simp [remembers.members, or_and_right, exists_or, untagged]

theorem Remembers.tagged (remembers : Remembers before names members) {group : String}
    (tagged : field.group = some group) :
    Remembers (before ++ [field]) (field.name :: names) ((group, field.name) :: members) := by
  constructor
  · intro name
    simp only [List.mem_cons, remembers.names, List.mem_append, List.not_mem_nil, or_false,
      or_and_right, exists_or, exists_eq_left]
    rw [or_comm, eq_comm]
  · intro other name
    simp only [List.mem_cons, Prod.mk.injEq, remembers.members, List.mem_append, List.not_mem_nil,
      or_false, or_and_right, exists_or, exists_eq_left, tagged, Option.some.injEq]
    rw [or_comm, @eq_comm _ other, @eq_comm _ name]

theorem scanFields_eq (message : String) (remembers : Remembers before names members)
    (distinct : (before.map Field.name).Nodup) (fields : List Field) :
    scanFields message names members fields = checkFields message before fields := by
  induction fields generalizing before names members with
  | nil => rfl
  | cons field rest inductionHypothesis =>
    rw [scanFields, checkFields]
    cases found : before.find? fun earlier => earlier.name = field.name with
    | some earlier =>
      have listed := List.mem_of_find?_eq_some found
      have same : earlier.name = field.name := by simpa using List.find?_some found
      have known : field.name ∈ names := (remembers.names _).mpr ⟨earlier, listed, same⟩
      have under : ∀ group, (group, field.name) ∈ members ↔ earlier.group = some group := by
        intro group
        rw [remembers.members]
        constructor
        · rintro ⟨other, among, tagged, alike⟩
          rwa [List.inj_on_of_nodup_map distinct listed among (same.trans alike.symm)]
        · exact fun tagged => ⟨earlier, listed, tagged, same⟩
      cases tagged : field.group <;> simp [clash, tagged, known, under, apply_ite Except.error]
    | none =>
      have fresh : ∀ earlier ∈ before, earlier.name ≠ field.name := by
        simpa using List.find?_eq_none.mp found
      have unknown : field.name ∉ names := by simpa [remembers.names] using fresh
      have extended : ((before ++ [field]).map Field.name).Nodup := by
        rw [List.map_append, List.map_singleton]
        refine distinct.append (List.nodup_singleton _) (List.disjoint_singleton.mpr ?_)
        simpa using fresh
      cases tagged : field.group with
      | none => simp [unknown, inductionHypothesis (remembers.untagged tagged) extended]
      | some group =>
        have apart : (group, field.name) ∉ members := by
          rw [remembers.members]
          rintro ⟨earlier, listed, _, same⟩
          exact fresh earlier listed same
        simp [unknown, apart, inductionHypothesis (remembers.tagged tagged) extended]

end Message

namespace Schema

/-- The check of names is exact, and what it reports is the first defect.  It is the same check
    if it is made with a memory of names and one of members. -/
theorem checkNames_first_defect (schema : Schema) :
    (schema.checkNames = .ok () ↔ (∀ enum ∈ schema.enums, enum.names.Nodup) ∧
      ∀ message ∈ schema.messages, ∀ inner : Message, inner.Within message →
        inner.NamesDistinct) ∧
    (∀ error, schema.checkNames = .error error ↔ ∃ before declaration after,
      schema.declarations = before ++ declaration :: after ∧
      (∀ earlier ∈ before, earlier.Distinct) ∧ declaration.Defect error) ∧
    ∀ message : Message, Message.scanFields message.name [] [] message.fields =
      Message.checkFields message.name [] message.fields := by
  refine ⟨checkNames_eq_ok_iff, fun error => ?_, fun message => ?_⟩
  · rw [checkNames_eq_forM, forM_eq_error_iff]
    simp only [Declaration.check_eq_ok_iff, Declaration.check_eq_error_iff]
  · have remembers : Message.Remembers [] [] [] := ⟨by simp, by simp⟩
    exact Message.scanFields_eq message.name remembers .nil message.fields

end Schema

end PayloadSchema
