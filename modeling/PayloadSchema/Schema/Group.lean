import PayloadSchema.Schema.Basic

/-! # Groups of alternatives

Fields of a message that carry one tag form a group, of which a payload has to
provide exactly one member. -/

namespace PayloadSchema

/-- A group of alternatives: its tag, and the names of its fields. -/
structure Group where
  name : String
  members : List String
deriving DecidableEq, Repr

namespace Group

/-- Adds a member to the group of a name.  A group that is new goes to the end. -/
def insert (groups : List Group) (name member : String) : List Group :=
  match groups with
  | [] => [⟨name, [member]⟩]
  | group :: rest =>
    if group.name = name then { group with members := group.members ++ [member] } :: rest
    else group :: insert rest name member

end Group

/-- The groups of a message, in the order of their first members.  The members of
    a group are in declared order. -/
def Message.groups (message : Message) : List Group :=
  message.fields.foldl (fun groups field =>
    match field.group with
    | some group => Group.insert groups group field.name
    | none => groups) []

end PayloadSchema
