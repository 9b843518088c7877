import PayloadSchema.Proofs.Compile.Success
import PayloadSchema.Proofs.Interpretation.Steps

/-! # Messages that read alike

Two messages read alike if they have the same fields, and the types of the fields lead to the
same enumerations and to messages that read alike in turn.  Where the messages stand and what
identifies them does not matter: payloads are interpreted the same, and a field that fits the
one message fits the other.  The induction is on the payload, since messages may lead back to
themselves. -/

namespace PayloadSchema

inductive Catalog.Referent.Alike {first second : Catalog}
    (related : first.Listed → second.Listed → Prop) : first.Referent → second.Referent → Prop where
  | enum (enum : EnumType) : Alike related (.enum enum) (.enum enum)
  | message {source : first.Listed} {image : second.Listed} (pair : related source image) :
      Alike related (.message source) (.message image)
  | nothing : Alike related .nothing .nothing

/-- Whether related messages have the same fields, whose types lead to related messages. -/
structure Catalog.Simulates (first second : Catalog)
    (related : first.Listed → second.Listed → Prop) : Prop where
  fields : ∀ source image, related source image →
    source.1.message.fields = image.1.message.fields
  referents : ∀ source image, related source image → ∀ field ∈ source.1.message.fields,
    Scalar.ofName? field.typeName = none →
    Catalog.Referent.Alike related (first.referent source.1 field.typeName)
      (second.referent image.1 field.typeName)

section

variable {first second : Catalog} {related : first.Listed → second.Listed → Prop}
  {source : first.Listed} {image : second.Listed} {field : Field}

theorem Catalog.Simulates.default?_eq (simulates : first.Simulates second related)
    (pair : related source image) (declared : field ∈ source.1.message.fields) :
    first.default? source.1 field = second.default? image.1 field := by
  refine congrArg field.default.bind (funext fun literal => ?_)
  cases named : Scalar.ofName? field.typeName with
  | some scalar => rfl
  | none =>
    have alike := simulates.referents source image pair field declared named
    generalize first.referent source.1 field.typeName = before at alike
    generalize second.referent image.1 field.typeName = after at alike
    cases alike <;> rfl

theorem Catalog.Simulates.fits (simulates : first.Simulates second related)
    (pair : related source image) (declared : field ∈ source.1.message.fields)
    (fits : field.Fits first source.1) : field.Fits second image.1 := by
  cases fits with
  | scalar named fits => exact .scalar named fits
  | enum named found fits =>
    have alike := simulates.referents source image pair field declared named
    rw [found] at alike
    generalize other : second.referent image.1 field.typeName = referent at alike
    cases alike with
    | enum enum => exact .enum named other fits
  | message named found plain =>
    have alike := simulates.referents source image pair field declared named
    rw [found] at alike
    generalize other : second.referent image.1 field.typeName = referent at alike
    cases alike with
    | message pair => exact .message named other plain

/-- If every top-level message is related to one before, then so is every message that is
    reached. -/
theorem Catalog.Simulates.exists_reachable (simulates : first.Simulates second related)
    (roots : ∀ root ∈ second.topLevel, ∃ source ∈ first.topLevel, related source root)
    (reached : Reachable second image) :
    ∃ source, Reachable first source ∧ related source image := by
  induction reached with
  | root top =>
    obtain ⟨source, known, pair⟩ := roots _ top
    exact ⟨source, .root known, pair⟩
  | @field scope target field _ listed declared found inductionHypothesis =>
    obtain ⟨source, known, pair⟩ := inductionHypothesis
    rw [← simulates.fields source scope pair] at listed
    have alike := simulates.referents source scope pair field listed declared
    rw [found] at alike
    generalize other : first.referent source.1 field.typeName = referent at alike
    cases alike with
    | message pair => exact ⟨_, .field known listed declared other, pair⟩

end

theorem Message.conclude_congr {first second : Message} (same : first.fields = second.fields)
    (options : Options) (path : Path) (members : Members) (readings : List Reading) :
    first.conclude options path members readings =
      second.conclude options path members readings := by
  have strangers : first.strangers members = second.strangers members := by
    rw [Message.strangers, Message.strangers, same]
  have faults : first.alternativesFault? readings = second.alternativesFault? readings := by
    funext tag
    rw [alternativesFault?, alternativesFault?, same]
  rw [conclude, conclude, strangers, faults, same]

/-- Whether a value is interpreted the same for fields of related messages, as a value of the
    type of a field and as a list of such values. -/
structure ReadsAlike (first second : Catalog) (options : Options)
    (related : first.Listed → second.Listed → Prop) (value : Json) : Prop where
  single : ∀ source image, related source image → ∀ field ∈ source.1.message.fields, ∀ path,
    first.interpret options source.1 field.typeName path value =
      second.interpret options image.1 field.typeName path value
  list : ∀ source image, related source image → ∀ field ∈ source.1.message.fields, ∀ path,
    first.interpretList options source.1 field.typeName path value =
      second.interpretList options image.1 field.typeName path value

namespace Catalog.Simulates

variable {first second : Catalog} {options : Options}
  {related : first.Listed → second.Listed → Prop} (simulates : first.Simulates second related)
  {source : first.Listed} {image : second.Listed} {field : Field}

include simulates

theorem interpretField_eq (pair : related source image)
    (declared : field ∈ source.1.message.fields) (path : Path) {members : Members}
    (alike : ∀ member ∈ members, ReadsAlike first second options related member.2) :
    first.interpretField options source.1 field path members =
      second.interpretField options image.1 field path members := by
  cases given : members.given? options field.name with
  | none =>
    rw [interpretField_of_absent given, interpretField_of_absent given,
      simulates.default?_eq pair declared]
  | some value =>
    have found := Members.mem_of_get? (Option.filter_eq_some_iff.mp given).1
    rw [interpretField_of_given given, interpretField_of_given given,
      (alike _ found).single source image pair field declared,
      (alike _ found).list source image pair field declared]

theorem interpretMessage_eq_of_inside (pair : related source image) (path : Path) {value : Json}
    (alike : ∀ part, part.Inside value → ReadsAlike first second options related part) :
    first.interpretMessage options source.1 path value =
      second.interpretMessage options image.1 path value := by
  cases value with
  | obj members =>
    rw [interpretMessage, interpretMessage, ← simulates.fields source image pair,
      Message.conclude_congr (simulates.fields source image pair)]
    refine congrArg _ (List.map_congr_left fun field declared => ?_)
    exact simulates.interpretField_eq pair declared _ fun member listed => alike _ (.member listed)
  | _ => rw [interpretMessage_not_object (by simp), interpretMessage_not_object (by simp)]

theorem interpret_eq_of_inside (pair : related source image)
    (declared : field ∈ source.1.message.fields) (path : Path) {value : Json}
    (alike : ∀ part, part.Inside value → ReadsAlike first second options related part) :
    first.interpret options source.1 field.typeName path value =
      second.interpret options image.1 field.typeName path value := by
  rw [interpret, interpret]
  cases named : Scalar.ofName? field.typeName with
  | some scalar => rfl
  | none =>
    have leads := simulates.referents source image pair field declared named
    generalize first.referent source.1 field.typeName = before at leads
    generalize second.referent image.1 field.typeName = after at leads
    cases leads with
    | enum | nothing => rfl
    | message next => exact simulates.interpretMessage_eq_of_inside next path alike

omit simulates in
theorem interpretItems_eq (pair : related source image)
    (declared : field ∈ source.1.message.fields) (path : Path) (position : Nat) {items : List Json}
    (alike : ∀ item ∈ items, ReadsAlike first second options related item) :
    first.interpretItems options source.1 field.typeName path position items =
      second.interpretItems options image.1 field.typeName path position items := by
  induction items generalizing position with
  | nil => rw [interpretItems, interpretItems]
  | cons item rest inductionHypothesis =>
    rw [interpretItems, interpretItems,
      (alike item List.mem_cons_self).single source image pair field declared,
      inductionHypothesis (position + 1) fun other listed => alike other (.tail item listed)]

theorem readsAlike (value : Json) : ReadsAlike first second options related value := by
  induction value using Json.inside_induction with
  | step value inductionHypothesis =>
    constructor
    · intro source image pair field declared path
      exact simulates.interpret_eq_of_inside pair declared path inductionHypothesis
    · intro source image pair field declared path
      cases value with
      | arr items =>
        rw [interpretList, interpretList, interpretItems_eq pair declared path 0
          fun item listed => inductionHypothesis item (.item listed)]
      | _ => rw [interpretList_not_array (by simp), interpretList_not_array (by simp)]

theorem interpretMessage_eq (pair : related source image) (path : Path) (value : Json) :
    first.interpretMessage options source.1 path value =
      second.interpretMessage options image.1 path value :=
  simulates.interpretMessage_eq_of_inside pair path fun part _ => simulates.readsAlike part

end Catalog.Simulates

end PayloadSchema
