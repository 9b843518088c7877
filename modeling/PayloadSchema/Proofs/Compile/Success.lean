import PayloadSchema.Proofs.Registry

/-! # When a schema compiles

Beside distinct names a schema needs no more than this: in every message that the
top-level ones lead to, each field has a type, and its default fits that type.  Cutting a
reference hides no field, since the message that it names is being compiled already, and a
message that nothing leads to is never looked at. -/

namespace PayloadSchema

/-- Whether a field has a type that its default fits. -/
inductive Field.Fits (catalog : Catalog) (scope : Entry) (field : Field) : Prop where
  | scalar {scalar : Scalar} (named : Scalar.ofName? field.typeName = some scalar)
      (fits : ∀ literal, field.default = some literal →
        ∃ value, scalar.literalKind.read? literal = some value)
  | enum {enum : EnumType} (declared : Scalar.ofName? field.typeName = none)
      (found : catalog.referent scope field.typeName = .enum enum)
      (fits : ∀ literal, field.default = some literal → literal ∈ enum.names)
  | message {target : catalog.Listed} (declared : Scalar.ofName? field.typeName = none)
      (found : catalog.referent scope field.typeName = .message target)
      (plain : field.default = none)

/-- Whether an error says of a field what is wrong with it. -/
inductive Field.Blames (catalog : Catalog) (scope : Entry) (field : Field) : SchemaError → Prop where
  | unknownType (declared : Scalar.ofName? field.typeName = none)
      (missing : catalog.referent scope field.typeName = .nothing) :
      Blames catalog scope field (.unknownType scope.message.name field.name field.typeName)
  | unfitLiteral {scalar : Scalar} (named : Scalar.ofName? field.typeName = some scalar)
      {literal : String} (stated : field.default = some literal)
      (unfit : scalar.literalKind.read? literal = none) :
      Blames catalog scope field
        (.unfitDefault scope.message.name field.name literal field.typeName)
  | unlistedMember {enum : EnumType} (declared : Scalar.ofName? field.typeName = none)
      (found : catalog.referent scope field.typeName = .enum enum)
      {literal : String} (stated : field.default = some literal) (unlisted : literal ∉ enum.names) :
      Blames catalog scope field
        (.unfitDefault scope.message.name field.name literal field.typeName)
  | messageDefault {target : catalog.Listed} (declared : Scalar.ofName? field.typeName = none)
      (found : catalog.referent scope field.typeName = .message target)
      {literal : String} (stated : field.default = some literal) :
      Blames catalog scope field
        (.unfitDefault scope.message.name field.name literal field.typeName)

section

variable {catalog : Catalog} {options : Options} {scope : Entry} {field : Field}

theorem Field.Fits.not_blamed (fits : field.Fits catalog scope) (error : SchemaError) :
    ¬ field.Blames catalog scope error := by
  intro blames
  -- A type name has one meaning, so only an error about that meaning can be at issue.
  cases fits with
  | scalar named fits =>
    cases blames with
    | unfitLiteral other stated unfit =>
      obtain ⟨value, read⟩ := fits _ stated
      cases named.symm.trans other
      rw [unfit] at read
      cases read
    | unknownType declared | unlistedMember declared | messageDefault declared =>
      rw [declared] at named
      cases named
  | enum declared found fits =>
    cases blames with
    | unlistedMember _ other stated unlisted =>
      cases found.symm.trans other
      exact unlisted (fits _ stated)
    | unfitLiteral named =>
      rw [declared] at named
      cases named
    | unknownType _ other | messageDefault _ other =>
      rw [found] at other
      cases other
  | message declared found plain =>
    cases blames with
    | messageDefault _ _ stated =>
      rw [plain] at stated
      cases stated
    | unfitLiteral named =>
      rw [declared] at named
      cases named
    | unknownType _ other | unlistedMember _ other =>
      rw [found] at other
      cases other

namespace Field.Fits

variable {message : String} {default : Option Json}

theorem of_literal {scalar : Scalar} (named : Scalar.ofName? field.typeName = some scalar)
    (valued : field.defaultValue message (.literal scalar.literalKind) = .ok default) :
    field.Fits catalog scope := by
  have readable := (Field.defaultValue_eq_ok_iff.mp valued).2
  exact .scalar named fun literal stated => Option.isSome_iff_exists.mp (readable literal stated)

theorem of_member {enum : EnumType} (declared : Scalar.ofName? field.typeName = none)
    (found : catalog.referent scope field.typeName = .enum enum)
    (valued : field.defaultValue message (.member enum.names) = .ok default) :
    field.Fits catalog scope := by
  have readable := (Field.defaultValue_eq_ok_iff.mp valued).2
  refine .enum declared found fun literal stated => ?_
  simpa [DefaultForm.read?] using readable literal stated

theorem of_forbidden {target : catalog.Listed} (declared : Scalar.ofName? field.typeName = none)
    (found : catalog.referent scope field.typeName = .message target)
    (valued : field.defaultValue message .forbidden = .ok default) :
    field.Fits catalog scope := by
  have readable := (Field.defaultValue_eq_ok_iff.mp valued).2
  refine .message declared found (Option.eq_none_iff_forall_ne_some.mpr fun literal stated => ?_)
  simpa [DefaultForm.read?] using readable literal stated

end Field.Fits

theorem TypeImage.fits {known : List MessageId} {type : FieldType} {rule : Rule}
    (typed : TypeImage catalog options known scope field.typeName type)
    (composed : field.rule scope.message.name type options = .ok rule) :
    field.Fits catalog scope := by
  obtain ⟨default, valued, _⟩ := Field.rule_eq_ok_iff.mp composed
  cases typed with
  | scalar named => exact .of_literal named valued
  | enum declared found => exact .of_member declared found valued
  | message declared found image => exact .of_forbidden declared found valued

theorem defaultValue_blames {reference : Reference catalog} {type : FieldType}
    {before after : Progress} {error : SchemaError}
    (typed : fieldType catalog reference scope field before = .ok (type, after))
    (refused : field.defaultValue scope.message.name type.defaultForm = .error error) :
    field.Blames catalog scope error := by
  obtain ⟨literal, stated, unread, rfl⟩ := Field.defaultValue_eq_error refused
  rcases fieldType_eq_ok typed with ⟨scalar, named, rfl, rfl⟩ | ⟨declared, meaning⟩
  · exact .unfitLiteral named stated unread
  · rcases meaning with ⟨enum, found, rfl, rfl⟩ | ⟨target, shape, found, _, rfl⟩
    · refine .unlistedMember declared found stated fun listed => ?_
      simp [DefaultForm.read?, listed] at unread
    · exact .messageDefault declared found stated

end

/-! ## Messages that are reached -/

/-- Whether fields lead to a message from a top-level one. -/
inductive Reachable (catalog : Catalog) : catalog.Listed → Prop where
  | root {root : catalog.Listed} (top : root ∈ catalog.topLevel) : Reachable catalog root
  | field {scope target : catalog.Listed} {field : Field} (reached : Reachable catalog scope)
      (listed : field ∈ scope.1.message.fields)
      (declared : Scalar.ofName? field.typeName = none)
      (found : catalog.referent scope.1 field.typeName = .message target) :
      Reachable catalog target

section

variable {catalog : Catalog} {options : Options}

/-- Whether some message that is reached has a field that the error blames. -/
def SchemaError.Justified (catalog : Catalog) (error : SchemaError) : Prop :=
  ∃ scope, Reachable catalog scope ∧
    ∃ field ∈ scope.1.message.fields, field.Blames catalog scope.1 error

theorem compileMessage_justified {active : List MessageId} {target : catalog.Listed}
    {fresh : active.contains target.1.id = false} {progress : Progress} {error : SchemaError}
    (reached : Reachable catalog target)
    (failed : compileMessage catalog options active target fresh progress = .error error) :
    error.Justified catalog := by
  induction active, target, fresh using Catalog.descent generalizing progress with
  | enter active target fresh inductionHypothesis =>
    obtain ⟨field, listed, progress, cause⟩ :=
      compileFields_eq_error (compileMessage_eq_error failed)
    -- The field itself is at fault, or the message that its type leads to.
    rcases cause with untyped | ⟨type, after, typed, refused⟩
    · obtain ⟨declared, ⟨missing, rfl⟩ | ⟨next, found, refused⟩⟩ := fieldType_eq_error untyped
      · exact ⟨target, reached, field, listed, .unknownType declared missing⟩
      · obtain ⟨entered, failed⟩ := compileReference_eq_error refused
        exact inductionHypothesis next entered (.field reached listed declared found) failed
    · exact ⟨target, reached, field, listed, defaultValue_blames typed refused⟩

theorem Catalog.compile_justified {error : SchemaError}
    (failed : catalog.compile options = .error error) : error.Justified catalog := by
  rw [Catalog.compile] at failed
  split at failed
  next refused =>
    cases failed
    obtain ⟨root, top, progress, failed⟩ := compileRoots_eq_error refused
    exact compileMessage_justified (.root top) failed
  next => cases failed

/-- Once a catalog is compiled, every message that is reached has an image.  A reference
    that was cut leads to one through the definitions. -/
theorem Reachable.image {rules : List RecordRule} {definitions : Definitions}
    (compiled : catalog.compile options = .ok (rules, definitions))
    (identified : catalog.Identified) {target : catalog.Listed}
    (reached : Reachable catalog target) :
    ∃ rule, RecordImage catalog options (definitions.map Prod.fst) rule target := by
  obtain ⟨sound, images⟩ := Catalog.compile_image compiled
  induction reached with
  | root top =>
    obtain ⟨rule, _, image⟩ := forall₂_left_of_mem images top
    exact ⟨rule, image⟩
  | field _ listed declared found inductionHypothesis =>
    obtain ⟨_, image⟩ := inductionHypothesis
    obtain ⟨rule, type, _, typed, _⟩ := image.of_field listed
    cases typed with
    | scalar named =>
      rw [declared] at named
      cases named
    | enum _ other =>
      rw [found] at other
      cases other
    | message _ other image =>
      cases found.symm.trans other
      -- The reference was entered, or it was cut and its target is defined.
      obtain ⟨rule, _, image⟩ := image.meaning sound identified
      exact ⟨rule, image⟩

theorem Catalog.compile_fits {rules : List RecordRule} {definitions : Definitions}
    (compiled : catalog.compile options = .ok (rules, definitions))
    (identified : catalog.Identified) {scope : catalog.Listed}
    (reached : Reachable catalog scope) :
    ∀ field ∈ scope.1.message.fields, field.Fits catalog scope.1 := by
  intro field listed
  obtain ⟨_, image⟩ := reached.image compiled identified
  obtain ⟨rule, type, _, typed, composed⟩ := image.of_field listed
  exact typed.fits composed

end

namespace Schema

def Fits (schema : Schema) : Prop :=
  ∀ scope, Reachable (Catalog.ofSchema schema) scope →
    ∀ field ∈ scope.1.message.fields, field.Fits (Catalog.ofSchema schema) scope.1

theorem fits_of_compile {schema : Schema} {options : Options} {registry : Registry}
    (compiled : schema.compile options = .ok registry) : schema.Fits := by
  obtain ⟨_, _, rules, definitions, succeeded, _⟩ := compile_eq_ok_iff.mp compiled
  exact fun scope reached =>
    Catalog.compile_fits succeeded (Catalog.ofSchema_identified schema) reached

theorem compile_of_fits {schema : Schema} (names : schema.checkNames = .ok ())
    (scopes : schema.checkScopes = .ok ()) (fits : schema.Fits) (options : Options) :
    ∃ registry, schema.compile options = .ok registry := by
  cases compiled : (Catalog.ofSchema schema).compile options with
  | ok result =>
    exact ⟨_, compile_eq_ok_iff.mpr ⟨names, scopes, _, _, compiled, rfl⟩⟩
  | error error =>
    obtain ⟨scope, reached, field, listed, blamed⟩ := Catalog.compile_justified compiled
    exact absurd blamed ((fits scope reached field listed).not_blamed error)

/-- Whether a schema compiles does not depend on the options. -/
theorem compiles_of_compile {schema : Schema} {options : Options} {registry : Registry}
    (compiled : schema.compile options = .ok registry) (others : Options) :
    ∃ other, schema.compile others = .ok other := by
  obtain ⟨names, scopes, _⟩ := compile_eq_ok_iff.mp compiled
  exact compile_of_fits names scopes (fits_of_compile compiled) others

/-- A schema with distinct names compiles exactly if it fits, whatever the options, and else
    the error blames a field of a message that is reached. -/
theorem compile_ok_iff_fits (schema : Schema) (options : Options) :
    ((∃ registry, schema.compile options = .ok registry) ↔
      schema.checkNames = .ok () ∧ schema.checkScopes = .ok () ∧ schema.Fits) ∧
    (schema.checkNames = .ok () → schema.checkScopes = .ok () → ¬ schema.Fits →
      ∃ error, schema.compile options = .error error ∧
        error.Justified (Catalog.ofSchema schema)) := by
  have identified := Catalog.ofSchema_identified schema
  constructor
  · constructor
    · rintro ⟨registry, compiled⟩
      obtain ⟨names, scopes, rules, definitions, succeeded, _⟩ := compile_eq_ok_iff.mp compiled
      exact ⟨names, scopes, fun scope reached => Catalog.compile_fits succeeded identified reached⟩
    · rintro ⟨names, scopes, fits⟩
      exact compile_of_fits names scopes fits options
  · intro names scopes unfit
    cases compiled : (Catalog.ofSchema schema).compile options with
    | ok result =>
      refine absurd (fun scope reached => ?_) unfit
      exact Catalog.compile_fits compiled identified reached
    | error error =>
      refine ⟨error, ?_, Catalog.compile_justified compiled⟩
      rw [Schema.compile, names, scopes, compiled]
      rfl

/-- The address of a person is declared nowhere. -/
def homeless : Schema where
  messages := [
    { name := "Account", fields := [{ name := "owner", typeName := "Person" }] },
    { name := "Person"
      fields := [
        { name := "accounts", typeName := "Account", repeated := true },
        { name := "home", typeName := "Address" }] }]

theorem homeless_unfit :
    ¬ homeless.Fits ∧ homeless.compile {} = .error (.unknownType "Person" "home" "Address") ∧
      SchemaError.Justified (Catalog.ofSchema homeless) (.unknownType "Person" "home" "Address") := by
  have names : homeless.checkNames = .ok () := by decide +kernel
  have scopes : homeless.checkScopes = .ok () := by decide +kernel
  have reported : (homeless.compile {}).map (fun _ => ()) =
      .error (.unknownType "Person" "home" "Address") := by decide +kernel
  have failed := map_eq_error_iff.mp reported
  obtain ⟨succeeds, fails⟩ := compile_ok_iff_fits homeless {}
  have unfit : ¬ homeless.Fits := by
    intro fits
    obtain ⟨registry, compiled⟩ := succeeds.mpr ⟨names, scopes, fits⟩
    rw [failed] at compiled
    cases compiled
  obtain ⟨error, refused, justified⟩ := fails names scopes unfit
  cases failed.symm.trans refused
  exact ⟨unfit, failed, justified⟩

end Schema

end PayloadSchema
