import PayloadSchema.Proofs.Interpretation.Agreement
import PayloadSchema.Proofs.Interpretation.Simulation
import PayloadSchema.Proofs.Schema.Rearrangement
import PayloadSchema.Proofs.Schema.Referent

/-! # The order of declarations does not matter

The order in which types are declared decides which message gets which identity, which is
compiled first and where cycles are cut.  None of it can be seen from outside: messages that
are the same up to that order have the same fields, whose types lead to messages that are the
same up to that order again. -/

namespace PayloadSchema

theorem rel_or {α β : Type} {related : α → β → Prop} {first second : Option α}
    {third fourth : Option β} (own : Option.Rel related first third)
    (other : Option.Rel related second fourth) :
    Option.Rel related (first.or second) (third.or fourth) := by
  cases own with
  | some pair => exact .some pair
  | none => exact other

namespace Schema.Rearranged

variable {first second : Schema} (rearranged : first.Rearranged second)
  (scopes : first.checkScopes = .ok ())

/-- Whether messages of two schemas are the same up to the order of declarations. -/
abbrev Alike (source : (Catalog.ofSchema first).Listed) (image : (Catalog.ofSchema second).Listed) :
    Prop :=
  source.1.message.Rearranged image.1.message

theorem rel_alike {source : Option (Catalog.ofSchema first).Listed}
    {image : Option (Catalog.ofSchema second).Listed}
    (rel : Option.Rel Message.Rearranged (source.map fun target => target.1.message)
      (image.map fun target => target.1.message)) : Option.Rel Alike source image := by
  cases source with
  | none =>
    cases image with
    | none => exact .none
    | some target => cases rel
  | some target =>
    cases image with
    | none => cases rel
    | some other =>
      cases rel with
      | some alike => exact .some alike

include rearranged scopes

theorem enumSeen?_eq {source : (Catalog.ofSchema first).Listed}
    {image : (Catalog.ofSchema second).Listed} (pair : Alike source image) (name : String) :
    (Catalog.ofSchema first).enumSeen? source.1 name =
      (Catalog.ofSchema second).enumSeen? image.1 name := by
  have own := (typesDistinct_of_checkScopes scopes source.1 source.2).enums
  have shared := (checkScopes_eq_ok_iff.mp scopes).1
  exact congrArg₂ Option.or (enumIn?_perm pair.enums own name)
    (enumIn?_perm rearranged.enums shared name)

theorem messageSeen?_rel {source : (Catalog.ofSchema first).Listed}
    {image : (Catalog.ofSchema second).Listed} (pair : Alike source image) (name : String) :
    Option.Rel Alike ((Catalog.ofSchema first).messageSeen? source.1 name)
      ((Catalog.ofSchema second).messageSeen? image.1 name) := by
  have own := pair.messages.find?
    (typesDistinct_of_checkScopes scopes source.1 source.2).messages name
  have shared := rearranged.messages.find? (checkScopes_eq_ok_iff.mp scopes).2.1 name
  rw [← Catalog.messageIn?_nested source.2, ← Catalog.messageIn?_nested image.2] at own
  rw [← Catalog.messageIn?_top, ← Catalog.messageIn?_top] at shared
  exact rel_or (rel_alike own) (rel_alike shared)

theorem simulates : (Catalog.ofSchema first).Simulates (Catalog.ofSchema second) Alike := by
  constructor
  · intro source image pair
    exact pair.fields_eq
  · intro source image pair field _ _
    rw [Catalog.referent_eq, Catalog.referent_eq, rearranged.enumSeen?_eq scopes pair]
    cases (Catalog.ofSchema second).enumSeen? image.1 field.typeName with
    | some enum => exact .enum enum
    | none =>
      have seen := rearranged.messageSeen?_rel scopes pair field.typeName
      generalize (Catalog.ofSchema first).messageSeen? source.1 field.typeName = before at seen
      generalize (Catalog.ofSchema second).messageSeen? image.1 field.typeName = after at seen
      cases seen with
      | some target => exact .message target
      | none => exact .nothing

omit scopes in
theorem exists_root {image : (Catalog.ofSchema second).Listed}
    (top : image ∈ (Catalog.ofSchema second).topLevel) :
    ∃ source ∈ (Catalog.ofSchema first).topLevel, Alike source image := by
  have listed := List.mem_map_of_mem (f := fun root => root.1.message) top
  rw [Catalog.topLevel_messages] at listed
  obtain ⟨message, found, alike⟩ := rearranged.messages.symm.exists_of_mem _ listed
  rw [← Catalog.topLevel_messages] at found
  obtain ⟨source, known, rfl⟩ := List.mem_map.mp found
  exact ⟨source, known, alike.symm⟩

theorem fits (fits : first.Fits) : second.Fits := by
  intro image reached field listed
  have alike := rearranged.simulates scopes
  obtain ⟨source, known, pair⟩ :=
    alike.exists_reachable (fun _ top => rearranged.exists_root top) reached
  rw [← pair.fields_eq] at listed
  exact alike.fits pair listed (fits source known field listed)

end Schema.Rearranged

namespace Schema

variable {first second : Schema} {options : Options} {registry other : Registry}

theorem Rearranged.compiles (rearranged : first.Rearranged second)
    (compiled : first.compile options = .ok registry) :
    ∃ other, second.compile options = .ok other := by
  obtain ⟨names, scopes, _⟩ := compile_eq_ok_iff.mp compiled
  exact compile_of_fits (rearranged.checkNames names) (rearranged.checkScopes scopes)
    (rearranged.fits scopes (fits_of_compile compiled)) options

theorem Rearranged.names_eq (rearranged : first.Rearranged second)
    (compiled : first.compile options = .ok registry)
    (recompiled : second.compile options = .ok other) : other.names = registry.names := by
  obtain ⟨inOrder, members⟩ := compile_names compiled
  obtain ⟨alsoInOrder, others⟩ := compile_names recompiled
  -- Names in order are determined by which they are.
  have same : other.names.Perm registry.names := by
    rw [List.perm_ext_iff_of_nodup (Registry.nodup_of_pairwise alsoInOrder)
      (Registry.nodup_of_pairwise inOrder)]
    intro name
    rw [others, members, rearranged.messages.names.mem_iff]
  exact same.eq_of_pairwise (fun _ _ _ _ before after => (String.lt_asymm before after).elim)
    alsoInOrder inOrder

/-- Schemas that differ in the order of declarations only compile alike, and then their
    registries have the same names and validate every payload the same. -/
theorem compile_rearranged (rearranged : first.Rearranged second) (options : Options) :
    ((∃ registry, first.compile options = .ok registry) ↔
      ∃ registry, second.compile options = .ok registry) ∧
    ∀ registry other, first.compile options = .ok registry → second.compile options = .ok other →
      other.names = registry.names ∧
      ∀ name payload, other.validate name payload = registry.validate name payload := by
  constructor
  · constructor
    · rintro ⟨registry, compiled⟩
      exact rearranged.compiles compiled
    · rintro ⟨registry, compiled⟩
      exact rearranged.symm.compiles compiled
  · intro registry other compiled recompiled
    have names := rearranged.names_eq compiled recompiled
    refine ⟨names, fun name payload => ?_⟩
    by_cases listed : name ∈ other.names
    · rw [(compile_names recompiled).2, ← Catalog.topLevel_messages, List.map_map] at listed
      obtain ⟨image, top, rfl⟩ := List.mem_map.mp listed
      obtain ⟨source, known, pair⟩ := rearranged.exists_root top
      have scopes := (compile_eq_ok_iff.mp compiled).2.1
      have same : (Catalog.ofSchema first).interpretMessage options source.1 [] payload =
          (Catalog.ofSchema second).interpretMessage options image.1 [] payload :=
        (rearranged.simulates scopes).interpretMessage_eq pair [] payload
      calc other.validate image.1.message.name payload
          = ((Catalog.ofSchema second).interpretMessage options image.1 [] payload).mapError
              .invalid := validate_of_root recompiled top payload
        _ = ((Catalog.ofSchema first).interpretMessage options source.1 [] payload).mapError
              .invalid := by rw [same]
        _ = registry.validate source.1.message.name payload :=
            (validate_of_root compiled known payload).symm
        _ = registry.validate image.1.message.name payload := by rw [pair.name_eq]
    · rw [validate_of_unnamed listed, validate_of_unnamed (names ▸ listed)]

/-- Orders and customers lead to each other, and an order has types of its own. -/
def order (messages : List Message) (enums : List EnumType) : Message where
  name := "Order"
  fields := [
    { name := "customer", typeName := "Customer" },
    { name := "lines", typeName := "Line", repeated := true },
    { name := "parcel", typeName := "Parcel" },
    { name := "state", typeName := "State", default := some "OPEN" },
    { name := "sort", typeName := "Sort" }]
  messages := messages
  enums := enums

def line : Message where
  name := "Line"
  fields := [{ name := "count", typeName := "uint32", required := true }]

def parcel : Message where
  name := "Parcel"
  fields := [{ name := "weight", typeName := "double" }, { name := "unit", typeName := "Unit" }]

def customer : Message where
  name := "Customer"
  fields := [{ name := "orders", typeName := "Order", repeated := true }]

def state : EnumType where
  name := "State"
  entries := [⟨"OPEN", 0⟩, ⟨"SENT", 1⟩]

def unit : EnumType where
  name := "Unit"
  entries := [⟨"KG", 0⟩, ⟨"LB", 1⟩]

def sort : EnumType where
  name := "Sort"
  entries := [⟨"GIFT", 0⟩, ⟨"GOODS", 1⟩]

def shop : Schema where
  messages := [order [line, parcel] [state, sort], customer]
  enums := [unit]

/-- The same declarations in the reverse order, in the schema and inside the order. -/
def shopReversed : Schema where
  messages := [customer, order [parcel, line] [sort, state]]
  enums := [unit]

theorem shop_rearranged : shop.Rearranged shopReversed where
  messages :=
    have inside : (order [line, parcel] [state, sort]).Rearranged
        (order [parcel, line] [sort, state]) := .intro (.swap parcel line []) (.swap sort state [])
    .trans (.cons inside (.cons (.refl customer) .nil)) (.swap customer _ [])
  enums := .refl [unit]

/-- An order of a customer whose other order counts below zero and names an unknown unit. -/
def miscounted : Json :=
  .obj [("customer", .obj [("orders", .arr [.obj [
    ("lines", .arr [.obj [("count", .num (.int (-1)))]]),
    ("parcel", .obj [("unit", .str "T")])]])])]

theorem shop_reversed_validates :
    shop.Rearranged shopReversed ∧
    ∃ registry other, shop.compile {} = .ok registry ∧ shopReversed.compile {} = .ok other ∧
      other.names = ["Customer", "Order"] ∧ registry.names = ["Customer", "Order"] ∧
      other.validate "Order" miscounted = registry.validate "Order" miscounted := by
  obtain ⟨registry, compiled⟩ : ∃ registry, shop.compile {} = .ok registry :=
    exists_of_isOk (by decide +kernel)
  obtain ⟨compiles, agree⟩ := compile_rearranged shop_rearranged {}
  obtain ⟨other, recompiled⟩ := compiles.mp ⟨registry, compiled⟩
  obtain ⟨names, same⟩ := agree registry other compiled recompiled
  have listed : (shop.compile {}).toOption.map Registry.names = some ["Customer", "Order"] := by
    decide +kernel
  rw [compiled] at listed
  have inOrder : registry.names = ["Customer", "Order"] := Option.some.inj listed
  exact ⟨shop_rearranged, registry, other, compiled, recompiled, names.trans inOrder, inOrder,
    same "Order" miscounted⟩

end Schema

end PayloadSchema
