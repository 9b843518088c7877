import PayloadSchema.Proofs.Interpretation.Steps
import PayloadSchema.Proofs.Json.Distinct

/-! # Defaults are values of their types

A literal that may stand as the default of a field is a value that the type of the field
accepts, and that it gives back as it is.  Nothing checks this when a default is filled in. -/

namespace PayloadSchema

theorem LiteralKind.integer?_nonneg {literal : String} {value : Int}
    (read : LiteralKind.integer? true literal = some value) : 0 ≤ value := by
  simp only [LiteralKind.integer?, if_true] at read
  split at read
  next => cases read
  next =>
    split at read
    next fits =>
      cases read
      exact Int.natCast_nonneg _
    next => cases read

theorem Scalar.fault?_of_read? (scalar : Scalar) {literal : String} {value : Json}
    (read : scalar.literalKind.read? literal = some value) : scalar.fault? value = none := by
  cases scalar with
  | bool | bytes | string | map =>
    cases read
    rfl
  | float | double =>
    simp only [literalKind, LiteralKind.read?, Option.bind_eq_bind, Option.bind_eq_some_iff] at read
    obtain ⟨decimal, _, number, _, same⟩ := read
    cases same
    rfl
  | uint32 | uint64 =>
    obtain ⟨number, written, rfl⟩ := Option.map_eq_some_iff.mp read
    have sign := LiteralKind.integer?_nonneg written
    simp [fault?, isUnsigned, Number.isIntegral, Number.isNegative, Int.not_lt.mpr sign]
  | int32 | sint32 | int64 | sint64 =>
    obtain ⟨number, _, rfl⟩ := Option.map_eq_some_iff.mp read
    rfl

theorem LiteralKind.read?_distinct {kind : LiteralKind} {literal : String} {value : Json}
    (read : kind.read? literal = some value) : value.Distinct := by
  cases kind with
  | truth =>
    cases read
    exact .bool _
  | number =>
    simp only [read?, Option.bind_eq_bind, Option.bind_eq_some_iff] at read
    obtain ⟨_, _, number, _, same⟩ := read
    cases same
    exact .num _
  | integer unsigned =>
    obtain ⟨number, _, rfl⟩ := Option.map_eq_some_iff.mp read
    exact .num _
  | text =>
    cases read
    exact .str _

namespace Catalog

variable {catalog : Catalog} {scope : Entry} {field : Field} {value : Json}

/-- Where a default comes from: it is a literal of a scalar type, or the name of an
    enumeration's value. -/
theorem default?_cases (stated : catalog.default? scope field = some value) :
    (∃ scalar literal, Scalar.ofName? field.typeName = some scalar ∧
      scalar.literalKind.read? literal = some value) ∨
    (Scalar.ofName? field.typeName = none ∧ ∃ enum text,
      catalog.referent scope field.typeName = .enum enum ∧ text ∈ enum.names ∧
      value = .str text) := by
  obtain ⟨literal, _, read⟩ := Option.bind_eq_some_iff.mp stated
  cases named : Scalar.ofName? field.typeName with
  | some scalar =>
    rw [named] at read
    exact .inl ⟨scalar, literal, rfl, read⟩
  | none =>
    refine .inr ⟨rfl, ?_⟩
    cases found : catalog.referent scope field.typeName with
    | enum enum =>
      simp only [named, found] at read
      split at read
      next listed => exact ⟨enum, literal, rfl, listed, (Option.some.inj read).symm⟩
      next => cases read
    | message target => simp [named, found] at read
    | nothing => simp [named, found] at read

theorem interpret_default (stated : catalog.default? scope field = some value)
    (options : Options) (path : Path) :
    catalog.interpret options scope field.typeName path value = .ok value := by
  rw [interpret_eq_ok_iff]
  rcases default?_cases stated with ⟨scalar, literal, named, read⟩ |
    ⟨declared, enum, text, found, listed, rfl⟩
  · exact .inl ⟨scalar, named, scalar.fault?_of_read? read, rfl⟩
  · exact .inr ⟨declared, .inl ⟨enum, found, by simp [EnumType.fault?, listed], rfl⟩⟩

theorem default?_distinct (stated : catalog.default? scope field = some value) :
    value.Distinct := by
  rcases default?_cases stated with ⟨scalar, literal, _, read⟩ | ⟨_, enum, text, _, _, rfl⟩
  · exact LiteralKind.read?_distinct read
  · exact .str text

end Catalog

end PayloadSchema
