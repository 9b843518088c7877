import PayloadSchema.Json.Basic

/-! # Equality of values can be decided

Two values are compared part by part, the keys of objects in their order, so that what a
validation gives can be held against a value that is written out. -/

namespace PayloadSchema.Json

mutual

/-- Whether two values are one and the same, the order of keys included. -/
def same : Json → Json → Bool
  | .null, .null => true
  | .bool a, .bool b => a = b
  | .num a, .num b => a = b
  | .str a, .str b => a = b
  | .arr a, .arr b => sameItems a b
  | .obj a, .obj b => sameMembers a b
  | _, _ => false

def sameItems : List Json → List Json → Bool
  | [], [] => true
  | a :: as, b :: bs => same a b && sameItems as bs
  | _, _ => false

def sameMembers : Members → Members → Bool
  | [], [] => true
  | (key, a) :: as, (other, b) :: bs => key = other && same a b && sameMembers as bs
  | _, _ => false

end

mutual

theorem same_iff : ∀ a b : Json, same a b = true ↔ a = b
  | .arr as, .arr bs => by simp [same, sameItems_iff as bs]
  | .obj as, .obj bs => by simp [same, sameMembers_iff as bs]
  | .null, b | .bool _, b | .num _, b | .str _, b => by cases b <;> simp [same]
  | .arr _, .null | .arr _, .bool _ | .arr _, .num _ | .arr _, .str _ | .arr _, .obj _
  | .obj _, .null | .obj _, .bool _ | .obj _, .num _ | .obj _, .str _ | .obj _, .arr _ => by
    simp [same]

theorem sameItems_iff : ∀ as bs : List Json, sameItems as bs = true ↔ as = bs
  | [], [] | [], _ :: _ | _ :: _, [] => by simp [sameItems]
  | a :: as, b :: bs => by simp [sameItems, same_iff a b, sameItems_iff as bs]

theorem sameMembers_iff : ∀ as bs : Members, sameMembers as bs = true ↔ as = bs
  | [], [] | [], _ :: _ | _ :: _, [] => by simp [sameMembers]
  | (key, a) :: as, (other, b) :: bs => by
    simp [sameMembers, same_iff a b, sameMembers_iff as bs]

end

instance : DecidableEq Json := fun a b => decidable_of_iff _ (same_iff a b)

end PayloadSchema.Json
