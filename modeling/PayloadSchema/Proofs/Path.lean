import PayloadSchema.Proofs.Number.Digits
import PayloadSchema.Violation

/-! # Rendered paths

A path can be told from its text, provided that the keys on it are not empty and contain neither a
point nor an opening bracket.  These two characters then mark where a step begins, so that one text
has one way to be split into steps, and the mark says of which kind each step is. -/

namespace PayloadSchema

/-- A text has one split into a run without marks and a rest that a mark begins, if anything. -/
theorem run_unique {isMark : Char → Bool} {run other rest further : List Char}
    (unmarked : ∀ c ∈ run, isMark c = false) (plain : ∀ c ∈ other, isMark c = false)
    (marked : ∀ c, rest.head? = some c → isMark c = true)
    (begun : ∀ c, further.head? = some c → isMark c = true)
    (same : run ++ rest = other ++ further) : run = other ∧ rest = further := by
  induction run generalizing other with
  | nil =>
    cases other with
    | nil => exact ⟨rfl, same⟩
    | cons c _ =>
      have clash := marked c (by rw [← List.nil_append rest, same]; rfl)
      rw [plain c List.mem_cons_self] at clash
      cases clash
  | cons c run inductionHypothesis =>
    cases other with
    | nil =>
      have clash := begun c (by rw [← List.nil_append further, ← same]; rfl)
      rw [unmarked c List.mem_cons_self] at clash
      cases clash
    | cons d other =>
      obtain ⟨rfl, later⟩ := List.cons.inj same
      obtain ⟨rfl, ends⟩ := inductionHypothesis (fun c listed => unmarked c (.tail _ listed))
        (fun c listed => plain c (.tail _ listed)) later
      exact ⟨rfl, ends⟩

namespace Path

def isMark (c : Char) : Bool := c = '.' || c = '['

/-- Whether the keys on a path are not empty and contain no mark. -/
def Legible (path : Path) : Prop :=
  ∀ name, .field name ∈ path → name ≠ "" ∧ '.' ∉ name.toList ∧ '[' ∉ name.toList

def letters (path : Path) : List Char := path.flatMap fun step => (follow step).toList

theorem follow_field_toList (name : String) :
    (follow (.field name)).toList = '.' :: name.toList := by
  show ("." ++ name).toList = _
  rw [String.toList_append]
  rfl

theorem follow_index_toList (position : Nat) :
    (follow (.index position)).toList = '[' :: (Nat.toDigits 10 position ++ [']']) := by
  have digits : (toString position).toList = Nat.toDigits 10 position := by
    rw [Nat.toString_eq_ofList_toDigits, String.toList_ofList]
  show ("[" ++ toString position ++ "]").toList = _
  rw [String.toList_append, String.toList_append, digits]
  rfl

theorem letters_field (name : String) (rest : Path) :
    letters (.field name :: rest) = '.' :: (name.toList ++ letters rest) := by
  rw [letters, List.flatMap_cons, follow_field_toList]
  rfl

theorem letters_index (position : Nat) (rest : Path) :
    letters (.index position :: rest) =
      '[' :: (Nat.toDigits 10 position ++ ']' :: letters rest) := by
  rw [letters, List.flatMap_cons, follow_index_toList, List.cons_append, List.append_assoc]
  rfl

theorem letters_ne_nil (step : Step) (rest : Path) : letters (step :: rest) ≠ [] := by
  cases step with
  | field name => rw [letters_field]; exact List.cons_ne_nil _ _
  | index position => rw [letters_index]; exact List.cons_ne_nil _ _

theorem isMark_of_head? {path : Path} {c : Char} (first : path.letters.head? = some c) :
    isMark c = true := by
  cases path with
  | nil => cases first
  | cons step rest =>
    cases step with
    | field name =>
      rw [letters_field] at first
      cases first
      rfl
    | index position =>
      rw [letters_index] at first
      cases first
      rfl

theorem render_field_toList (name : String) (rest : Path) :
    (render (.field name :: rest)).toList = name.toList ++ letters rest := by
  rw [render, String.toList_append, String.toList_join, List.flatMap_map, letters]

theorem render_index_toList (position : Nat) (rest : Path) :
    (render (.index position :: rest)).toList = letters (.index position :: rest) := by
  rw [render, String.toList_append, String.toList_join, List.flatMap_map, letters,
    List.flatMap_cons]

namespace Legible

variable {path other rest further : Path} {name key : String}

theorem tail {step : Step} (legible : Legible (step :: rest)) : Legible rest :=
  fun name listed => legible name (.tail _ listed)

theorem ne_empty (legible : Legible (.field name :: rest)) : name ≠ "" :=
  (legible name List.mem_cons_self).1

theorem not_isMark (legible : Legible (.field name :: rest)) :
    ∀ c ∈ name.toList, isMark c = false := by
  obtain ⟨_, point, bracket⟩ := legible name List.mem_cons_self
  intro c listed
  have noPoint : c ≠ '.' := fun same => point (same ▸ listed)
  have noBracket : c ≠ '[' := fun same => bracket (same ▸ listed)
  simp [isMark, noPoint, noBracket]

/-- A key and what follows it are told apart by the mark between them. -/
theorem field_unique (legible : Legible (.field name :: rest))
    (also : Legible (.field key :: further))
    (same : name.toList ++ letters rest = key.toList ++ letters further) :
    name = key ∧ letters rest = letters further := by
  obtain ⟨keys, ends⟩ := run_unique legible.not_isMark also.not_isMark
    (fun _ first => isMark_of_head? first) (fun _ first => isMark_of_head? first) same
  exact ⟨String.toList_injective keys, ends⟩

end Legible

theorem index_unique {position place : Nat} {rest further : List Char}
    (same : Nat.toDigits 10 position ++ ']' :: rest = Nat.toDigits 10 place ++ ']' :: further) :
    position = place ∧ rest = further := by
  have digit : ∀ n, ∀ c ∈ Nat.toDigits 10 n, (!c.isDigit) = false := fun n c listed => by
    rw [isDigit_toDigits n c listed]
    rfl
  have closed : ∀ rest c, (']' :: rest).head? = some c → (!c.isDigit) = true := by
    rintro rest _ ⟨⟩
    rfl
  obtain ⟨digits, ends⟩ :=
    run_unique (digit position) (digit place) (closed rest) (closed further) same
  have value := congrArg Decimal.digitsValue digits
  rw [digitsValue_toDigits, digitsValue_toDigits] at value
  exact ⟨value, (List.cons.inj ends).2⟩

/-- Steps that follow others are told from their letters.  The induction is on the steps: the mark
    says of which kind the first one is, and the next mark or the closing bracket ends it. -/
theorem letters_injective {path other : Path} (legible : path.Legible) (also : other.Legible)
    (same : path.letters = other.letters) : path = other := by
  induction path generalizing other with
  | nil =>
    cases other with
    | nil => rfl
    | cons next further => exact absurd same.symm (letters_ne_nil next further)
  | cons step rest inductionHypothesis =>
    cases other with
    | nil => exact absurd same (letters_ne_nil step rest)
    | cons next further =>
      cases step with
      | field name =>
        rw [letters_field] at same
        cases next with
        | field key =>
          rw [letters_field] at same
          obtain ⟨rfl, ends⟩ := legible.field_unique also (List.cons.inj same).2
          rw [inductionHypothesis legible.tail also.tail ends]
        | index place =>
          rw [letters_index] at same
          exact absurd (List.cons.inj same).1 (by decide)
      | index position =>
        rw [letters_index] at same
        cases next with
        | field key =>
          rw [letters_field] at same
          exact absurd (List.cons.inj same).1 (by decide)
        | index place =>
          rw [letters_index] at same
          obtain ⟨rfl, ends⟩ := index_unique (List.cons.inj same).2
          rw [inductionHypothesis legible.tail also.tail ends]

theorem Legible.field_ne_index {name : String} {rest further : Path} {position : Nat}
    (legible : Legible (.field name :: rest)) :
    (render (.field name :: rest)).toList ≠ (render (.index position :: further)).toList := by
  intro same
  rw [render_field_toList, render_index_toList, letters_index] at same
  cases letters : name.toList with
  | nil => exact legible.ne_empty (String.toList_eq_nil_iff.mp letters)
  | cons c more =>
    rw [letters] at same
    have mark := legible.not_isMark c (by rw [letters]; exact List.mem_cons_self)
    rw [(List.cons.inj same).1] at mark
    cases mark

theorem Legible.render_eq_empty_iff {path : Path} (legible : path.Legible) :
    path.render = "" ↔ path = [] := by
  rw [← String.toList_eq_nil_iff]
  cases path with
  | nil => exact iff_of_true rfl rfl
  | cons step rest =>
    refine iff_of_false (fun empty => ?_) (List.cons_ne_nil _ _)
    cases step with
    | field name =>
      rw [render_field_toList, List.append_eq_nil_iff] at empty
      exact legible.ne_empty (String.toList_eq_nil_iff.mp empty.1)
    | index position =>
      rw [render_index_toList] at empty
      exact letters_ne_nil _ rest empty

/-- Two paths whose keys are not empty and contain no mark have one text only if they are the same
    path, and only the root has the empty text. -/
theorem render_unambiguous {path other : Path} (legible : path.Legible) (also : other.Legible) :
    (path.render = other.render ↔ path = other) ∧ (path.render = "" ↔ path = []) := by
  refine ⟨⟨fun same => ?_, fun same => same ▸ rfl⟩, legible.render_eq_empty_iff⟩
  cases path with
  | nil => exact (also.render_eq_empty_iff.mp same.symm).symm
  | cons step rest =>
    cases other with
    | nil => exact legible.render_eq_empty_iff.mp same
    | cons next further =>
      replace same := congrArg String.toList same
      cases step with
      | field name =>
        cases next with
        | field key =>
          rw [render_field_toList, render_field_toList] at same
          obtain ⟨rfl, ends⟩ := legible.field_unique also same
          rw [letters_injective legible.tail also.tail ends]
        | index place => exact absurd same legible.field_ne_index
      | index position =>
        cases next with
        | field key => exact absurd same.symm also.field_ne_index
        | index place =>
          rw [render_index_toList, render_index_toList] at same
          exact letters_injective legible also same

/-- A key that looks like a position is told from that position, also behind another one. -/
theorem numbered_unambiguous :
    let named : Path := [.field "list", .index 1, .field "0"]
    let placed : Path := [.field "list", .index 1, .index 0]
    named.Legible ∧ placed.Legible ∧ named.render = "list[1].0" ∧ placed.render = "list[1][0]" ∧
      named.render ≠ placed.render ∧ named.render ≠ "" := by
  have named : Legible [.field "list", .index 1, .field "0"] := by
    intro name listed
    simp only [List.mem_cons, Step.field.injEq, reduceCtorEq, List.not_mem_nil, or_false,
      false_or] at listed
    rcases listed with rfl | rfl <;> decide
  have placed : Legible [.field "list", .index 1, .index 0] := by
    intro name listed
    simp only [List.mem_cons, Step.field.injEq, reduceCtorEq, List.not_mem_nil, or_false] at listed
    subst listed
    decide
  obtain ⟨same, root⟩ := render_unambiguous named placed
  exact ⟨named, placed, by decide, by decide, fun equal => absurd (same.mp equal) (by decide),
    fun empty => absurd (root.mp empty) (by decide)⟩

/-- A point inside a key is not told from one between two keys. -/
example : render [.field "a.b"] = render [.field "a", .field "b"] := by decide

end Path

end PayloadSchema
