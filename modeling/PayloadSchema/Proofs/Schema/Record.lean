import Mathlib.Data.List.Forall2
import Mathlib.Data.List.Nodup
import Mathlib.Data.List.Perm.Basic
import PayloadSchema.Schema.Reading

/-! # Records written as objects

An object writes a record if it holds the parts of the record, each under one of its names
unless it is left out, in any order and among entries with other keys.  Reading the parts
of such an object gives them back in declared order. -/

namespace PayloadSchema.Document

/-- Whether entries are the parts of a record in declared order, each under one of its names
    or left out. -/
inductive Laid : Keys → List (Option Document) → Entries → Prop where
  | done : Laid [] [] []
  | leftOut {names : List String} {keys : Keys} {parts : List (Option Document)}
      {entries : Entries} (rest : Laid keys parts entries) :
      Laid (names :: keys) (none :: parts) entries
  | written {names : List String} {keys : Keys} {parts : List (Option Document)}
      {entries : Entries} {key : String} {document : Document} (named : key ∈ names)
      (rest : Laid keys parts entries) :
      Laid (names :: keys) (some document :: parts) ((some key, document) :: entries)

/-- Whether a document is an object that writes the parts of a record.  Entries with keys that
    the record does not know may hold anything. -/
inductive Record (keys : Keys) (parts : List (Option Document)) : Document → Prop where
  | intro {entries known others : Entries} (laid : Laid keys parts known)
      (foreign : ∀ entry ∈ others, ∃ key, entry.1 = some key ∧ key ∉ keys.flatten)
      (order : entries.Perm (known ++ others)) : Record keys parts (.object entries)

theorem holding_append (first second : Entries) (names : List String) :
    holding (first ++ second) names = holding first names ++ holding second names :=
  List.filterMap_append

theorem holding_cons_of_mem {key : String} {names : List String} (named : key ∈ names)
    (document : Document) (rest : Entries) :
    holding ((some key, document) :: rest) names = document :: holding rest names := by
  simp [holding, named]

theorem holding_cons_of_notMem {key : String} {names : List String} (unnamed : key ∉ names)
    (document : Document) (rest : Entries) :
    holding ((some key, document) :: rest) names = holding rest names := by
  simp [holding, unnamed]

theorem holding_eq_nil {entries : Entries} {names : List String}
    (foreign : ∀ entry ∈ entries, ∃ key, entry.1 = some key ∧ key ∉ names) :
    holding entries names = [] := by
  apply List.filterMap_eq_nil_iff.mpr
  intro entry listed
  obtain ⟨key, same, unnamed⟩ := foreign entry listed
  simp [same, unnamed]

namespace Laid

variable {keys : Keys} {parts : List (Option Document)} {entries : Entries}

theorem keys_known (laid : Laid keys parts entries) :
    ∀ entry ∈ entries, ∃ key, entry.1 = some key ∧ key ∈ keys.flatten := by
  induction laid with
  | done => simp
  | leftOut _ inductionHypothesis =>
    intro entry listed
    obtain ⟨key, same, known⟩ := inductionHypothesis entry listed
    exact ⟨key, same, List.mem_append_right _ known⟩
  | @written names keys parts entries key document named _ inductionHypothesis =>
    intro entry listed
    cases listed with
    | head => exact ⟨key, rfl, List.mem_append_left _ named⟩
    | tail _ later =>
      obtain ⟨key, same, known⟩ := inductionHypothesis entry later
      exact ⟨key, same, List.mem_append_right _ known⟩

theorem holding_eq_nil_of_disjoint {names : List String} (laid : Laid keys parts entries)
    (apart : names.Disjoint keys.flatten) : holding entries names = [] := by
  apply Document.holding_eq_nil
  intro entry listed
  obtain ⟨key, same, known⟩ := laid.keys_known entry listed
  exact ⟨key, same, fun named => apart named known⟩

theorem holding_eq {whole : Entries} (laid : Laid keys parts entries)
    (distinct : keys.flatten.Nodup)
    (alike : ∀ names ∈ keys, (holding whole names).Perm (holding entries names)) :
    List.Forall₂ (fun names part => holding whole names = Option.toList part) keys parts := by
  induction laid with
  | done => exact .nil
  | leftOut rest inductionHypothesis =>
    obtain ⟨_, later, apart⟩ := List.nodup_append'.mp distinct
    obtain ⟨first, others⟩ := List.forall_mem_cons.mp alike
    rw [rest.holding_eq_nil_of_disjoint apart] at first
    exact .cons first.eq_nil (inductionHypothesis later others)
  | @written names keys parts entries key document named rest inductionHypothesis =>
    obtain ⟨_, later, apart⟩ := List.nodup_append'.mp distinct
    obtain ⟨first, others⟩ := List.forall_mem_cons.mp alike
    rw [holding_cons_of_mem named, rest.holding_eq_nil_of_disjoint apart] at first
    refine .cons (List.perm_singleton.mp first) (inductionHypothesis later ?_)
    intro names' listed
    have unnamed : key ∉ names' := fun again =>
      apart named (List.mem_flatten_of_mem listed again)
    rw [← holding_cons_of_notMem unnamed document entries]
    exact others names' listed

end Laid

theorem mapM_eq_some_of_forall₂ {α β : Type} {read : α → Option β} {list : List α}
    {values : List β} (each : List.Forall₂ (fun item value => read item = some value) list values) :
    list.mapM read = some values := by
  induction each with
  | nil => rfl
  | cons first _ inductionHypothesis => simp [List.mapM_cons, first, inductionHypothesis]

theorem atMostOne?_toList (part : Option Document) : atMostOne? part.toList = some part := by
  cases part <;> rfl

namespace Record

variable {keys : Keys} {parts : List (Option Document)}

theorem isObject {document : Document} (record : Record keys parts document) :
    ∃ entries, document = .object entries := by
  cases record with
  | intro => exact ⟨_, rfl⟩

theorem named {entries : Entries} (record : Record keys parts (.object entries)) :
    ∀ entry ∈ entries, entry.1.isSome = true := by
  cases record with
  | intro laid foreign order =>
    intro entry listed
    cases List.mem_append.mp (order.mem_iff.mp listed) with
    | inl known =>
      obtain ⟨key, same, _⟩ := laid.keys_known entry known
      simp [same]
    | inr other =>
      obtain ⟨key, same, _⟩ := foreign entry other
      simp [same]

theorem holding_eq {entries : Entries} (record : Record keys parts (.object entries))
    (distinct : keys.flatten.Nodup) :
    List.Forall₂ (fun names part => holding entries names = Option.toList part) keys parts := by
  cases record with
  | @intro _ known others laid foreign order =>
    refine laid.holding_eq distinct fun names listed => ?_
    have nothing : holding others names = [] := by
      apply holding_eq_nil
      intro entry other
      obtain ⟨key, same, unknown⟩ := foreign entry other
      exact ⟨key, same, fun named => unknown (List.mem_flatten_of_mem listed named)⟩
    have gathered : (holding entries names).Perm (holding (known ++ others) names) :=
      order.filterMap _
    rwa [holding_append, nothing, List.append_nil] at gathered

/-- The parts of a record are read back. -/
theorem parts?_eq {document : Document} (record : Record keys parts document)
    (distinct : keys.flatten.Nodup) : parts? keys document = some parts := by
  obtain ⟨entries, rfl⟩ := record.isObject
  rw [parts?, if_pos (List.all_eq_true.mpr record.named)]
  apply mapM_eq_some_of_forall₂
  exact (record.holding_eq distinct).imp fun names part held => by rw [held, atMostOne?_toList]

end Record

end PayloadSchema.Document
