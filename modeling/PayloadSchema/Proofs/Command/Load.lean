import PayloadSchema.Command.Run

/-! # Loading the files of a command

What a path of the disk gives is a document that is read from a text.  A command that takes a
schema goes on with its registry, or ends because the schema is not given or does not compile. -/

namespace PayloadSchema

namespace Disk

variable {α : Type} {disk : Disk} {parse? : String → Option α} {path : String} {document : α}

/-- A path leads to a text that is read as a document. -/
def Gives (disk : Disk) (parse? : String → Option α) (path : String) (document : α) : Prop :=
  ∃ content, disk path = .text content ∧ parse? content = some document

/-- A path leads nowhere, or to something that is no text. -/
def Lacks (disk : Disk) (path : String) : Prop := disk path = .absent ∨ disk path = .unreadable

theorem load_eq_ok_iff :
    (disk path).load parse? path = .ok document ↔ disk.Gives parse? path document := by
  unfold Gives
  cases disk path with
  | text content => cases read : parse? content <;> simp [Stored.load, read]
  | _ => simp [Stored.load]

theorem load_eq_error {error : LoadError} (failed : (disk path).load parse? path = .error error) :
    disk.Lacks path ∧ error.exitStatus = 3 ∨ ¬ disk.Lacks path ∧ error.exitStatus = 2 := by
  unfold Lacks
  cases stored : disk path with
  | text content =>
    rw [stored, Stored.load] at failed
    split at failed <;> cases failed
    exact .inr ⟨by simp, rfl⟩
  | _ =>
    rw [stored] at failed
    cases failed
    exact .inl ⟨by simp, rfl⟩

theorem Gives.not_lacks (gives : disk.Gives parse? path document) : ¬ disk.Lacks path := by
  obtain ⟨content, stored, _⟩ := gives
  simp [Lacks, stored]

theorem Gives.unique {other : α} (gives : disk.Gives parse? path document)
    (gives' : disk.Gives parse? path other) : document = other :=
  Except.ok.inj ((load_eq_ok_iff.mpr gives).symm.trans (load_eq_ok_iff.mpr gives'))

end Disk

theorem ValidationError.exitStatus_ne_zero (error : ValidationError) : error.exitStatus ≠ 0 := by
  cases error with
  | load error => cases error <;> simp [exitStatus, LoadError.exitStatus]
  | _ => simp [exitStatus, SchemaError.exitStatus]

namespace Command

variable {disk : Disk}

theorem registry_eq_ok_iff {path : String} {options : Options} {made : Registry} :
    registry disk path options = .ok made ↔
      ∃ schema, disk.Gives Schema.parse? path schema ∧ schema.compile options = .ok made := by
  simp only [← Disk.load_eq_ok_iff, registry, Schema.load]
  cases (disk path).load Schema.parse? path with
  | error error => simp
  | ok schema => cases compiled : schema.compile options <;> simp [compiled]

theorem registry_eq_error {path : String} {options : Options} {error : ValidationError}
    (failed : registry disk path options = .error error) :
    disk.Lacks path ∧ error.exitStatus = 3 ∨ ¬ disk.Lacks path ∧ error.exitStatus = 2 := by
  rw [registry, Schema.load] at failed
  cases loaded : (disk path).load Schema.parse? path with
  | error cause =>
    rw [loaded] at failed
    cases failed
    exact Disk.load_eq_error loaded
  | ok schema =>
    rw [loaded] at failed
    dsimp only at failed
    split at failed <;> cases failed
    exact .inr ⟨(Disk.load_eq_ok_iff.mp loaded).not_lacks, rfl⟩

end Command

end PayloadSchema
