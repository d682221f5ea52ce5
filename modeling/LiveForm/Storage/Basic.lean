/-!
# Storage

Where the texts of documents are kept, under paths. A storage can be a table in memory or the files of a
disk. `Storage.Lawful` says what can be relied on: what has been written is read.
-/

set_option autoImplicit false

namespace LiveForm

/-- Why a text cannot be read or written. -/
inductive StorageFault where
  /-- There is nothing at the path. -/
  | missing
  /-- What is at the path, or on the way to it, is of the wrong kind. -/
  | unusable
deriving DecidableEq, Repr

/-- A kind of storage. -/
class Storage (σ : Type) where
  /-- Whether there is anything at a path. -/
  holds : σ → String → Bool
  /-- The text at a path. -/
  read : σ → String → Except StorageFault String
  /-- Puts a text at a path in place of what is there. -/
  write : String → String → EStateM StorageFault σ Unit

/-- A storage that keeps what is written to it. -/
class Storage.Lawful (σ : Type) [Storage σ] : Prop where
  holds_of_write {path text : String} {s s' : σ} :
    write path text s = .ok () s' → holds s' path = true
  read_of_write {path text : String} {s s' : σ} :
    write path text s = .ok () s' → read s' path = .ok text

end LiveForm
