import LiveForm.Storage.Basic

/-!
# Storage in memory

Texts under paths, and nothing else: there are no folders, so a text can be put at every path. Two
paths are the same if they differ only in repeated or trailing slashes or in dots between slashes.
-/

set_option autoImplicit false

namespace LiveForm

/-- A path by its parts. -/
structure FileKey where
  /-- Whether a slash stands in front. -/
  rooted : Bool
  parts : List String
deriving DecidableEq, Repr

/-- The parts of a path. A dot counts only at the very start. -/
def FileKey.ofText (path : String) : FileKey :=
  let pieces := path.splitOn "/"
  ⟨path.startsWith "/",
    (if pieces.head? = some "." then ["."] else []) ++ pieces.filter fun p => p ≠ "" && p ≠ "."⟩

/-- A storage in memory. The text written last at a path stands in front of others. -/
structure Memory where
  files : List (FileKey × String) := []

namespace Memory

/-- The text at a path. -/
def get? (m : Memory) (path : String) : Option String :=
  m.files.lookup (FileKey.ofText path)

/-- The storage with a text at a path. -/
def put (m : Memory) (path text : String) : Memory :=
  let path := FileKey.ofText path
  ⟨(path, text) :: m.files.filter fun (other, _) => other ≠ path⟩

theorem get?_put (m : Memory) (path text : String) : (m.put path text).get? path = some text := by
  simp [get?, put]

instance : Storage Memory where
  holds m path := (m.get? path).isSome
  read m path :=
    match m.get? path with
    | some text => .ok text
    | none => .error .missing
  write path text := modify (put · path text)

instance : Storage.Lawful Memory where
  holds_of_write h := by
    cases h
    simp [Storage.holds, get?_put]
  read_of_write h := by
    cases h
    simp [Storage.read, get?_put]

end Memory

end LiveForm
