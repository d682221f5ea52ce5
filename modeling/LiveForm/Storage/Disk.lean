import LiveForm.Storage.Memory

/-!
# Storage on a disk

Files in folders. A path leads from folder to folder, two dots lead back, and writing a text makes the
folders on the way that are missing. Where a path leads out of the topmost folder it stays there. Names and
paths have a greatest length, counted in bytes, and no path has a null character.
-/

set_option autoImplicit false

namespace LiveForm

/-- What is at a place of a disk. -/
inductive DiskEntry where
  | folder
  | file (text : String)
deriving DecidableEq, Repr

/-- The folders and files of a disk, by the names that lead to them from the topmost folder. -/
structure Disk where
  entries : List (List String × DiskEntry) := []

namespace Disk

/-- What is at a place. The topmost folder is always there. -/
def get? (d : Disk) (place : List String) : Option DiskEntry :=
  if place.isEmpty then some .folder else d.entries.lookup place

/-- The disk with something new at a place. -/
def put (d : Disk) (place : List String) (entry : DiskEntry) : Disk :=
  ⟨(place, entry) :: d.entries.filter fun (other, _) => other ≠ place⟩

/-- The most bytes that a name has. -/
def maxNameSize : Nat := 255

/-- The most bytes that a path has. -/
def maxPathSize : Nat := 4095

/-- Whether something on a disk can have a name. -/
def isName (name : String) : Bool :=
  name.utf8ByteSize ≤ maxNameSize

/-- Whether a disk can look for a path at all. -/
def isPath (path : String) : Bool :=
  path.utf8ByteSize ≤ maxPathSize && !path.toList.contains '\x00'

/-- Whether a piece of a path leads nowhere else. -/
def isStill (piece : String) : Bool :=
  piece = "" || piece = "."

/-- The place that one piece of a path leads to from a folder. -/
def step (here : List String) (piece : String) : List String :=
  if isStill piece then here
  else if piece = ".." then here.dropLast
  else here ++ [piece]

/-- The place that the pieces of a path lead to. Only folders lead on. -/
def follow (d : Disk) : (here : List String) → List String → Except StorageFault (List String)
  | here, [] => .ok here
  | here, piece :: rest =>
    match d.get? here with
    | some .folder => if isName piece then d.follow (step here piece) rest else .error .unusable
    | some (.file _) => .error .unusable
    | none => .error .missing

/-- What is at a path. -/
def find (d : Disk) (path : String) : Except StorageFault DiskEntry :=
  if path.isEmpty then .error .missing
  else if !isPath path then .error .unusable
  else do
    match d.get? (← d.follow [] (path.splitOn "/")) with
    | some entry => .ok entry
    | none => .error .missing

/-- Makes the folders that the pieces of a path lead through, as far as they are missing. -/
def makeFolders : (here : List String) → List String → EStateM StorageFault Disk Unit
  | _, [] => pure ()
  | here, piece :: rest => do
    if !isName piece then throw .unusable
    let place := step here piece
    match (← get).get? place with
    | some .folder => makeFolders place rest
    | some (.file _) => throw .unusable
    | none =>
      modify (put · place .folder)
      makeFolders place rest

/-- The pieces of a path in front of the last one that leads elsewhere. -/
def folderPieces (path : String) : List String :=
  (((path.splitOn "/").reverse.dropWhile isStill).tail.dropWhile isStill).reverse

/-- Puts a text at a path. The path has to end with the name of a file. The folders in front of that name are
made even if the name or the whole path is of no use. -/
def writeFile (path text : String) : EStateM StorageFault Disk Unit := do
  let folders := folderPieces path
  if !isPath ("/".intercalate folders) then throw .unusable
  makeFolders [] folders
  if !isPath path then throw .unusable
  match (path.splitOn "/").getLast? with
  | none => throw .missing
  | some name =>
    if name ∈ ["", ".", ".."] then throw .unusable
    match (← get).follow [] (path.splitOn "/") with
    | .error fault => throw fault
    | .ok place =>
      if (← get).get? place = some .folder then throw .unusable
      modify (put · place (.file text))

instance : Storage Disk where
  holds d path := (d.find path).isOk
  read d path := do
    match ← d.find path with
    | .file text => .ok text
    | .folder => .error .unusable
  write := writeFile

end Disk

end LiveForm
