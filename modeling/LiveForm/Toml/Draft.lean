import LiveForm.Toml.Value

/-!
# Tables in the making

A document is written line by line: a header opens a table or one more table of an array, and a pair adds
a value to the table that is open. A dotted key stands for tables within tables. Which of these lines
may follow which depends on how each table came about, so the tables are kept with that until the
document ends.
-/

set_option autoImplicit false

namespace LiveForm.Toml

/-- How a table came about. -/
inductive Origin where
  /-- It has a header of its own, or is the document itself. -/
  | header
  /-- A header names a table within it. -/
  | implied
  /-- A dotted key of a pair names a value within it. -/
  | dotted
deriving DecidableEq, Repr

/-- What stands behind a key of an unfinished table. -/
inductive Entry where
  | value (v : Value)
  | table (origin : Origin) (entries : List (String × Entry))
  /-- An array of tables that have headers, the last of which can still grow. -/
  | tables (finished : List Value) (last : List (String × Entry))

/-- An unfinished table. -/
structure Draft where
  origin : Origin
  entries : List (String × Entry)

mutual

/-- The value that an entry amounts to. -/
def Entry.toValue : Entry → Value
  | .value v => v
  | .table _ entries => .table (toTable entries)
  | .tables finished last => .array (finished ++ [.table (toTable last)])

/-- The table that unfinished entries amount to. -/
def toTable : List (String × Entry) → Table
  | [] => []
  | (key, entry) :: rest => (key, entry.toValue) :: toTable rest

end

namespace Draft

/-- The table of a document without lines. -/
def empty : Draft :=
  ⟨.header, []⟩

/-- The finished table. -/
def finish (d : Draft) : Table :=
  toTable d.entries

/-- What stands behind a key. -/
def get? (d : Draft) (key : String) : Option Entry :=
  d.entries.lookup key

/-- Adds an entry behind a new key. -/
def add (d : Draft) (key : String) (entry : Entry) : Draft :=
  { d with entries := d.entries ++ [(key, entry)] }

/-- Replaces what stands behind a key. -/
def set (d : Draft) (key : String) (entry : Entry) : Draft :=
  { d with entries := d.entries.map fun (k, old) => (k, if k = key then entry else old) }

/-- Changes the table at a path, and makes the tables on the way that are missing. In an array of tables
the way leads through the last one. The keys of a pair (`ofPair`) do not lead into a table that has a
header. -/
def within (ofPair : Bool) (change : Draft → Option Draft) : List String → Draft → Option Draft
  | [], d => change d
  | key :: path, d =>
    match d.get? key with
    | none => do
      let inner ← within ofPair change path ⟨if ofPair then .dotted else .implied, []⟩
      return d.add key (.table inner.origin inner.entries)
    | some (.value _) => none
    | some (.table origin entries) => do
      guard !(ofPair && origin = .header)
      let inner ← within ofPair change path ⟨origin, entries⟩
      return d.set key (.table inner.origin inner.entries)
    | some (.tables finished last) => do
      let inner ← within ofPair change path ⟨.header, last⟩
      return d.set key (.tables finished inner.entries)

/-- Adds a pair with a dotted key. A plain key is not added to a table that dotted keys have made, nor a
dotted one to a table that they have not, and no key is given twice. -/
def addPair (path : List String) (key : String) (v : Value) : Draft → Option Draft :=
  within true (fun d => do
    guard (d.origin = .dotted ↔ path ≠ [])
    guard (d.get? key).isNone
    return d.add key (.value v)) path

/-- Opens a table. Nothing stands behind its key yet, or a table that another header has named. -/
def openTable (path : List String) (key : String) : Draft → Option Draft :=
  within false (fun d =>
    match d.get? key with
    | none => some (d.add key (.table .header []))
    | some (.table .implied entries) => some (d.set key (.table .header entries))
    | some _ => none) path

/-- Opens one more table of an array of tables, which is made if nothing stands behind its key. -/
def openNextTable (path : List String) (key : String) : Draft → Option Draft :=
  within false (fun d =>
    match d.get? key with
    | none => some (d.add key (.tables [] []))
    | some (.tables finished last) => some (d.set key (.tables (finished ++ [.table (toTable last)]) []))
    | some _ => none) path

end Draft

/-- A line of a document. A key is given with the path in front of its last part. -/
inductive Line where
  | pair (path : List String) (key : String) (v : Value)
  | header (path : List String) (key : String)
  | nextHeader (path : List String) (key : String)

/-- Adds lines to a document, given the path of the table that is open. -/
def Draft.addLines : List Line → (current : List String) → Draft → Option Draft
  | [], _, d => some d
  | .pair path key v :: rest, current, d => do
    addLines rest current (← within false (addPair path key v) current d)
  | .header path key :: rest, _, d => do
    addLines rest (path ++ [key]) (← openTable path key d)
  | .nextHeader path key :: rest, _, d => do
    addLines rest (path ++ [key]) (← openNextTable path key d)

/-- The table that the lines of a document describe. -/
def ofLines? (lines : List Line) : Option Table :=
  (Draft.empty.addLines lines []).map Draft.finish

/-- The table that pairs between braces describe. -/
def ofPairs? (pairs : List (List String × String × Value)) : Option Table :=
  (pairs.foldlM (fun d (path, key, v) => Draft.addPair path key v d) Draft.empty).map Draft.finish

end LiveForm.Toml
