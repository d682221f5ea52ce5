import LiveForm.Toml.Draft
import LiveForm.Toml.Scalar

/-!
# Reading TOML documents

Arrays can run over several lines and end with a comma; tables between braces cannot. Arrays and tables
within each other are read up to a fixed depth, and keys up to a fixed number of parts.
-/

set_option autoImplicit false

namespace LiveForm.Toml

/-- How deep arrays and tables between braces can be nested, and how many parts a key can have. -/
def depthLimit : Nat := 79

/-- Whether `c` can stand in a key without quotes. -/
def isBareKeyPart (c : Char) : Bool :=
  c.isAlphanum || c = '_' || c = '-'

namespace Reader

/-- Takes one part of a key, with the blanks around it. -/
def keyPart : Reader String := do
  skipBlanks
  let part ← lineQuoted <|> do
    let first ← one isBareKeyPart
    return String.ofList (first :: (← takeWhile isBareKeyPart))
  skipBlanks
  return part

/-- Takes a key: the path in front of its last part, and that part. -/
def key : Reader (List String × String) := do
  let parts ← separatedBy1 keyPart '.' depthLimit
  match parts.getLast? with
  | some last => return (parts.dropLast, last)
  | none => failure

/-- Takes what stands between the brackets of an array, and the closing one. -/
def arrayItems (item : Reader Value) : (bound : Nat) → Reader (List Value)
  | 0 => failure
  | bound + 1 => do
    skipLines
    if (← peek?) = some ']' then
      char ']'
      return []
    else
      let first ← item
      skipLines
      if (← peek?) = some ',' then
        char ','
        return first :: (← arrayItems item bound)
      else
        char ']'
        return [first]

/-- Takes an array. -/
def array (item : Reader Value) : Reader Value := do
  char '['
  let items ← arrayItems item (← get).length
  return .array items

/-- Takes a key with a value behind an equals sign. -/
def pair (item : Reader Value) : Reader (List String × String × Value) := do
  let (path, last) ← key
  char '='
  skipBlanks
  let v ← item
  skipBlanks
  return (path, last, v)

/-- Takes a table between braces. -/
def bracedTable (item : Reader Value) : Reader Value := do
  char '\x7b'
  skipBlanks
  let pairs ←
    if (← peek?) = some '\x7d' then pure []
    else separatedBy1 (pair item) ',' (← get).length
  char '\x7d'
  .table <$> (ofPairs? pairs : Reader Table)

/-- Takes a value in which arrays and tables are nested at most `depth` deep. -/
def value : (depth : Nat) → Reader Value
  | 0 => scalar
  | depth + 1 => array (value depth) <|> bracedTable (value depth) <|> scalar

/-- Takes a header. Two brackets open one more table of an array. -/
def header : Reader Line := do
  char '['
  if (← peek?) = some '[' then
    char '['
    let (path, last) ← key
    word "]]"
    return .nextHeader path last
  else
    let (path, last) ← key
    char ']'
    return .header path last

/-- Takes what stands on a line, up to its end: a pair, a header or nothing. -/
def line : Reader (Option Line) := do
  skipBlanks
  let content ← match ← peek? with
    | none | some '\n' | some '#' => pure none
    | some '[' => some <$> header
    | some _ => do
      let (path, last, v) ← pair (value depthLimit)
      pure (some (.pair path last v))
  skipBlanks
  skipComment
  return content

end Reader

/-- Drops a byte order mark at the start of a text. -/
def dropMark : List Char → List Char
  | [] => []
  | c :: rest => if c = '\ufeff' then rest else c :: rest

/-- The table that a text describes, if it is a TOML document. -/
def parse (text : String) : Option Table := do
  let cs ← unifyLineEnds? (dropMark text.toList)
  let (lines, rest) ← Reader.separatedBy1 Reader.line '\n' (cs.length + 1) cs
  guard rest.isEmpty
  ofLines? (lines.filterMap id)

end LiveForm.Toml
