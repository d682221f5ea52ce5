import LiveForm.Decimal.Shortest
import LiveForm.Toml.Parser

/-!
# Writing TOML documents

The plain values of a table stand in front of its tables, each of which has a section of its own with the
path of its key as the header. A text is written between those quotes that need the fewest escapes.
-/

set_option autoImplicit false

namespace LiveForm.Toml

/-! ## Texts -/

/-- Whether `c` is a control character other than a tab. A tab stands between quotes of any kind. -/
def isControl (c : Char) : Bool :=
  (decide (c < ' ') && c ≠ '\t') || c = '\x7f'

/-- Whether `c` is written with an escape between double quotes, if it is no double quote. -/
def hasEscape (c : Char) : Bool :=
  c = '\\' || c = '\t' || isControl c

/-- The longest run of `c` in a text. -/
def longestRun (c : Char) (cs : List Char) : Nat :=
  (cs.foldl (fun (longest, run) d =>
    if d = c then (max longest (run + 1), run + 1) else (longest, 0)) (0, 0)).1

/-- Four hexadecimal digits, in capitals. -/
def fourHexDigits (n : Nat) : List Char :=
  let digits := (Nat.toDigits 16 n).map Char.toUpper
  List.replicate (4 - digits.length) '0' ++ digits

/-- The escape of a tab, a control character or a backslash. -/
def escapeOf (c : Char) : List Char :=
  match c with
  | '\x08' => ['\\', 'b']
  | '\t' => ['\\', 't']
  | '\n' => ['\\', 'n']
  | '\x0c' => ['\\', 'f']
  | '\r' => ['\\', 'r']
  | '\\' => ['\\', '\\']
  | _ => '\\' :: 'u' :: fourHexDigits c.toNat

/-- How `c` is written between double quotes on one line. -/
def lineEscape (c : Char) : List Char :=
  if c = '"' then ['\\', '"']
  else if hasEscape c then escapeOf c
  else [c]

/-- How a text is written between three double quotes: of three quotes in a row the last one is escaped.
`run` counts the quotes that stand in front. -/
def blockEscape (run : Nat) : List Char → List Char
  | [] => []
  | c :: rest =>
    if c = '"' then
      if run = 2 then '\\' :: '"' :: blockEscape 0 rest else '"' :: blockEscape (run + 1) rest
    else if c = '\n' then '\n' :: blockEscape 0 rest
    else if hasEscape c then escapeOf c ++ blockEscape 0 rest
    else c :: blockEscape 0 rest

/-- A text between double quotes on one line. -/
def lineQuotedText (cs : List Char) : List Char :=
  '"' :: cs.flatMap lineEscape ++ ['"']

/-- What stands between three quotes and a text: a text of several lines starts on a line of its own. -/
def blockLead (cs : List Char) : List Char :=
  if cs.contains '\n' then ['\n'] else []

/-- A text between three double quotes. -/
def blockQuotedText (cs : List Char) : List Char :=
  "\"\"\"".toList ++ blockLead cs ++ blockEscape 0 cs ++ "\"\"\"".toList

/-- A text between three single quotes. -/
def blockLiteralText (cs : List Char) : List Char :=
  "'''".toList ++ blockLead cs ++ cs ++ "'''".toList

/-- Whether a text can stand between double quotes as it is, apart from its tabs. -/
def isPlain (cs : List Char) : Bool :=
  !cs.any fun c => c = '"' || c = '\\' || isControl c

/-- A text as a value. It is written between double quotes, single quotes, three double quotes or three
single quotes, whichever of these comes first that needs no escapes, and with escapes if none does. -/
def quotedValue (text : String) : String :=
  let cs := text.toList
  let severalLines := cs.contains '\n'
  let controlled := cs.any fun c => isControl c && c ≠ '\n'
  String.ofList <|
    if isPlain cs then lineQuotedText cs
    else if !controlled && !severalLines && !cs.contains '\'' then ['\''] ++ cs ++ ['\'']
    else if !controlled && !cs.contains '\\' && longestRun '"' cs ≤ 2 then blockQuotedText cs
    else if !controlled && longestRun '\'' cs ≤ 2 then blockLiteralText cs
    else if severalLines then blockQuotedText cs
    else lineQuotedText cs

/-- A part of a key. It has quotes only where it needs them. -/
def keyPartText (key : String) : String :=
  let cs := key.toList
  String.ofList <|
    if !cs.isEmpty && cs.all isBareKeyPart then cs
    else if isPlain cs then lineQuotedText cs
    else if !cs.any (fun c => c = '\'' || isControl c) then ['\''] ++ cs ++ ['\'']
    else lineQuotedText cs

/-! ## Values and tables -/

/-- A real. If it is finite it has a point, but never an exponent. -/
def realText (r : Float) : String :=
  if r.isNaN then "nan"
  else
    let text := Decimal.render r
    if r.isFinite && !text.contains '.' then text ++ ".0" else text

mutual

/-- A value as it stands behind its key. An array of two items or more has a line for each. -/
def inlineText : Value → String
  | .text s => quotedValue s
  | .integer i => toString i.toInt
  | .real r => realText r
  | .boolean b => if b then "true" else "false"
  | .moment written => written
  | .array items =>
    match inlineTexts items with
    | [] => "[]"
    | [item] => "[" ++ item ++ "]"
    | items => "[\n" ++ String.join (items.map fun item => "    " ++ item ++ ",\n") ++ "]"
  | .table entries =>
    match inlinePairs entries with
    | [] => "\x7b\x7d"
    | pairs => "\x7b " ++ ", ".intercalate pairs ++ " \x7d"

/-- The items of an array, one by one. -/
def inlineTexts : List Value → List String
  | [] => []
  | v :: rest => inlineText v :: inlineTexts rest

/-- The pairs of a table between braces, one by one. -/
def inlinePairs : List (String × Value) → List String
  | [] => []
  | (key, v) :: rest => (keyPartText key ++ " = " ++ inlineText v) :: inlinePairs rest

end

/-- The lines of those entries of a table that are written behind their keys. -/
def plainLines (t : Table) : List String :=
  (t.filter fun (_, v) => v.isInline).map fun (key, v) =>
    keyPartText key ++ " = " ++ inlineText v ++ "\n"

/-- The text of a header without its brackets. -/
def headerPath (path : List String) : String :=
  ".".intercalate (path.map keyPartText)

mutual

/-- The sections of the tables among the entries of the table at a path. A table that holds nothing but
tables has no header of its own. -/
def entrySections (path : List String) : List (String × Value) → List String
  | [] => []
  | (key, v) :: rest => valueSections (path ++ [key]) v ++ entrySections path rest

/-- The sections of the value at a path. -/
def valueSections (path : List String) : Value → List String
  | .table entries =>
    let lines := plainLines entries
    (if entries.isEmpty || !lines.isEmpty then
      ["[" ++ headerPath path ++ "]\n" ++ String.join lines] else []) ++ entrySections path entries
  | .array items => if (Value.array items).isTables then itemSections path items else []
  | _ => []

/-- The sections of the tables of an array at a path. Each of them has a header. -/
def itemSections (path : List String) : List Value → List String
  | [] => []
  | .table entries :: rest =>
    (("[[" ++ headerPath path ++ "]]\n" ++ String.join (plainLines entries)) ::
      entrySections path entries) ++ itemSections path rest
  | _ :: rest => itemSections path rest

end

/-- The text of a document, with an empty line between its sections. -/
def render (t : Table) : String :=
  let lines := plainLines t
  "\n".intercalate
    ((if lines.isEmpty then [] else [String.join lines]) ++ entrySections [] t)

end LiveForm.Toml
