/-!
# Reading TOML piece by piece

A reader takes one thing off the front of a text and leaves the rest. Which characters may stand where
is the same all over a document: blanks separate, a line ends with a line feed, and no control character
but the tab stands in a comment or in a quoted text.
-/

set_option autoImplicit false

namespace LiveForm.Toml

/-- A reader of some thing at the front of a text. It yields nothing if the text does not start with
such a thing. -/
abbrev Reader := StateT (List Char) Option

/-- Whether `c` separates words within a line. -/
def isBlank (c : Char) : Bool :=
  c = ' ' || c = '\t'

/-- Whether `c` can stand in a comment or a quoted text: it is no control character, or a tab. -/
def isTextual (c : Char) : Bool :=
  c = '\t' || (decide (' ' ≤ c) && c ≠ '\x7f')

/-- The text with a line feed for each pair of a carriage return and a line feed. There is none if a
carriage return stands alone. -/
def unifyLineEnds? : List Char → Option (List Char)
  | [] => some []
  | ['\r'] => none
  | c :: d :: rest =>
    if c ≠ '\r' then (unifyLineEnds? (d :: rest)).map (c :: ·)
    else if d = '\n' then unifyLineEnds? (d :: rest)
    else none
  | [c] => some [c]

namespace Reader

/-- The next character, which is left where it is. -/
def peek? : Reader (Option Char) := do
  return (← get).head?

/-- Takes the next character if it satisfies `p`. -/
def one (p : Char → Bool) : Reader Char
  | [] => none
  | c :: rest => if p c then some (c, rest) else none

/-- Takes the next character if it is `c`. -/
def char (c : Char) : Reader Unit := do
  discard (one (· = c))

/-- Takes the next characters as long as they satisfy `p`. -/
def takeWhile (p : Char → Bool) : Reader (List Char) :=
  fun cs => some (cs.takeWhile p, cs.dropWhile p)

/-- Takes a word, character by character. -/
def word (w : String) : Reader Unit :=
  w.toList.forM char

/-- Tries a reader, and takes nothing if it yields nothing. -/
def optional? {α : Type} (reader : Reader α) : Reader (Option α) :=
  (some <$> reader) <|> pure none

/-- What a reader takes, as it is written. -/
def written {α : Type} (reader : Reader α) : Reader String :=
  fun cs => (reader cs).map fun (_, rest) => (String.ofList (cs.take (cs.length - rest.length)), rest)

/-- Takes one thing or more with separators between them, at most `bound` of them. -/
def separatedBy1 {α : Type} (thing : Reader α) (separator : Char) : (bound : Nat) → Reader (List α)
  | 0 => failure
  | bound + 1 => do
    let first ← thing
    if (← peek?) = some separator then
      char separator
      return first :: (← separatedBy1 thing separator bound)
    else return [first]

/-- Skips blanks. -/
def skipBlanks : Reader Unit := do
  discard (takeWhile isBlank)

/-- Skips a comment, if there is one, up to the end of its line. -/
def skipComment : Reader Unit := do
  if (← peek?) = some '#' then discard (takeWhile isTextual)

/-- The text behind blanks, comments and line ends. The flag tells whether a comment is open. -/
def afterLines : (inComment : Bool) → List Char → List Char
  | _, [] => []
  | true, c :: rest =>
    if c = '\n' then afterLines false rest
    else if isTextual c then afterLines true rest
    else c :: rest
  | false, c :: rest =>
    if isBlank c || c = '\n' then afterLines false rest
    else if c = '#' then afterLines true rest
    else c :: rest

/-- Skips blanks, comments and line ends. -/
def skipLines : Reader Unit :=
  modify (afterLines false)

end Reader

end LiveForm.Toml
