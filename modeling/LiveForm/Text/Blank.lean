import LiveForm.Text.CodePoints

/-!
# White space

The characters with the Unicode property White_Space, and the cutting of a text at them.
-/

set_option autoImplicit false

namespace LiveForm.Text

/-- The code points with the property White_Space. -/
def blankRanges : CodePoints :=
  [(0x09, 0x0D), (0x20, 0x20), (0x85, 0x85), (0xA0, 0xA0), (0x1680, 0x1680), (0x2000, 0x200A),
   (0x2028, 0x2029), (0x202F, 0x202F), (0x205F, 0x205F), (0x3000, 0x3000)]

/-- Whether `c` is white space. -/
def isBlank (c : Char) : Bool :=
  blankRanges.contains c

/-- The maximal runs of characters that are not blank. The second argument is the run under
construction, reversed. -/
def wordsFrom : List Char → List Char → List (List Char)
  | [], [] => []
  | [], run => [run.reverse]
  | c :: rest, run =>
    if isBlank c then
      if run.isEmpty then wordsFrom rest [] else run.reverse :: wordsFrom rest []
    else wordsFrom rest (c :: run)

/-- The words of a text: its maximal runs of characters that are not blank, in order. -/
def words (text : String) : List String :=
  (wordsFrom text.toList []).map String.ofList

/-- Removes blanks from both ends. -/
def trimBlanks (cs : List Char) : List Char :=
  ((cs.dropWhile isBlank).reverse.dropWhile isBlank).reverse

end LiveForm.Text
