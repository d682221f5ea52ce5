import LiveForm.Decimal.Numeral
import LiveForm.Path.Basic

/-!
# The syntax of paths

Paths and selectors share one grammar. A text is cut at its dots into pieces; a piece is a name, or
indices in brackets, or a name with indices behind it, as in `rows[2].cells[0][1]`. The grammar lets an
index be negative, and it is left to the reader of the steps what that means: a path has no negative
index.
-/

set_option autoImplicit false

namespace LiveForm

/-- Why a text is not a path, or a path not one that an operation can be applied to. -/
inductive PathFault where
  /-- A piece between two dots has neither a name nor an index, or something else besides. -/
  | malformedPiece (piece : String)
  /-- A path has an index below zero. -/
  | negativeIndex
  /-- The root of a form is to be removed. -/
  | rootRemoval
  /-- A formula is given to a node that is not a field. -/
  | formulaOffField
  /-- A value is given to a node that is not a field. -/
  | valueOffField
deriving DecidableEq, Repr

namespace PathFault

/-- The text of a fault. -/
def message : PathFault → String
  | malformedPiece piece => "malformed piece '" ++ piece ++ "'"
  | negativeIndex => "negative index"
  | rootRemoval => "the root cannot be removed"
  | formulaOffField => "only fields carry formulas"
  | valueOffField => "only fields carry values"

end PathFault

namespace Path

/-- Whether a name can start with `c`. Names are made of ASCII characters. -/
def isNameStart (c : Char) : Bool :=
  c.isAlpha || c = '_'

/-- Whether `c` can stand in a name behind its first character. -/
def isNamePart (c : Char) : Bool :=
  c.isAlphanum || c = '_' || c = '-'

/-- Splits off the name at the start of a piece, which may be missing. -/
def takeName : List Char → List Char × List Char
  | [] => ([], [])
  | c :: rest =>
    if isNameStart c then (c :: rest.takeWhile isNamePart, rest.dropWhile isNamePart)
    else ([], c :: rest)

/-- Reads what stands between two brackets: digits, with a minus in front of them or without, whose
value fits into 64 bits. -/
def index? (body : List Char) : Option Int :=
  if body.head? = some '+' then none else (Decimal.int64? body).map Int64.toInt

/-- Reads indices in brackets, each by the reader given. The last argument is the text behind the open
bracket, reversed, if a bracket is open. -/
def indicesFrom? (read : List Char → Option Int) : List Char → Option (List Char) → Option (List Step)
  | [], none => some []
  | [], some _ => none
  | c :: rest, none => if c = '[' then indicesFrom? read rest (some []) else none
  | c :: rest, some body =>
    if c = ']' then
      match read body.reverse with
      | some i => (indicesFrom? read rest none).map (.index i :: ·)
      | none => none
    else indicesFrom? read rest (some (c :: body))

/-- Reads one piece as the steps it stands for, of which there is at least one. -/
def piece? (piece : List Char) : Option (List Step) :=
  let (name, rest) := takeName piece
  match indicesFrom? index? rest none with
  | none => none
  | some indices =>
    let steps := (if name.isEmpty then [] else [.name (String.ofList name)]) ++ indices
    if steps.isEmpty then none else some steps

/-- Cuts a text at its dots. -/
def pieces : List Char → List (List Char)
  | [] => [[]]
  | c :: rest =>
    if c = '.' then [] :: pieces rest
    else
      match pieces rest with
      | [] => [[c]]
      | first :: others => (c :: first) :: others

/-- Whether a step is an index below zero. -/
def isNegativeIndex : Step → Bool
  | .index i => decide (i < 0)
  | .name _ => false

/-- Reads the pieces of a path from left to right, up to the first one that is at fault. -/
def stepsOfPieces : List (List Char) → Except PathFault (List Step)
  | [] => .ok []
  | piece :: rest =>
    match piece? piece with
    | none => .error (.malformedPiece (String.ofList piece))
    | some steps =>
      if steps.any isNegativeIndex then .error .negativeIndex
      else (stepsOfPieces rest).map (steps ++ ·)

/-- Drops a slash at the start of a text. -/
def dropSlash : List Char → List Char
  | [] => []
  | c :: rest => if c = '/' then rest else c :: rest

/-- Reads a path. One leading slash is ignored, and nothing else is the path of the root. -/
def parse (text : String) : Except PathFault Path :=
  let body := dropSlash text.toList
  if body.isEmpty then .ok root else (stepsOfPieces (pieces body)).map Path.mk

end Path

end LiveForm
