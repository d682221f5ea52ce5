import LiveForm.Path.Syntax

/-!
# Selectors

A selector is a pattern of paths. It is written like a path, and the index `-1` in it stands for every
index. A selector that starts with `./` is relative: it is applied to the parent of the node whose
formula it stands in. Every other selector is applied to the root.
-/

set_option autoImplicit false

namespace LiveForm

/-- What one step of a path is compared with. -/
inductive PatternStep where
  | name (s : String)
  | index (i : Int)
  | anyIndex
deriving DecidableEq, Repr

namespace PatternStep

/-- Whether a step fits the pattern. -/
def fits : PatternStep → Step → Bool
  | name a, .name b => a == b
  | index i, .index j => i == j
  | anyIndex, .index _ => true
  | _, _ => false

/-- The text of a pattern step, as it is written in a selector. -/
def render : PatternStep → String
  | name s => s
  | index i => (Step.index i).render
  | anyIndex => (Step.index (-1)).render

/-- The pattern that a step of the path grammar stands for in a selector. No index below zero is
allowed but `-1`. -/
def ofStep? : Step → Option PatternStep
  | .name s => some (name s)
  | .index i => if i = -1 then some anyIndex else if 0 ≤ i then some (index i) else none

end PatternStep

/-- Why a text is not a selector. -/
inductive SelectorFault where
  /-- Nothing stands behind the start of the selector. -/
  | emptyPattern
  /-- A piece between two dots has neither a name nor an index, or something else besides. -/
  | malformedPiece (piece : String)
  /-- An index is below zero and does not stand for every index. -/
  | negativeIndex
deriving DecidableEq, Repr

namespace SelectorFault

/-- The text of a fault. -/
def message : SelectorFault → String
  | emptyPattern => "empty pattern"
  | malformedPiece piece => "malformed piece '" ++ piece ++ "'"
  | negativeIndex => "negative index other than -1"

end SelectorFault

/-- A pattern of paths, with the text it was read from. -/
structure Selector where
  source : String
  relative : Bool
  pattern : List PatternStep
deriving DecidableEq, Repr

namespace Selector

/-- Reads the pieces of a selector from left to right, up to the first one that is at fault. -/
def patternOfPieces : List (List Char) → Except SelectorFault (List PatternStep)
  | [] => .ok []
  | piece :: rest =>
    match Path.piece? piece with
    | none => .error (.malformedPiece (String.ofList piece))
    | some steps =>
      match steps.mapM PatternStep.ofStep? with
      | none => .error .negativeIndex
      | some pattern => (patternOfPieces rest).map (pattern ++ ·)

/-- Tells a relative selector by its start, and what stands behind that start. -/
def splitStart : List Char → Bool × List Char
  | '.' :: '/' :: body => (true, body)
  | '/' :: body => (false, body)
  | body => (false, body)

/-- Reads a selector. -/
def parse (source : String) : Except SelectorFault Selector :=
  let (relative, body) := splitStart source.toList
  if body.isEmpty then .error .emptyPattern
  else (patternOfPieces (Path.pieces body)).map fun pattern => { source, relative, pattern }

/-- Whether a word of a formula is a selector and not a literal. -/
def isSelectorWord (word : String) : Bool :=
  match word.toList with
  | '/' :: _ => true
  | '.' :: '/' :: _ => true
  | _ => false

/-- The last name in the pattern. -/
def lastName? (s : Selector) : Option String :=
  s.pattern.reverse.findSome? fun
    | .name name => some name
    | _ => none

/-- Whether the last name in the pattern is `key`. -/
def endsWithName (s : Selector) (key : String) : Bool :=
  s.lastName? == some key

end Selector

/-- Whether the steps fit the pattern one by one, with none left over on either side. -/
def fitsSteps : List PatternStep → List Step → Bool
  | [], [] => true
  | part :: pattern, step :: steps => part.fits step && fitsSteps pattern steps
  | _, _ => false

end LiveForm
