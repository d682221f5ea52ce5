/-!
# Paths through a form

A path is the list of steps from the root of a form to one of its nodes. A step into a group is a
name, a step into an array an index. This file holds the two types, their orders and the text of a
path; how a text is read as a path is in `LiveForm.Path.Syntax`.
-/

set_option autoImplicit false

namespace LiveForm

/-- One step of a path, and the key of a node under its parent. -/
inductive Step where
  | name (s : String)
  | index (i : Int)
deriving DecidableEq, Repr

namespace Step

/-- Names are ordered by their code points and indices by size; names come before indices. -/
protected def compare : Step → Step → Ordering
  | name a, name b => compare a b
  | index a, index b => compare a b
  | name _, index _ => .lt
  | index _, name _ => .gt

instance : Ord Step where
  compare := Step.compare

/-- The text of a step: a name as it is, an index in brackets. -/
def render : Step → String
  | name s => s
  | index i => "[" ++ toString i ++ "]"

end Step

/-- The steps from the root of a form to a node. -/
structure Path where
  steps : List Step
deriving DecidableEq, Repr

namespace Path

/-- The path of the root itself. -/
def root : Path := ⟨[]⟩

instance : Inhabited Path := ⟨root⟩

/-- The number of steps. -/
def length (p : Path) : Nat := p.steps.length

/-- Whether the path is that of the root. -/
def isRoot (p : Path) : Bool := p.steps.isEmpty

/-- The path with one more step at its end. -/
def child (p : Path) (s : Step) : Path := ⟨p.steps ++ [s]⟩

/-- The path without its last step; the root has no parent. -/
def parent? (p : Path) : Option Path :=
  if p.steps.isEmpty then none else some ⟨p.steps.dropLast⟩

/-- The steps that remain of `p` behind `base`, if `base` is an initial part of it. -/
def below? (p base : Path) : Option (List Step) :=
  if base.steps.isPrefixOf p.steps then some (p.steps.drop base.length) else none

/-- Whether `base` is an initial part of `p`. -/
def startsWith (p base : Path) : Bool :=
  base.steps.isPrefixOf p.steps

/-- Step by step: the first difference decides, and an initial part comes first. -/
protected def compare (p q : Path) : Ordering :=
  compare p.steps q.steps

instance : Ord Path where
  compare := Path.compare

/-- The order in which matched nodes are read: shorter paths first, then step by step. -/
def matchOrder (p q : Path) : Ordering :=
  (compare p.length q.length).then (Path.compare p q)

/-- Sorts by the match order of a path, equal paths in the order in which they are given. -/
def sortByMatchOrder {α : Type} (path : α → Path) (l : List α) : List α :=
  l.mergeSort fun a b => (matchOrder (path a) (path b)).isLE

/-- The text of the steps behind the first: names follow a dot. -/
def renderRest (steps : List Step) : String :=
  steps.foldr (fun s text =>
    match s with
    | .name _ => "." ++ s.render ++ text
    | .index _ => s.render ++ text) ""

/-- The text of a path. That of the root is a slash. -/
def render (p : Path) : String :=
  match p.steps with
  | [] => "/"
  | first :: rest => first.render ++ renderRest rest

end Path

end LiveForm
