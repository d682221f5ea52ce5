import LiveForm.Selector.Basic
import LiveForm.Tree.Basic

/-!
# Matching selectors with nodes

Which fields of a tree a selector stands for, in two ways. `Selector.fieldsBelow` walks down from a
base node along the pattern and lists the fields at its end. `Selector.accepts` decides for one field
by its path alone. A template, and what lies below one, is never matched.
-/

set_option autoImplicit false

namespace LiveForm

/-- The fields of a forest that a pattern leads to. The walk enters a node only if the first step of the
pattern fits its key, and ends where the pattern ends. -/
def Forest.matching : List PatternStep → Forest → List NodeId
  | _, .nil => []
  | [], .cons _ _ _ _ _ => []
  | part :: pattern, .cons id key node children siblings =>
    let here :=
      if node.isTemplate || !part.fits key then []
      else if pattern.isEmpty then (if node.kind = .field then [id] else [])
      else children.matching pattern
    here ++ siblings.matching (part :: pattern)

namespace FieldTree

/-- Sorts handles by the paths of their nodes, in match order. -/
def inMatchOrder (t : FieldTree) (ids : List NodeId) : List NodeId :=
  (Path.sortByMatchOrder Prod.fst (ids.map fun id => (t.path id, id))).map Prod.snd

end FieldTree

namespace Selector

/-- The node that a selector is applied to when it stands in the formula of `anchor`. -/
def base (s : Selector) (t : FieldTree) (anchor : NodeId) : NodeId :=
  if s.relative then ((t.locate? anchor).bind (·.parent)).getD rootId else rootId

/-- The fields below `base` that a selector stands for, in match order. -/
def fieldsBelow (s : Selector) (t : FieldTree) (base : NodeId) : List NodeId :=
  match t.locate? base with
  | none => []
  | some l => if l.inTemplate then [] else t.inMatchOrder (l.children.matching s.pattern)

/-- Whether a node is one of the fields that a selector stands for below the node at `basePath`. -/
def accepts (s : Selector) (t : FieldTree) (basePath : Path) (candidate : NodeId) : Bool :=
  match t.locate? candidate with
  | none => false
  | some l =>
    l.node.kind = .field && !l.inTemplate &&
      match l.path.below? basePath with
      | some steps => fitsSteps s.pattern steps
      | none => false

end Selector

end LiveForm
