import LiveForm.Graph.Basic
import LiveForm.Graph.Search

/-!
# Levels

The order in which formulas are evaluated. The level of a vertex is the length of the longest way that
leads to it, so it is greater than the levels of all its predecessors. There are levels exactly if no
formula depends on itself.

The levels are found by a depth-first search against the edges. A vertex is entered, then its predecessors
are visited, and once these have their levels it gets its own one and is left. The vertices that have been
entered and not been left yet make up a trail, and a predecessor on the trail closes a circle.
-/

set_option autoImplicit false

namespace LiveForm

/-- The order in which a search through a graph visits things whose order must not matter. -/
structure SearchOrder where
  /-- The vertices that the search starts from. -/
  vertices : List NodeId → List NodeId
  /-- The predecessors of a vertex. -/
  predecessors : NodeId → List NodeId → List NodeId
  vertices_perm : ∀ l, (vertices l).Perm l
  predecessors_perm : ∀ node l, (predecessors node l).Perm l

/-- Everything is visited in the order of the handles. -/
def SearchOrder.ascending : SearchOrder where
  vertices l := l
  predecessors _ l := l
  vertices_perm l := .refl l
  predecessors_perm _ l := .refl l

namespace Graph

/-- The predecessors of a node that are vertices themselves. -/
def sources (g : Graph) (node : NodeId) : List NodeId :=
  (g.predecessors node).toList.filter g.contains

/-- The least level above those that some nodes have. -/
def levelAbove (levels : Std.ExtTreeMap NodeId Nat) (nodes : List NodeId) : Nat :=
  ((nodes.filterMap (levels[·]?)).map (· + 1)).max?.getD 0

/-- What a search has yet to do about a vertex. -/
inductive Task where
  /-- To visit its predecessors, unless that has been begun before. -/
  | enter (node : NodeId)
  /-- To determine its level, once its predecessors have theirs. -/
  | leave (node : NodeId)

/-- The circle that is closed when the first vertex of a trail turns out to read `node`, which is on the
trail. Each node of a trail and of a circle is read by the formula of the next one. -/
def circleAt (trail : List NodeId) (node : NodeId) : List NodeId :=
  trail.takeWhile (· ≠ node) ++ [node]

/-- Does what is to be done, the first task first. The vertices in `unseen` have not been entered, those of
the trail have not been left, the last one entered coming first, and the others have levels. Returns the
levels of all vertices, or else a circle. -/
def explore (order : SearchOrder) (g : Graph) (unseen trail : List NodeId)
    (levels : Std.ExtTreeMap NodeId Nat) :
    List Task → Except (List NodeId) (Std.ExtTreeMap NodeId Nat)
  | [] => .ok levels
  | .leave node :: tasks =>
    explore order g unseen trail.tail
      (levels.insert node (levelAbove levels (g.predecessors node).toList)) tasks
  | .enter node :: tasks =>
    if _h : node ∈ unseen then
      let waiting := (order.predecessors node (g.sources node)).filter (!levels.contains ·)
      match waiting.find? (· ∈ node :: trail) with
      | some source => .error (circleAt (node :: trail) source)
      | none =>
        -- The tasks are a stack, so the source that is pushed last is visited first.
        explore order g (unseen.erase node) (node :: trail) levels
          (waiting.reverse.map .enter ++ .leave node :: tasks)
    else explore order g unseen trail levels tasks
termination_by tasks => (unseen.length, tasks.length)
decreasing_by
  · exact Prod.Lex.right _ (Nat.lt_succ_self _)
  · exact Prod.Lex.left _ _ (Search.length_erase_lt (by assumption))
  · exact Prod.Lex.right _ (Nat.lt_succ_self _)

/-- The levels of all vertices, or a circle of vertices if there are no levels. Things are visited in the
given order. -/
def computeLevelsBy (order : SearchOrder) (g : Graph) :
    Except (List NodeId) (Std.ExtTreeMap NodeId Nat) :=
  g.explore order g.nodes [] ∅ ((order.vertices g.nodes).map .enter)

/-- The levels of all vertices, or a circle of vertices if there are no levels. -/
def computeLevels (g : Graph) : Except (List NodeId) (Std.ExtTreeMap NodeId Nat) :=
  g.computeLevelsBy .ascending

/-- The level of a vertex, if levels are known. -/
def level? (g : Graph) (node : NodeId) : Option Nat :=
  g.levels.bind (·[node]?)

end Graph

end LiveForm
