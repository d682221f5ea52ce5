import LiveForm.Form.Recompute

/-!
# Listings of a form

What a form shows: the values of its fields, the levels of its formulas and the edges of its dependency
graph.
-/

set_option autoImplicit false

namespace LiveForm.Form

/-- The fields outside templates in the order of the tree, with the values that readers see. -/
def values (f : Form) : List (Path × Option Value) :=
  f.tree.liveFields.map fun l => (l.path, l.node.authoritative?)

/-- Sorts nodes by their levels, and by match order within a level. -/
def byLevel (f : Form) (levels : Std.ExtTreeMap NodeId Nat) (nodes : List NodeId) : List NodeId :=
  (f.tree.inMatchOrder nodes).mergeSort fun a b => (levels.getD a 0) ≤ (levels.getD b 0)

/-- All nodes of the graph with their levels, sorted by level. -/
def leveledNodes : FormM (List (NodeId × Nat)) := do
  let levels ← levels
  let f ← get
  return (f.byLevel levels levels.keys).map fun node => (node, levels.getD node 0)

/-- The paths of the fields with a formula, with their levels, sorted by level. -/
def leveledFormulas : FormM (List (Path × Nat)) := do
  let nodes ← leveledNodes
  let f ← get
  return (nodes.filter fun entry => (f.graph.formula? entry.1).isSome).map fun entry =>
    (f.tree.path entry.1, entry.2)

/-- The lines for the edges to a node with a formula, from the fields that it reads. -/
def edgeLines (f : Form) (node : NodeId) : List String :=
  (f.tree.inMatchOrder (f.graph.predecessors node).toList).map fun field =>
    (f.tree.path field).render ++ " -> " ++ (f.tree.path node).render

/-- The text of the dependency graph: one line for each edge, then one for each formula that reads no
field. -/
def graphText : FormM String := do
  let levels ← levels
  let f ← get
  let nodes := f.byLevel levels f.graph.formulaNodes
  let isRoot (node : NodeId) : Bool := (f.graph.predecessors node).isEmpty
  let edges := nodes.flatMap f.edgeLines
  let roots := (nodes.filter isRoot).map fun node => (f.tree.path node).render
  return String.join ((edges ++ roots).map (· ++ "\n"))

end LiveForm.Form
