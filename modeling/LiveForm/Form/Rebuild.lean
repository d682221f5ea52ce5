import LiveForm.Form.Registration

/-!
# Deriving the graph anew

The dependency graph and the registry are functions of the tree. They can be derived from it at any time,
whatever they held before, as it is done once a form has been loaded.
-/

set_option autoImplicit false

namespace LiveForm.Form

/-- Empties the graph, and gives up the bindings of all its formulas. -/
def clear (f : Form) : Form :=
  let registry := f.graph.formulaNodes.foldl (fun r node =>
    match f.graph.formula? node with
    | some formula => (formula.release r).2
    | none => r) f.registry
  { f with registry, graph := {}, pending := ∅ }

/-- The nodes outside templates that have an expression, with that. -/
def anchors (t : FieldTree) : List (NodeId × String) :=
  t.located.filterMap fun l =>
    if l.inTemplate then none else l.node.formula.map fun expression => (l.id, expression)

/-- Reads the formula of a node, and makes the node pending. No links are made. -/
def addFormula (node : NodeId) (expression : String) : FormM Unit := do
  let f ← get
  let formula ← FormM.onRegistry (Formula.parse f.tree node expression)
  FormM.update fun f =>
    { f with graph := { f.graph with
      vertices := f.graph.vertices.insert node { formula := some formula } } }.addPending [node]

/-- Links a binding with all fields that it stands for. -/
def linkFields (f : Form) (id : BindingId) : Form :=
  match f.registry.fresh? f.tree id .fromScratch with
  | none => f
  | some fresh =>
    { f with
      graph := fresh.toList.foldl (·.addSuccessor · id) f.graph
      registry := f.registry.modify id fun b =>
        { b with cache := b.cache.insertMany fresh.toList } }

/-- Fills an empty graph. -/
def derive : FormM Unit := do
  FormM.update fun f => { f with graph := f.graph.outdated }
  let f ← get
  (anchors f.tree).forM fun (node, expression) => addFormula node expression
  FormM.update fun f => f.registry.ids.foldl linkFields f
  FormM.update fun f => f.graph.formulaNodes.foldl resetPredecessors f
  discard levels

/-- Derives the graph from the tree, and follows up what is pending if `recompute` holds. If the graph
cannot be derived it is left empty. -/
def rebuildGraph (recompute : Bool) : FormM Unit := do
  FormM.update clear
  FormM.orUndo derive clear
  if recompute then discard recomputePending

/-- Derives the graph from the tree, and evaluates all formulas. -/
def rebuild : FormM Unit :=
  rebuildGraph true

end LiveForm.Form
