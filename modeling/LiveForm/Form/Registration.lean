import LiveForm.Form.Recompute

/-!
# Registering nodes

The dependency graph follows the tree by four reports: a node was added, is about to be removed, has moved,
or has another value. While the switch `updateGraph` is off the first three do nothing.
-/

set_option autoImplicit false

namespace LiveForm.Form

/-- Takes a removed node out of the cache of a binding that stood for it. -/
def forget (f : Form) (node : NodeId) (id : BindingId) : Form :=
  let registry := f.registry.modify id (·.dropNode node)
  { f with registry }.readAgain ((registry.consumersOf id).filter (· ≠ node))

/-- Removes a binding that is gone from the nodes that it stood for. -/
def unlinkAll (f : Form) (id : BindingId) (nodes : List NodeId) : Form :=
  nodes.foldl (fun f node => { f with graph := f.graph.dropSuccessor node id }.prune node) f

/-- Gives up one of the bindings that the formula of a removed node used. -/
def giveUp (f : Form) (node : NodeId) (id : BindingId) : Form :=
  match f.registry.release id node with
  | (none, registry) => { f with registry }
  | (some gone, registry) => { f with registry }.unlinkAll id gone.cache.toList

/-- Removes a node from the graph with all its links, and gives up the bindings of its formula. The formulas
that read the node are pending then. -/
def detach (f : Form) (node : NodeId) : Form :=
  match f.graph.get? node with
  | none => f
  | some vertex =>
    let f := { f with graph := f.graph.erase node }
    let f := vertex.successors.toList.foldl (·.forget node ·) f
    let f := ((vertex.formula.map (·.bindings)).getD []).foldl (·.giveUp node ·) f
    { f with graph := f.graph.outdated, pending := f.pending.erase node }

/-- Refuses a formula that reads, by a binding which is in use already, a field that depends on it. -/
def refuseCircle (node : NodeId) (id : BindingId) : FormM Unit := fun f =>
  let cached := ((f.registry.get? id).map (·.cache.toList)).getD []
  match cached.findSome? (f.pathBetween? node ·) with
  | some circle => .error (f.cycleError circle) f
  | none => .ok () f

/-- Makes the links of the bindings that a new formula uses. -/
def connect (node : NodeId) (bindings : List BindingId) : FormM Unit := do
  bindings.forM fun id => do
    refuseCircle node id
    sync .fromScratch id
  FormM.update (·.resetPredecessors node)

/-- Reads the formula of a node and makes its links. If the links are refused, nothing is left of them. -/
def attachFormula (node : NodeId) (expression : String) : FormM Unit := do
  let f ← get
  let formula ← FormM.onRegistry (Formula.parse f.tree node expression)
  FormM.update fun f =>
    { f with graph := (f.graph.update node ({ · with formula := some formula })).outdated }.addPending
      [node]
  FormM.orUndo (connect node formula.bindings) (·.detach node)

/-- Links a node with a binding that stands for it, unless that is done already. -/
def linkOnce (node : NodeId) (id : BindingId) : FormM Unit := fun f =>
  if (f.graph.successors node).contains id then .ok () f
  else FormM.orUndo (link id node) (·.detach node) f

/-- Takes a node into the graph, with the formula `expression` if there is one, and links it with the
bindings that stand for it. A node that no formula can read, or that no binding stands for, is left
out. -/
def attach (node : NodeId) (expression : Option String) : FormM Unit := fun f =>
  if !f.tree.contains node then .error (.handleNotFound node) f
  else if f.tree.inTemplate node then .ok () f
  else
    let f := if (f.graph.formula? node).isSome then f.detach node else f
    let action : FormM Unit := do
      expression.forM (attachFormula node)
      let f ← get
      (f.registry.accepting f.tree node).forM (linkOnce node)
      FormM.update (·.prune node)
    action f

/-- Does nothing while the graph is not to be updated. -/
def whenUpdating (action : FormM Unit) : FormM Unit := fun f =>
  if f.isSet .updateGraph then action f else .ok () f

/-- Reports a new node, which has the formula `expression` if one is given. If the formula is refused, the
graph is as it was before. -/
def register (node : NodeId) (expression : Option String) : FormM Unit :=
  whenUpdating do
    attach node expression
    settle

/-- Reports that a node is about to be removed. -/
def unregister (node : NodeId) : FormM Unit :=
  whenUpdating do
    FormM.update (·.detach node)
    settle

/-- Tells the registry that a node has moved from a path to the one that it has now. -/
def moveBindings (old : Path) (node : NodeId) : FormM Unit :=
  whenUpdating <| FormM.update fun f =>
    { f with registry := f.registry.rekey old (f.tree.path node) }

/-- Brings the bindings of a moved node's formula up to date. -/
def relinkFormula (node : NodeId) : FormM Unit := fun f =>
  match f.graph.formula? node with
  | none => .ok () f
  | some formula =>
    let action : FormM Unit := do
      formula.bindings.forM (sync .fromScratch)
      FormM.update fun f => (f.resetPredecessors node).addPending [node]
    action f

/-- Links a moved node with the bindings that stand for it now, and with no others. -/
def relinkNode (node : NodeId) : FormM Unit := fun f =>
  let due : BindingSet := .ofList (f.registry.accepting f.tree node)
  let current := f.graph.successors node
  let f := (current.filter (!due.contains ·)).toList.foldl (·.unlink · node) f
  (due.filter (!current.contains ·)).toList.forM (link · node) f

/-- Determines the links of a moved node again. -/
def relink (node : NodeId) : FormM Unit := fun f =>
  if !f.tree.contains node || f.tree.inTemplate node then .ok () f
  else
    let action : FormM Unit := do
      relinkFormula node
      relinkNode node
      FormM.update fun f =>
        let f := f.prune node
        { f with graph := f.graph.outdated }
    action f

/-- Determines the links of a moved node again, and follows up what changes by that. -/
def updateLinks (node : NodeId) : FormM Unit :=
  whenUpdating do
    relink node
    settle

/-- Reports that a node has moved from a path to the one that it has now. -/
def rename (old : Path) (node : NodeId) : FormM Unit := do
  moveBindings old node
  updateLinks node

end LiveForm.Form
