import LiveForm.Form.Basic

/-!
# Links between fields and formulas

A link says that a binding stands for a field, and so that the formulas which use the binding read that
field. It is kept in three places: in the cache of the binding, at the field, and at the formulas. The
operations of this file change all three together. No link is made that would let a formula depend on
itself.
-/

set_option autoImplicit false

namespace LiveForm

/-- The order in which things are visited whose order must not matter. -/
structure VisitOrder where
  /-- The bindings that are brought up to date. -/
  bindings : List BindingId → List BindingId
  /-- The nodes that the cache of a binding loses. -/
  removed : BindingId → List NodeId → List NodeId
  /-- The nodes that the cache of a binding gains. -/
  added : BindingId → List NodeId → List NodeId
  /-- The formulas that are evaluated, within each level. -/
  formulas : List NodeId → List NodeId
  bindings_perm : ∀ l, (bindings l).Perm l
  removed_perm : ∀ id l, (removed id l).Perm l
  added_perm : ∀ id l, (added id l).Perm l
  formulas_perm : ∀ l, (formulas l).Perm l

/-- Everything is visited in the order of the handles. -/
def VisitOrder.ascending : VisitOrder where
  bindings l := l
  removed _ l := l
  added _ l := l
  formulas l := l
  bindings_perm l := .refl l
  removed_perm _ l := .refl l
  added_perm _ l := .refl l
  formulas_perm l := .refl l

namespace Form

/-- Determines again what the formula of a node reads. -/
def resetPredecessors (f : Form) (node : NodeId) : Form :=
  { f with graph := f.graph.resetPredecessors f.registry node }

/-- Determines again what the formulas of some nodes read, and marks these nodes as pending. -/
def readAgain (f : Form) (consumers : List NodeId) : Form :=
  consumers.foldl (fun f node => (f.resetPredecessors node).addPending [node]) f

/-- Removes a node without a formula from the graph if no binding stands for it. -/
def prune (f : Form) (node : NodeId) : Form :=
  { f with graph := f.graph.prune node }

/-- Removes the link between a binding and a field. -/
def unlink (f : Form) (id : BindingId) (field : NodeId) : Form :=
  let registry := f.registry.modify id (·.dropNode field)
  let f := { f with registry, graph := f.graph.dropSuccessor field id }
  let f := (f.readAgain (registry.consumersOf id)).prune field
  { f with graph := f.graph.outdated }

/-- Makes the link between a binding and a field. It is refused if the field depends on a formula that
uses the binding. -/
def link (id : BindingId) (field : NodeId) : FormM Unit := fun f =>
  let consumers := f.registry.consumersOf id
  match consumers.findSome? (f.pathBetween? · field) with
  | some circle => .error (f.cycleError circle) f
  | none =>
    let registry := f.registry.modify id (·.cacheNode field)
    let graph := consumers.foldl (·.addPredecessor · field) (f.graph.addSuccessor field id)
    .ok () ({ f with registry, graph := graph.outdated }.addPending consumers)

/-- Brings the cache of a binding up to date, and the links with it. -/
def syncBy (order : VisitOrder) (mode : Refresh) (id : BindingId) : FormM Unit := fun f =>
  match f.registry.fresh? f.tree id mode with
  | none => .ok () f
  | some fresh =>
    let diff := f.registry.diff id fresh
    let f := (order.removed id diff.removed.toList).foldl (·.unlink id ·) f
    (order.added id diff.added.toList).forM (link id) f

/-- Brings the cache of a binding up to date, and the links with it. -/
def sync (mode : Refresh) (id : BindingId) : FormM Unit :=
  syncBy .ascending mode id

end Form

end LiveForm
