import LiveForm.Graph.Levels
import LiveForm.Schedule
import LiveForm.Settings.Basic
import LiveForm.Tree.Edit

/-!
# Forms

A form is a tree of fields together with what keeps its formulas up to date: the selectors in use, the
dependency graph, and the nodes whose change has not been followed up yet. An operation on a form is an
action that reads and changes it. It may fail, and what it has changed before it failed stays changed.
-/

set_option autoImplicit false

namespace LiveForm

/-- The state of a form. -/
structure Form where
  tree : FieldTree := {}
  registry : Registry := {}
  graph : Graph := {}
  /-- The nodes that have changed, or whose formulas read something else than before, since formulas were
  last recomputed. -/
  pending : NodeSet := ∅
  schedule : Schedule := {}
  /-- Recomputing does not go on past a formula that a user has overridden. -/
  stopAtOverride : Bool := true
  cacheRefresh : Refresh := .incremental

/-- An operation on a form. -/
abbrev FormM := EStateM FormError Form

instance : Scheduled Form where
  schedule f := f.schedule
  withSchedule f schedule := { f with schedule }

namespace Form

/-- A form without fields. -/
def ofSettings (s : Settings) : Form :=
  { schedule := .ofValues s.updateGraph s.recomputeEagerly, stopAtOverride := s.stopAtOverride,
    cacheRefresh := s.cacheRefresh }

/-- Whether a switch of the schedule is on. -/
def isSet (f : Form) (switch : Switch) : Bool :=
  f.schedule.isSet switch

/-- The nodes whose formulas read a node. -/
def dependents (f : Form) (node : NodeId) : List NodeId :=
  (f.graph.dependents f.registry node).toList

/-- All nodes whose formulas use a binding. -/
def consumers (f : Form) : NodeSet :=
  .ofList (f.registry.bindings.values.flatMap fun b => b.consumers.toList)

/-- A path along the dependencies, if there is one. Each node on it is read by the formula of the next
one. -/
def pathBetween? (f : Form) (source target : NodeId) : Option (List NodeId) :=
  Search.path? f.dependents source target (f.consumers.erase source).toList

/-- The error that the nodes of a circle depend on themselves. -/
def cycleError (f : Form) (circle : List NodeId) : FormError :=
  .ofCycle (circle.map f.tree.path)

/-- Whether recomputing goes on past a node that it comes upon. -/
def passes (f : Form) (node : NodeId) : Bool :=
  !(f.stopAtOverride && ((f.tree.get? node).map Node.isOverridden).getD false)

/-- Some nodes and all that depends on them. -/
def affected (f : Form) (seeds : NodeSet) : NodeSet :=
  seeds.insertMany
    (Search.reach f.dependents f.passes (f.consumers.toList.filter (!seeds.contains ·))
      (seeds.toList.flatMap f.dependents))

/-- Marks nodes as pending. -/
def addPending (f : Form) (nodes : List NodeId) : Form :=
  { f with pending := f.pending.insertMany nodes }

end Form

namespace FormM

/-- The state of the form. -/
def form : FormM Form := get

/-- Changes the form by a function that cannot fail. -/
def update (g : Form → Form) : FormM Unit := modify g

/-- Runs an operation. If it fails, the form is changed by `undo`, and the operation still fails. -/
def orUndo {α : Type} (action : FormM α) (undo : Form → Form) : FormM α := fun f =>
  match action f with
  | .ok a f => .ok a f
  | .error e f => .error e (undo f)

/-- Runs an operation on the registry. -/
def onRegistry {α : Type} (action : EStateM FormError Registry α) : FormM α := fun f =>
  match action f.registry with
  | .ok a registry => .ok a { f with registry }
  | .error e registry => .error e { f with registry }

/-- Runs an operation on the tree, which is left as it is if the operation fails. -/
def onTree {α : Type} (action : FieldTree → Except FormError (α × FieldTree)) : FormM α := fun f =>
  match action f.tree with
  | .ok (a, tree) => .ok a { f with tree }
  | .error e => .error e f

/-- Changes the tree, which is left as it is if that fails. -/
def editTree (action : FieldTree → Except FormError FieldTree) : FormM Unit :=
  onTree fun t => (action t).map fun t => ((), t)

end FormM

end LiveForm
