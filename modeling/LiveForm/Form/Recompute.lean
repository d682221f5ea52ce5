import LiveForm.Form.Linking

/-!
# Recomputing formulas

What is pending is followed up: the formulas that depend on a pending node are evaluated, each one after
those that it reads. A formula that nothing pending affects is not touched.
-/

set_option autoImplicit false

namespace LiveForm

/-- What a recomputation has done. -/
structure Report where
  /-- The nodes whose formulas were evaluated, in that order. -/
  evaluated : List NodeId := []
  /-- How many of them have another value than before. -/
  changed : Nat := 0
deriving DecidableEq, Repr

namespace Form

/-- The levels of the graph, which are determined if they are out of date, visiting things in the given order.
It fails if there are none. -/
def levelsBy (order : SearchOrder) : FormM (Std.ExtTreeMap NodeId Nat) := fun f =>
  match f.graph.levels with
  | some levels => .ok levels f
  | none =>
    match f.graph.computeLevelsBy order with
    | .ok levels => .ok levels { f with graph := { f.graph with levels := some levels } }
    | .error circle => .error (f.cycleError circle) f

/-- The levels of the graph, which are determined if they are out of date. It fails if there are none. -/
def levels : FormM (Std.ExtTreeMap NodeId Nat) :=
  levelsBy .ascending

theorem levels_eq (f : Form) : levels f =
    match f.graph.levels with
    | some levels => .ok levels f
    | none =>
      match f.graph.computeLevels with
      | .ok levels => .ok levels { f with graph := { f.graph with levels := some levels } }
      | .error circle => .error (f.cycleError circle) f := rfl

/-- The bindings that the formulas of some nodes use. -/
def bindingsUsed (f : Form) (nodes : NodeSet) : BindingSet :=
  .ofList (nodes.toList.flatMap fun node => ((f.graph.formula? node).map (·.bindings)).getD [])

/-- The nodes in the tree that have a formula, among some nodes, by ascending level. -/
def evaluationOrder (f : Form) (order : VisitOrder) (levels : Std.ExtTreeMap NodeId Nat)
    (nodes : NodeSet) : List NodeId :=
  let formulas := nodes.toList.filter fun node =>
    f.tree.contains node && (f.graph.formula? node).isSome
  (order.formulas formulas).mergeSort fun a b => (levels.getD a 0) ≤ (levels.getD b 0)

/-- Evaluates the formula of a node by the caches of its bindings, and stores its value. Tells whether that
differs from the value before. -/
def evaluate (f : Form) (node : NodeId) : Bool × Form :=
  match f.graph.formula? node with
  | none => (false, f)
  | some formula =>
    match f.tree.setFormulaValue node (formula.evaluateCached f.registry f.tree) with
    | .ok (changed, tree) => (changed, { f with tree })
    | .error _ => (false, f)

/-- Evaluates the formulas of some nodes in the given order. -/
def evaluateAll (f : Form) (nodes : List NodeId) : Report × Form :=
  nodes.foldl (fun (report, f) node =>
    let (changed, f) := f.evaluate node
    ({ evaluated := report.evaluated ++ [node],
       changed := if changed then report.changed + 1 else report.changed }, f)) ({}, f)

/-- The pending nodes that are in the graph and in the tree. -/
def seeds (f : Form) : NodeSet :=
  f.pending.filter fun node => f.graph.contains node && f.tree.contains node

/-- Marks nothing as pending. -/
def clearPending (f : Form) : Form :=
  { f with pending := ∅ }

/-- The second half of a recomputation. Bringing caches up to date may have made more nodes pending than the
affected ones; these are followed up as well. -/
def evaluateAffected (order : VisitOrder) (affected : NodeSet) : FormM Report := fun f =>
  let late := f.pending.filter fun node => !affected.contains node && f.graph.contains node
  let affected := affected.insertMany (f.affected late).toList
  match levels f.clearPending with
  | .error e f => .error e (f.addPending affected.toList)
  | .ok levels f =>
    let (report, f) := f.evaluateAll (f.evaluationOrder order levels affected)
    .ok report f

/-- Follows up what is pending, and visits things in the given order. If it fails, what it was to follow up
is pending again. -/
def recomputePendingBy (order : VisitOrder) : FormM Report := fun f =>
  if f.seeds.isEmpty then .ok {} f.clearPending
  else
    let affected := f.affected f.seeds
    let bindings := order.bindings (f.bindingsUsed affected).toList
    match bindings.forM (syncBy order f.cacheRefresh) f.clearPending with
    | .error e f => .error e (f.addPending affected.toList)
    | .ok () f => evaluateAffected order affected f

/-- Follows up what is pending. -/
def recomputePending : FormM Report :=
  recomputePendingBy .ascending

/-- Evaluates all formulas, and visits things in the given order. -/
def recomputeAllBy (order : VisitOrder) : FormM Report := do
  FormM.update fun f => f.addPending f.graph.formulaNodes
  recomputePendingBy order

/-- Evaluates all formulas. -/
def recomputeAll : FormM Report :=
  recomputeAllBy .ascending

/-- Follows up what is pending, if that is to be done eagerly. -/
def settle : FormM Unit := fun f =>
  if f.isSet .recomputeEagerly && !f.pending.isEmpty then (discard recomputePending) f else .ok () f

/-- Reports that the value of a node has changed. -/
def valueChanged (node : NodeId) : FormM Unit := do
  FormM.update fun f => if f.graph.contains node then f.addPending [node] else f
  settle

end Form

end LiveForm
