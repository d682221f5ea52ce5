import LiveForm.Formula.Basic

/-!
# Dependency graphs

Which formulas read which fields. A vertex of the graph is a node of the form that has a formula, or that
some binding stands for, or both. The edges are kept in both directions: a vertex knows the fields that
its formula reads, its predecessors, and the bindings that stand for it, whose consumers depend on it.
-/

set_option autoImplicit false

namespace LiveForm

/-- A node of the form as a part of the dependency graph. -/
structure Vertex where
  formula : Option Formula := none
  /-- The fields that the formula reads. -/
  predecessors : NodeSet := ∅
  /-- The bindings that stand for the node. -/
  successors : BindingSet := ∅

/-- Whether nothing keeps the vertex in the graph. -/
def Vertex.isIdle (v : Vertex) : Bool :=
  v.formula.isNone && v.successors.isEmpty

/-- A dependency graph. -/
structure Graph where
  vertices : Std.ExtTreeMap NodeId Vertex := ∅
  /-- The level of each vertex, unless the graph has changed since the levels were determined. -/
  levels : Option (Std.ExtTreeMap NodeId Nat) := some ∅

namespace Graph

/-- The number of vertices. -/
def size (g : Graph) : Nat :=
  g.vertices.size

/-- Whether there is no vertex. -/
def isEmpty (g : Graph) : Bool :=
  g.vertices.isEmpty

/-- Whether a node is a vertex. -/
def contains (g : Graph) (node : NodeId) : Bool :=
  g.vertices.contains node

/-- The vertex of a node. -/
def get? (g : Graph) (node : NodeId) : Option Vertex :=
  g.vertices[node]?

/-- The formula of a node. -/
def formula? (g : Graph) (node : NodeId) : Option Formula :=
  (g.get? node).bind (·.formula)

/-- The fields that the formula of a node reads. -/
def predecessors (g : Graph) (node : NodeId) : NodeSet :=
  ((g.get? node).map (·.predecessors)).getD ∅

/-- The bindings that stand for a node. -/
def successors (g : Graph) (node : NodeId) : BindingSet :=
  ((g.get? node).map (·.successors)).getD ∅

/-- The nodes that are vertices. -/
def nodes (g : Graph) : List NodeId :=
  g.vertices.keys

/-- The nodes with a formula. -/
def formulaNodes (g : Graph) : List NodeId :=
  g.nodes.filter fun node => (g.formula? node).isSome

/-- The number of edges. -/
def edgeCount (g : Graph) : Nat :=
  (g.vertices.values.map fun v => v.predecessors.size).foldr (· + ·) 0

/-- The nodes whose formulas use a binding that stands for a node. -/
def dependents (g : Graph) (r : Registry) (node : NodeId) : NodeSet :=
  .ofList ((g.successors node).toList.flatMap r.consumersOf)

/-- Marks the levels as out of date. -/
def outdated (g : Graph) : Graph :=
  { g with levels := none }

/-- Changes a vertex, if there is one. -/
def modify (g : Graph) (node : NodeId) (f : Vertex → Vertex) : Graph :=
  { g with vertices := g.vertices.modify node f }

/-- Changes a vertex, which is added to the graph if need be. -/
def update (g : Graph) (node : NodeId) (f : Vertex → Vertex) : Graph :=
  { g with vertices := g.vertices.alter node fun v => some (f (v.getD {})) }

/-- Removes a vertex. -/
def erase (g : Graph) (node : NodeId) : Graph :=
  { g with vertices := g.vertices.erase node }

/-- Removes a vertex that nothing keeps in the graph. -/
def prune (g : Graph) (node : NodeId) : Graph :=
  if ((g.get? node).map Vertex.isIdle).getD false then (g.erase node).outdated else g

/-- Adds a binding to those that stand for a node. -/
def addSuccessor (g : Graph) (node : NodeId) (id : BindingId) : Graph :=
  g.update node fun v => { v with successors := v.successors.insert id }

/-- Removes a binding from those that stand for a node. -/
def dropSuccessor (g : Graph) (node : NodeId) (id : BindingId) : Graph :=
  g.modify node fun v => { v with successors := v.successors.erase id }

/-- Adds a field to those that the formula of a node reads. -/
def addPredecessor (g : Graph) (node field : NodeId) : Graph :=
  g.modify node fun v => { v with predecessors := v.predecessors.insert field }

/-- The fields that a formula reads by the caches of its bindings. -/
def readings (r : Registry) (formula : Formula) : NodeSet :=
  .ofList (formula.bindings.flatMap fun id => ((r.get? id).map (·.cache.toList)).getD [])

/-- Determines again what the formula of a node reads. -/
def resetPredecessors (g : Graph) (r : Registry) (node : NodeId) : Graph :=
  match g.formula? node with
  | none => g
  | some formula => g.modify node fun v => { v with predecessors := readings r formula }

end Graph

end LiveForm
