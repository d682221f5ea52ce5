import LiveForm.Error
import LiveForm.Value.Basic

/-!
# Forests of form nodes

The nodes below the root of a form, as an inductive type: a forest is a list of nodes in order, each
with its handle, its key and a forest of children. There are no links besides this nesting, so every
node has exactly one parent and no walk can run in a circle.

A walk that needs to know where it is carries the path of the parent and whether the parent lies in a
template; `Forest.locate?` and `Forest.located` return what such a walk knows about a node.
-/

set_option autoImplicit false

namespace LiveForm

/-- What a node can hold. -/
inductive Kind where
  /-- A leaf that carries a value. -/
  | field
  /-- Children with names. -/
  | group
  /-- Elements with indices, and the template that they are copied from. -/
  | array
deriving DecidableEq, Repr

/-- The data of one node. -/
structure Node where
  kind : Kind
  /-- The value that a user has entered; void if there is none. -/
  value : Value := .void
  /-- The expression that the node's value is derived by. -/
  formula : Option String := none
  /-- The value that the formula last had; absent if that could not be determined, or if the formula
  was never evaluated. -/
  formulaValue : Option Value := none
  /-- Whether the node is the template of the array above it. -/
  isTemplate : Bool := false

namespace Node

/-- Whether a user has replaced the derived value of the node. -/
def isOverridden (n : Node) : Bool :=
  n.formula.isSome && !n.value.isVoid

/-- The value that readers of the node see: what the user has entered, else what the formula yields.
There is none if it cannot be determined. -/
def authoritative? (n : Node) : Option Value :=
  if n.value.isVoid then
    if n.formula.isSome then n.formulaValue else none
  else some n.value

/-- The data of a copy of the node, which has not been evaluated yet. -/
def forCopy (n : Node) : Node :=
  { n with formulaValue := none }

end Node

/-- Nodes under one parent, in order, with everything below them. -/
inductive Forest where
  | nil
  | cons (id : NodeId) (key : Step) (node : Node) (children siblings : Forest)

/-- A child of a node. -/
structure Child where
  id : NodeId
  key : Step
  node : Node

/-- A node together with its place in the tree. -/
structure Located where
  id : NodeId
  /-- The key under the parent. The root has none unless it was given one. -/
  key : Option Step
  node : Node
  /-- The parent; the root has none. -/
  parent : Option NodeId
  path : Path
  /-- Whether the node is a template or lies below one. -/
  inTemplate : Bool
  children : Forest

namespace Forest

/-- The nodes of the forest itself, without those below them. -/
def heads : Forest → List Child
  | nil => []
  | cons id key node _ siblings => ⟨id, key, node⟩ :: siblings.heads

/-- All handles, parents before their children. -/
def ids : Forest → List NodeId
  | nil => []
  | cons id _ _ children siblings => id :: (children.ids ++ siblings.ids)

/-- All handles, children before their parents. -/
def postorder : Forest → List NodeId
  | nil => []
  | cons id _ _ children siblings => children.postorder ++ id :: siblings.postorder

/-- The number of nodes. -/
def size : Forest → Nat
  | nil => 0
  | cons _ _ _ children siblings => children.size + siblings.size + 1

/-- The number of nodes on the longest way down. -/
def depth : Forest → Nat
  | nil => 0
  | cons _ _ _ children siblings => max (children.depth + 1) siblings.depth

/-- The nodes of the first forest, followed by those of the second. -/
def append : Forest → Forest → Forest
  | nil, other => other
  | cons id key node children siblings, other => cons id key node children (siblings.append other)

/-- The handle of the first node with the given key, among the nodes of the forest itself. -/
def childByKey? (key : Step) : Forest → Option NodeId
  | nil => none
  | cons id k _ _ siblings => if k = key then some id else siblings.childByKey? key

/-- The handle of the node that the steps lead to. -/
def find? : Forest → List Step → Option NodeId
  | nil, _ => none
  | cons _ _ _ _ _, [] => none
  | cons id key _ children siblings, step :: rest =>
    if key = step then
      if rest.isEmpty then some id else children.find? rest
    else siblings.find? (step :: rest)

/-- A node and its place, found by its handle. The arguments say where the forest stands. -/
def locate? (target parent : NodeId) (above : Path) (inTemplate : Bool) : Forest → Option Located
  | nil => none
  | cons id key node children siblings =>
    let path := above.child key
    let within := inTemplate || node.isTemplate
    if id = target then
      some { id, key := some key, node, parent := some parent, path, inTemplate := within, children }
    else
      (children.locate? target id path within).or (siblings.locate? target parent above inTemplate)

/-- All nodes with their places, parents before their children. The arguments say where the forest
stands. -/
def located (parent : NodeId) (above : Path) (inTemplate : Bool) : Forest → List Located
  | nil => []
  | cons id key node children siblings =>
    let path := above.child key
    let within := inTemplate || node.isTemplate
    { id, key := some key, node, parent := some parent, path, inTemplate := within, children } ::
      (children.located id path within ++ siblings.located parent above inTemplate)

/-- Changes the data of one node. -/
def modify (target : NodeId) (f : Node → Node) : Forest → Forest
  | nil => nil
  | cons id key node children siblings =>
    cons id key (if id = target then f node else node) (children.modify target f)
      (siblings.modify target f)

/-- Changes the key of one node. -/
def rekey (target : NodeId) (newKey : Step) : Forest → Forest
  | nil => nil
  | cons id key node children siblings =>
    cons id (if id = target then newKey else key) node (children.rekey target newKey)
      (siblings.rekey target newKey)

/-- Adds a forest, the last argument, at the end of one node's children. -/
def graft (target : NodeId) : Forest → Forest → Forest
  | nil, _ => nil
  | cons id key node children siblings, new =>
    let below := children.graft target new
    cons id key node (if id = target then below.append new else below) (siblings.graft target new)

/-- Removes one node with everything below it. -/
def erase (target : NodeId) : Forest → Forest
  | nil => nil
  | cons id key node children siblings =>
    if id = target then siblings.erase target
    else cons id key node (children.erase target) (siblings.erase target)

/-- The handles below the nodes of a forest in the order in which copies are made: the last node comes
first, and for each node its children come before what lies below them. -/
def copyOrderBelow : Forest → List NodeId
  | nil => []
  | cons _ _ _ children siblings =>
    siblings.copyOrderBelow ++ (children.heads.map Child.id ++ children.copyOrderBelow)

/-- The handles of a forest in the order in which copies are made. -/
def copyOrder (forest : Forest) : List NodeId :=
  forest.heads.map Child.id ++ forest.copyOrderBelow

/-- A copy of a forest under new handles, not evaluated yet. -/
def copy (rename : NodeId → NodeId) : Forest → Forest
  | nil => nil
  | cons id key node children siblings =>
    cons (rename id) key node.forCopy (children.copy rename) (siblings.copy rename)

end Forest

end LiveForm
