import LiveForm.Tree.Forest

/-!
# Field trees

The tree of a form: a root, which is a group, and the forest below it. Nodes are addressed by handles,
which stay valid whatever happens around the node and are never given to another one, and by paths.
An array keeps a template among its children, under the index `-1`; its elements are copies of it.

This file holds the type and the queries. How a tree is changed is in `LiveForm.Tree.Edit`.
-/

set_option autoImplicit false

namespace LiveForm

/-- The tree of a form. -/
structure FieldTree where
  /-- The root has no key unless it was given one. -/
  rootKey : Option Step := none
  root : Node := { kind := .group }
  fields : Forest := .nil
  /-- The handle of the next node. -/
  next : NodeId := 1

instance : Inhabited FieldTree := ⟨{}⟩

/-- The handle of the root. -/
def rootId : NodeId := 0

/-- The index under which an array keeps its template. -/
def templateIndex : Int := -1

namespace FieldTree

/-- The root and its place. -/
def locatedRoot (t : FieldTree) : Located :=
  { id := rootId, key := t.rootKey, node := t.root, parent := none, path := ⟨t.rootKey.toList⟩,
    inTemplate := t.root.isTemplate, children := t.fields }

/-- A node and its place, found by its handle. -/
def locate? (t : FieldTree) (id : NodeId) : Option Located :=
  if id = rootId then some t.locatedRoot
  else t.fields.locate? id rootId t.locatedRoot.path t.root.isTemplate

/-- All nodes with their places, parents before their children. -/
def located (t : FieldTree) : List Located :=
  t.locatedRoot :: t.fields.located rootId t.locatedRoot.path t.root.isTemplate

/-- Whether there is a node with the handle. -/
def contains (t : FieldTree) (id : NodeId) : Bool :=
  (t.locate? id).isSome

/-- The data of a node. -/
def get? (t : FieldTree) (id : NodeId) : Option Node :=
  (t.locate? id).map (·.node)

/-- The number of nodes, the root included. -/
def size (t : FieldTree) : Nat :=
  t.fields.size + 1

/-- Whether there is no node but the root. -/
def isEmpty (t : FieldTree) : Bool :=
  t.size = 1

/-- The number of nodes on the longest way down from the root. -/
def depth (t : FieldTree) : Nat :=
  t.fields.depth + 1

/-- The path of a node. A node that is no longer in the tree has the path of the root. -/
def path (t : FieldTree) (id : NodeId) : Path :=
  ((t.locate? id).map (·.path)).getD .root

/-- Whether a node is a template or lies below one. -/
def inTemplate (t : FieldTree) (id : NodeId) : Bool :=
  ((t.locate? id).map (·.inTemplate)).getD false

/-- The children of a node in order. -/
def children (t : FieldTree) (id : NodeId) : List Child :=
  ((t.locate? id).map (·.children.heads)).getD []

/-- The child of a node with the given key. -/
def childByKey? (t : FieldTree) (parent : NodeId) (key : Step) : Option NodeId :=
  (t.locate? parent).bind (·.children.childByKey? key)

/-- The node that a path leads to from the root. -/
def find? (t : FieldTree) (p : Path) : Option NodeId :=
  if p.isRoot then some rootId else t.fields.find? p.steps

/-- The template of an array. -/
def template? (t : FieldTree) (array : NodeId) : Option NodeId :=
  ((t.children array).find? (·.node.isTemplate)).map Child.id

/-- The elements of an array with their indices, in the order of these. The template is none of
them. -/
def elements (t : FieldTree) (array : NodeId) : List (Int × NodeId) :=
  let indexed := (t.children array).filterMap fun c =>
    match c.key, c.node.isTemplate with
    | .index i, false => some (i, c.id)
    | _, _ => none
  indexed.mergeSort fun a b => a.1 ≤ b.1

/-- The handles in the subtree of a node, parents before their children. -/
def preorderFrom (t : FieldTree) (id : NodeId) : List NodeId :=
  match t.locate? id with
  | some l => id :: l.children.ids
  | none => []

/-- The handles in the subtree of a node, children before their parents. -/
def postorderFrom (t : FieldTree) (id : NodeId) : List NodeId :=
  match t.locate? id with
  | some l => l.children.postorder ++ [id]
  | none => []

/-- The fields outside templates, in the order of the tree. -/
def liveFields (t : FieldTree) : List Located :=
  t.located.filter fun l => l.node.kind = .field && !l.inTemplate

/-- The value that readers of a node see. -/
def authoritative? (t : FieldTree) (id : NodeId) : Option Value :=
  (t.get? id).bind Node.authoritative?

end FieldTree

end LiveForm
