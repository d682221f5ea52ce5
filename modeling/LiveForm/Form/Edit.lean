import LiveForm.Form.Rebuild

/-!
# Editing a form

The edits that a user makes: adding a field, adding and removing elements of an array, and entering or
clearing a value. An edit changes the tree, reports each changed node to the dependency graph, and then
follows up what is pending once, if the form recomputes eagerly.

An array keeps a template. Adding a field to an array adds it to the template and to all elements. A node is
rejected if its formula is at fault or depends on itself; what has been added with it is removed again.
-/

set_option autoImplicit false

namespace LiveForm.Form

/-- The node that the text of a path stands for. -/
def resolve (path : String) : FormM NodeId := fun f =>
  match Path.parse path with
  | .error fault => .error (.invalidPath path fault) f
  | .ok p =>
    match f.tree.find? p with
    | some id => .ok id f
    | none => .error (.nodeNotFound path) f

/-- Runs an edit without recomputing anything, and follows up what is pending afterwards if the form
recomputes eagerly. An edit that fails is not followed up. -/
def batch {α : Type} (edit : FormM α) : FormM α := do
  let eager := (← get).isSet .recomputeEagerly
  let result ← inScope .recomputeEagerly false edit
  if eager then discard recomputePending
  return result

/-- Reports a new node to the graph, which has only fields outside templates. -/
def nodeAdded (id : NodeId) : FormM Unit := fun f =>
  match f.tree.locate? id with
  | none => .ok () f
  | some l =>
    if l.node.kind ≠ .field || l.inTemplate then .ok () f else register id l.node.formula f

/-- Reports to the graph that the nodes of a subtree are about to be removed, and removes them. -/
def discardSubtree (id : NodeId) : FormM Unit := do
  ((← get).tree.postorderFrom id).forM unregister
  discard <| FormM.onTree (·.removeSubtree id)

/-- Reports the nodes of a new subtree to the graph. If one of them is rejected, the subtree is removed. The
first node is the root of the subtree. -/
def nodesAdded (created : List NodeId) : FormM Unit := fun f =>
  match created.forM nodeAdded f with
  | .ok () f => .ok () f
  | .error e f =>
    match (created.take 1).forM discardSubtree f with
    | .ok () f => .error e f
    | .error e f => .error e f

/-- Removes a subtree that the graph knows nothing of. -/
def dropSubtree (f : Form) (id : NodeId) : Form :=
  match f.tree.removeSubtree id with
  | .ok (_, tree) => { f with tree }
  | .error _ => f

/-- Adds one node and reports it to the graph. An array is given an empty template. -/
def insertNode (parent : NodeId) (key : Step) (kind : Kind) (formula : Option String) :
    FormM NodeId := do
  let f ← get
  if formula.isSome && kind ≠ .field then
    throw (.invalidPath ((f.tree.path parent).child key).render .formulaOffField)
  let id ← FormM.onTree (·.insert parent key kind)
  if kind = .array then discard <| FormM.onTree (·.insertTemplate id)
  FormM.editTree (·.setFormula id formula)
  FormM.orUndo (nodeAdded id) (·.dropSubtree id)
  return id

/-- The template of an array. -/
def templateOf (array : NodeId) : FormM NodeId := fun f =>
  match f.tree.template? array with
  | some template => .ok template f
  | none => .error (.notAnArray (f.tree.path array)) f

/-- The index that the next element of an array gets: one more than the greatest index. -/
def nextIndex (t : FieldTree) (array : NodeId) : Int :=
  match (t.elements array).getLast? with
  | some (i, _) => i + 1
  | none => 0

/-- Adds a copy of the template to an array that has no elements, and removes it again. It fails if the copy
is rejected. -/
def tryElement (array template : NodeId) : FormM Unit := do
  let index := nextIndex (← get).tree array
  let created ← FormM.onTree (·.copySubtree template array (.index index))
  nodesAdded created
  (created.take 1).forM discardSubtree

/-- Copies a node of a template into elements of the array. The second argument holds the copies made so far,
which are removed again if a copy is rejected. -/
def copyIntoElements (source : NodeId) (key : Step) (copies : List NodeId) :
    List NodeId → FormM Unit
  | [] => pure ()
  | element :: rest => do
    let created ← FormM.onTree (·.copySubtree source element key)
    let discardCopies : FormM Unit := copies.forM discardSubtree
    fun f =>
      match nodesAdded created f with
      | .ok () f => copyIntoElements source key (copies ++ created.take 1) rest f
      | .error e f =>
        match discardCopies f with
        | .ok () f => .error e f
        | .error e f => .error e f

/-- Adds a node to the template of an array and to all its elements. If there are none, an element is tried
out, so that a formula which cannot work is rejected at once. -/
def extendArray (array : NodeId) (key : Step) (kind : Kind) (formula : Option String) :
    FormM NodeId := do
  let template ← templateOf array
  batch do
    let id ← insertNode template key kind formula
    let elements := ((← get).tree.elements array).map Prod.snd
    let copying : FormM Unit :=
      if elements.isEmpty then tryElement array template
      else copyIntoElements id key [] elements
    FormM.orUndo copying (·.dropSubtree id)
    return id

/-- Adds a node under a parent. -/
def addNode (parent : NodeId) (key : Step) (kind : Kind) (formula : Option String) :
    FormM NodeId := fun f =>
  match f.tree.get? parent with
  | none => .error (.handleNotFound parent) f
  | some node =>
    match node.kind with
    | .field => .error (.notAContainer (f.tree.path parent) none) f
    | .array => extendArray parent key kind formula f
    | .group => batch (insertNode parent key kind formula) f

/-- Fails unless a node is an array. -/
def expectArray (id : NodeId) : FormM Unit := fun f =>
  if (f.tree.get? id).map (·.kind) = some .array then .ok () f
  else .error (.notAnArray (f.tree.path id)) f

/-- Adds a copy of the template to an array. -/
def pushElementAt (array : NodeId) : FormM NodeId := do
  expectArray array
  let template ← templateOf array
  let index := nextIndex (← get).tree array
  batch do
    let created ← FormM.onTree (·.copySubtree template array (.index index))
    nodesAdded created
    return created.headD rootId

/-- Gives a node another key, and reports all nodes that move with it to the graph. -/
def renameSubtree (id : NodeId) (key : Step) : FormM Unit := do
  let t := (← get).tree
  let moved := (t.preorderFrom id).map fun node => (node, t.path node)
  discard <| FormM.onTree (·.rekey id key)
  moved.forM fun (node, old) => rename old node

/-- Enters a value at a field. Void clears the field. -/
def setValueAt (id : NodeId) (value : Value) : FormM Unit := fun f =>
  if (f.tree.get? id).map (·.kind) = some .field then
    let action : FormM Unit := do
      FormM.editTree (·.setValue id value)
      valueChanged id
    action f
  else .error (.invalidPath (f.tree.path id).render .valueOffField) f

/-- Adds a node under the one at a path, and returns it. -/
def addField (parent key : String) (kind : Kind) (formula : Option String) : FormM NodeId := do
  let parent ← resolve parent
  addNode parent (.name key) kind formula

/-- Adds an element to the array at a path, and returns it. -/
def pushElement (path : String) : FormM NodeId := do
  let array ← resolve path
  pushElementAt array

/-- Removes the element with an index from the array at a path. The elements behind it move up by one. The
index is a word of 64 bits, which is read as a signed integer. -/
def removeElement (path : String) (index : UInt64) : FormM Unit := do
  let array ← resolve path
  expectArray array
  let index := index.toInt64.toInt
  match (← get).tree.childByKey? array (.index index) with
  | none => throw (.nodeNotFound (path ++ (Step.index index).render))
  | some element =>
    batch do
      discardSubtree element
      let later := ((← get).tree.elements array).filter fun entry => index < entry.1
      later.forM fun (i, id) => renameSubtree id (.index (i - 1))

/-- Enters a value at the field at a path. -/
def setValue (path : String) (value : Value) : FormM Unit := do
  let id ← resolve path
  setValueAt id value

/-- Clears the field at a path, so that its derived value shows again if it has a formula. -/
def clearOverride (path : String) : FormM Unit :=
  setValue path .void

/-- The value that readers of the field at a path see. -/
def value? (path : String) : FormM (Option Value) := do
  let id ← resolve path
  return (← get).tree.authoritative? id

end LiveForm.Form
