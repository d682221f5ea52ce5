import LiveForm.Tree.Basic

/-!
# Changing a field tree

Each operation returns the changed tree, or the reason why the tree cannot be changed that way.
-/

set_option autoImplicit false

namespace LiveForm.FieldTree

/-- A node and its place, or the error that there is no such node. -/
def require (t : FieldTree) (id : NodeId) : Except FormError Located :=
  match t.locate? id with
  | some l => .ok l
  | none => .error (.handleNotFound id)

/-- Whether a node of some kind can have a child with some key: groups have names, arrays indices. -/
def keyFits : Kind → Step → Bool
  | .group, .name _ => true
  | .array, .index _ => true
  | _, _ => false

/-- Changes the data of a node. -/
def modify (t : FieldTree) (id : NodeId) (f : Node → Node) : FieldTree :=
  if id = rootId then { t with root := f t.root } else { t with fields := t.fields.modify id f }

/-- Adds a forest at the end of a node's children. -/
def graft (t : FieldTree) (parent : NodeId) (new : Forest) : FieldTree :=
  if parent = rootId then { t with fields := t.fields.append new }
  else { t with fields := t.fields.graft parent new }

/-- Checks that a node can have a new child with some key. -/
def checkInsert (t : FieldTree) (parent : NodeId) (key : Step) : Except FormError Unit := do
  let l ← t.require parent
  if !keyFits l.node.kind key then throw (.notAContainer l.path (some key))
  if (l.children.childByKey? key).isSome then throw (.duplicateKey l.path key)

/-- Adds a node at the end of a node's children. -/
def insertNode (t : FieldTree) (parent : NodeId) (key : Step) (node : Node) :
    Except FormError (NodeId × FieldTree) := do
  t.checkInsert parent key
  return (t.next, { t.graft parent (.cons t.next key node .nil .nil) with next := t.next + 1 })

/-- Adds an empty node of some kind at the end of a node's children. -/
def insert (t : FieldTree) (parent : NodeId) (key : Step) (kind : Kind) :
    Except FormError (NodeId × FieldTree) :=
  t.insertNode parent key { kind }

/-- Gives an array its template, which is an empty group at first. -/
def insertTemplate (t : FieldTree) (array : NodeId) : Except FormError (NodeId × FieldTree) := do
  let l ← t.require array
  if l.node.kind ≠ .array then throw (.notAnArray l.path)
  t.insertNode array (.index templateIndex) { kind := .group, isTemplate := true }

/-- Copies a node with everything below it, as a new child of `parent`. The copy holds the same values
and formulas, none of them evaluated, and is no template itself, whereas templates below it stay
templates. Returns the new handles, that of the copied node first. -/
def copySubtree (t : FieldTree) (source parent : NodeId) (key : Step) :
    Except FormError (List NodeId × FieldTree) := do
  let l ← t.require source
  t.checkInsert parent key
  let order := l.children.copyOrder
  let rename (id : NodeId) : NodeId := t.next + 1 + order.idxOf id
  let node := { l.node.forCopy with isTemplate := false }
  let copied := Forest.cons t.next key node (l.children.copy rename) .nil
  return (List.range' t.next (order.length + 1),
    { t.graft parent copied with next := t.next + (order.length + 1) })

/-- Removes a node with everything below it. Returns the removed handles, children before their
parents. -/
def removeSubtree (t : FieldTree) (id : NodeId) : Except FormError (List NodeId × FieldTree) := do
  if id = rootId then throw (.invalidPath "/" .rootRemoval)
  let _ ← t.require id
  return (t.postorderFrom id, { t with fields := t.fields.erase id })

/-- Gives a node another key. Returns its path before. -/
def rekey (t : FieldTree) (id : NodeId) (key : Step) : Except FormError (Path × FieldTree) := do
  let l ← t.require id
  match l.parent with
  | none => return (l.path, { t with rootKey := some key })
  | some parent =>
    match t.childByKey? parent key with
    | some holder => if holder ≠ id then throw (.duplicateKey (t.path parent) key)
    | none => pure ()
    return (l.path, { t with fields := t.fields.rekey id key })

/-- Stores what a user enters. Void clears the field. -/
def setValue (t : FieldTree) (id : NodeId) (value : Value) : Except FormError FieldTree := do
  let _ ← t.require id
  return t.modify id fun n => { n with value }

/-- Gives a node an expression, or takes it away. -/
def setFormula (t : FieldTree) (id : NodeId) (formula : Option String) :
    Except FormError FieldTree := do
  let _ ← t.require id
  return t.modify id fun n => { n with formula }

/-- Stores what a formula yields. Tells whether that differs from what was stored before. -/
def setFormulaValue (t : FieldTree) (id : NodeId) (value : Option Value) :
    Except FormError (Bool × FieldTree) := do
  let l ← t.require id
  return (l.node.formulaValue != value, t.modify id fun n => { n with formulaValue := value })

end LiveForm.FieldTree
