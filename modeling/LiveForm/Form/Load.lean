import LiveForm.Document.Basic
import LiveForm.Form.Edit

/-!
# Loading a form

A form is made from a document by adding its nodes and entering its values without updating the dependency
graph, which is derived once everything is in place.
-/

set_option autoImplicit false

namespace LiveForm.Form

/-- Enters a value at the field that a path leads to from an element of an array. -/
def loadEntry (element : NodeId) (key : String) (value : Value) : FormM Unit := do
  let t := (← get).tree
  match Path.parse key with
  | .error fault => throw (.invalidPath key fault)
  | .ok relative =>
    let path : Path := ⟨(t.path element).steps ++ relative.steps⟩
    match t.find? path with
    | none => throw (.nodeNotFound path.render)
    | some target => setValueAt target value

/-- Adds an element to an array and enters the values of an item. -/
def loadItem (array : NodeId) (item : Item) : FormM Unit := do
  let element ← pushElementAt array
  item.toList.forM fun (key, value) => loadEntry element key value

mutual

/-- Adds the nodes that some definitions stand for. -/
def loadAll (parent : NodeId) : List FieldDef → FormM Unit
  | [] => pure ()
  | d :: rest => do
    loadDef parent d
    loadAll parent rest

/-- Adds the node that a definition stands for, with all that is below it. -/
def loadDef (parent : NodeId) : FieldDef → FormM Unit
  | ⟨key, value, formula, fields, template, items⟩ => do
    let id ← addNode parent (.name key) (FieldDef.kind ⟨key, value, formula, fields, template, items⟩)
      formula
    value.forM (setValueAt id)
    loadAll id fields
    match template with
    | none => pure ()
    | some template => do
      loadAll (← templateOf id) template
      items.forM (loadItem id)

end

/-- Loads a document into an empty form. -/
def load (document : Document) : FormM Unit := do
  match document.validate with
  | .error fault => throw (.invalidDocument fault)
  | .ok () =>
    inScope .updateGraph false (loadAll rootId document.fields)
    rebuild

/-- The form that a document defines. -/
def ofDocument (document : Document) (settings : Settings) : Except FormError Form :=
  match load document (ofSettings settings) with
  | .ok () f => .ok f
  | .error e _ => .error e

end LiveForm.Form
