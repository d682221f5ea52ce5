import LiveForm.Selector.Basic

/-!
# Errors of a form

Everything that an operation on a form can fail with. A formula whose value cannot be determined is no
error: its value is absent. The texts of the errors are in `FormError.message`.
-/

set_option autoImplicit false

namespace LiveForm

/-- The handle of a node. No two nodes of a form ever have the same one. -/
abbrev NodeId := Nat

/-- What is wrong with a form document. -/
inductive DocumentFault where
  /-- The text is not one of a form document. -/
  | unreadable (origin : String)
  /-- Two definitions under one parent have the same key. -/
  | duplicateKey (parent : Path) (key : String)
  /-- A key is not a plain name. -/
  | badKey (path : Path)
  /-- A group or an array is given a value or a formula. -/
  | valueOffField (path : Path)
  /-- An array has fields besides its template. -/
  | fieldsOfArray (path : Path)
  /-- Items are given to a node that is not an array. -/
  | itemsOffArray (path : Path)
  /-- The key of an item's entry is not a path. -/
  | badItemKey (path : Path) (key : String) (fault : PathFault)
deriving DecidableEq, Repr

/-- The text of a path that cannot be used, with the reason. -/
def invalidPathMessage (path : String) (fault : PathFault) : String :=
  "invalid path '" ++ path ++ "': " ++ fault.message

namespace DocumentFault

/-- The text of a fault. -/
def message : DocumentFault → String
  | unreadable origin => origin ++ ": not a form document"
  | duplicateKey parent key => "duplicate key '" ++ key ++ "' under " ++ parent.render
  | badKey path => path.render ++ ": key must be a plain identifier"
  | valueOffField path => path.render ++ ": only plain fields carry a value or formula"
  | fieldsOfArray path => path.render ++ ": an array defines its element through `template`"
  | itemsOffArray path => path.render ++ ": `items` requires a `template`"
  | badItemKey path key fault => path.render ++ ": " ++ invalidPathMessage key fault

end DocumentFault

/-- Why an operation on a form failed. -/
inductive FormError where
  | invalidSelector (selector : String) (fault : SelectorFault)
  | invalidPath (path : String) (fault : PathFault)
  | unknownOperator (operator expression : String)
  /-- The expression of the node at `path` holds no word. -/
  | emptyFormula (path : Path)
  /-- There is no node at a path. -/
  | nodeNotFound (path : String)
  /-- There is no node with a handle. -/
  | handleNotFound (id : NodeId)
  /-- A node cannot have children, or not with this key. -/
  | notAContainer (path : Path) (key : Option Step)
  | notAnArray (path : Path)
  | duplicateKey (parent : Path) (key : Step)
  /-- Formulas depend on each other in a circle. Each path is that of a field which the formula of
  the next one reads, and the last path is the first one again. -/
  | cycle (paths : List Path)
  | invalidDocument (fault : DocumentFault)
deriving DecidableEq, Repr

namespace FormError

/-- Turns a list so that it starts with the entry whose text is least. -/
def startAtLeast (paths : List Path) : List Path :=
  match paths.map Path.render with
  | [] => []
  | first :: rest =>
    let least := rest.foldl (fun a b => if b < a then b else a) first
    let before := paths.takeWhile fun p => p.render ≠ least
    paths.drop before.length ++ before

/-- The error for a circle of nodes, each of which the next one's formula reads, the last one being
read by the first. It is reported from the node whose text is least, and closed by that node. -/
def ofCycle (paths : List Path) : FormError :=
  let turned := startAtLeast paths
  cycle (turned ++ turned.take 1)

/-- The text of an error. -/
def message : FormError → String
  | invalidSelector selector fault => "invalid selector '" ++ selector ++ "': " ++ fault.message
  | invalidPath path fault => invalidPathMessage path fault
  | unknownOperator operator expression =>
    "unknown operator '" ++ operator ++ "' in formula '" ++ expression ++ "'"
  | emptyFormula path => "empty formula expression at " ++ path.render
  | nodeNotFound path => "node not found: " ++ path
  | handleNotFound _ => "node not found: <handle>"
  | notAContainer path none => "node " ++ path.render ++ " is not a container"
  | notAContainer path (some key) =>
    "node " ++ path.render ++ " (key " ++ key.render ++ ") is not a container"
  | notAnArray path => "node " ++ path.render ++ " is not an array"
  | duplicateKey parent key => "duplicate key '" ++ key.render ++ "' under " ++ parent.render
  | cycle paths =>
    "cycle detected in formula graph: " ++ " -> ".intercalate (paths.map Path.render)
  | invalidDocument fault => "invalid form document: " ++ fault.message

end FormError

end LiveForm
