import LiveForm.Tree.Basic
import LiveForm.Value.Printer

/-!
# Drawings of field trees

A tree is drawn with one line for each node, below a slash for the root. The lines to the left of a
node show which of the nodes above it have siblings still to come.
-/

set_option autoImplicit false

namespace LiveForm

/-- The key of a node as it is drawn. -/
def Step.label (key : Step) : String :=
  if key = .index templateIndex then "[template]" else key.render

/-- The text of a node: its key and, for a field, the value that readers see and the formula. A value
that cannot be determined is shown as a question mark. -/
def Node.label (key : Step) (n : Node) : String :=
  match n.kind with
  | .group | .array => key.label
  | .field =>
    let shown := key.label ++ " = " ++ ((n.authoritative?.map Value.render).getD "?")
    match n.formula with
    | none => shown
    | some f =>
      if n.isOverridden then shown ++ " (override of `" ++ f ++ "`)" else shown ++ " (`" ++ f ++ "`)"

namespace Forest

/-- The lines of a forest, each behind the given margin. -/
def drawing (margin : String) : Forest → List String
  | nil => []
  | cons _ key node children siblings =>
    let (branch, below) := match siblings with
      | nil => ("└── ", "    ")
      | cons .. => ("├── ", "│   ")
    (margin ++ branch ++ node.label key) ::
      (children.drawing (margin ++ below) ++ siblings.drawing margin)

end Forest

/-- The drawing of a tree. Every line ends with a line feed. -/
def FieldTree.drawing (t : FieldTree) : String :=
  String.join (("/" :: t.fields.drawing "").map (· ++ "\n"))

end LiveForm
