import LiveForm.Error
import LiveForm.Tree.Forest
import Std.Data.ExtTreeMap

/-!
# Form documents

The definition of a form: its fields, its groups and its arrays with their templates and elements. What
a definition stands for is told by its shape. A definition with a template is an array, one with fields of
its own a group, and every other one a field.
-/

set_option autoImplicit false

namespace LiveForm

/-- The values of one element of an array, by paths that start at the element. -/
abbrev Item := Std.ExtTreeMap String Value

/-- The definition of a node. -/
structure FieldDef where
  key : String
  value : Option Value := none
  formula : Option String := none
  fields : List FieldDef := []
  template : Option (List FieldDef) := none
  items : List Item := []

/-- A form document. -/
structure Document where
  fields : List FieldDef := []

namespace FieldDef

/-- What the definition stands for. -/
def kind (d : FieldDef) : Kind :=
  if d.template.isSome then .array
  else if d.fields.isEmpty then .field
  else .group

/-- The definitions below this one: those of the template if there is one, else the fields. -/
def children (d : FieldDef) : List FieldDef :=
  d.template.getD d.fields

/-- The first entry of the items whose key is not a path, with what is wrong with it. -/
def badItemKey? (d : FieldDef) : Option (String × PathFault) :=
  (d.items.flatMap fun item => item.keys).findSome? fun key =>
    match Path.parse key with
    | .ok _ => none
    | .error fault => some (key, fault)

/-- Checks a definition, but not those below it. The first fault counts. -/
def check (d : FieldDef) (parent : Path) : Except DocumentFault Unit :=
  let path := parent.child (.name d.key)
  if Path.piece? d.key.toList ≠ some [.name d.key] then .error (.badKey path)
  else if d.kind ≠ .field && (d.value.isSome || d.formula.isSome) then .error (.valueOffField path)
  else if d.kind = .array && !d.fields.isEmpty then .error (.fieldsOfArray path)
  else if d.kind ≠ .array && !d.items.isEmpty then .error (.itemsOffArray path)
  else
    match d.badItemKey? with
    | some (key, fault) => .error (.badItemKey path key fault)
    | none => .ok ()

/-- Whether two items hold values that count as equal under the same keys. -/
def sameItem (a b : Item) : Bool :=
  a.keys = b.keys && a.keys.all fun key => a[key]? == b[key]?

mutual

/-- Checks definitions under one parent and all those below them. `seen` holds the keys that stand before
them under the parent. -/
def checkAll (parent : Path) (seen : List String) : List FieldDef → Except DocumentFault Unit
  | [] => .ok ()
  | d :: rest => do
    if d.key ∈ seen then throw (.duplicateKey parent d.key)
    checkDeep parent d
    checkAll parent (d.key :: seen) rest

/-- Checks a definition and all those below it. -/
def checkDeep (parent : Path) : FieldDef → Except DocumentFault Unit
  | ⟨key, value, formula, fields, template, items⟩ => do
    FieldDef.check ⟨key, value, formula, fields, template, items⟩ parent
    match template with
    | some template => checkAll (parent.child (.name key)) [] template
    | none => checkAll (parent.child (.name key)) [] fields

end

mutual

/-- Whether two lists of definitions agree, where values are compared as values. -/
def sameAll : List FieldDef → List FieldDef → Bool
  | [], [] => true
  | a :: as, b :: bs => same a b && sameAll as bs
  | _, _ => false

/-- Whether two definitions agree, where values are compared as values. -/
def same : FieldDef → FieldDef → Bool
  | ⟨key, value, formula, fields, template, items⟩, b =>
    key == b.key && value == b.value && formula == b.formula && sameAll fields b.fields &&
      (match template, b.template with
        | none, none => true
        | some ts, some us => sameAll ts us
        | _, _ => false) &&
      items.length == b.items.length && (items.zip b.items).all fun (i, j) => sameItem i j

end

end FieldDef

namespace Document

/-- Checks a document. -/
def validate (d : Document) : Except DocumentFault Unit :=
  FieldDef.checkAll .root [] d.fields

/-- Whether two documents agree, where values are compared as values. -/
def same (a b : Document) : Bool :=
  FieldDef.sameAll a.fields b.fields

instance : BEq Document where
  beq := same

end Document

end LiveForm
