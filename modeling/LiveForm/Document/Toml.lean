import LiveForm.Document.Basic
import LiveForm.Toml.Printer

/-!
# Form documents as TOML

A document is a table with the single key `fields`. A definition is a table too, in which everything but
its key can be missing; it can also be an array of the same things in their fixed order. No other keys are
allowed, and a value that is void cannot be written.
-/

set_option autoImplicit false

namespace LiveForm

/-! ## Writing -/

/-- A value of a field as one of TOML, which has no void. -/
def Value.toToml? : Value → Option Toml.Value
  | void => none
  | bool b => some (.boolean b)
  | int i => some (.integer i)
  | real r => some (.real r)
  | text s => some (.text s)

/-- An item as a table. -/
def Item.toToml? (item : Item) : Option Toml.Value :=
  .table <$> item.toList.mapM fun (key, value) => (value.toToml?).map (key, ·)

mutual

/-- A definition as a table. What is missing or empty is left out, but an empty template is not. -/
def FieldDef.toToml? : FieldDef → Option Toml.Value
  | ⟨key, value, formula, fields, template, items⟩ => do
    let value ← value.mapM Value.toToml?
    let fields ← FieldDef.allToToml? fields
    let template ← match template with
      | none => pure none
      | some defs => some <$> FieldDef.allToToml? defs
    let items ← items.mapM Item.toToml?
    return .table <|
      [("key", .text key)] ++ (value.map ("value", ·)).toList ++
        (formula.map fun f => ("formula", .text f)).toList ++
        (if fields.isEmpty then [] else [("fields", .array fields)]) ++
        (template.map fun defs => ("template", .array defs)).toList ++
        (if items.isEmpty then [] else [("items", .array items)])

/-- Definitions as tables. -/
def FieldDef.allToToml? : List FieldDef → Option (List Toml.Value)
  | [] => some []
  | d :: rest => do return (← d.toToml?) :: (← allToToml? rest)

end

/-- A document as a table. -/
def Document.toToml? (d : Document) : Option Toml.Table :=
  (FieldDef.allToToml? d.fields).map fun fields => [("fields", .array fields)]

/-! ## Reading -/

/-- The value of a field that a value of TOML stands for. -/
def Value.ofToml? : Toml.Value → Option Value
  | .boolean b => some (bool b)
  | .integer i => some (int i)
  | .real r => some (real r)
  | .text s => some (text s)
  | .moment _ | .array _ | .table _ => none

/-- The key under which a moment stands when it is read as a table. -/
def momentKey : String := "$__toml_private_datetime"

/-- The item that a value of TOML stands for. A moment counts as a table with a single entry. -/
def Item.ofToml? : Toml.Value → Option Item
  | .table entries => do
    let entries ← entries.mapM fun (key, v) => (Value.ofToml? v).map (key, ·)
    return Std.ExtTreeMap.ofList entries
  | .moment written => some (Std.ExtTreeMap.ofList [(momentKey, Value.text written)])
  | _ => none

namespace FieldDef

/-- The parts of a definition, in the order in which they stand in an array. -/
def partNames : List String :=
  ["key", "value", "formula", "fields", "template", "items"]

mutual

/-- The definition that a value of TOML stands for. Its key must not be missing. -/
def ofToml? : Toml.Value → Option FieldDef
  | .table entries =>
    if entries.any (fun (name, _) => name = "key") then setEntries? entries ⟨"", none, none, [], none, []⟩
    else none
  | .array parts =>
    if parts.isEmpty then none else setParts? partNames parts ⟨"", none, none, [], none, []⟩
  | _ => none

/-- The definitions that an array stands for. -/
def allOfToml? : List Toml.Value → Option (List FieldDef)
  | [] => some []
  | v :: rest => do return (← ofToml? v) :: (← allOfToml? rest)

/-- Fills in one part of a definition. -/
def setPart? (name : String) (v : Toml.Value) (d : FieldDef) : Option FieldDef :=
  match name, v with
  | "key", .text key => some { d with key }
  | "value", v => (Value.ofToml? v).map fun value => { d with value := some value }
  | "formula", .text formula => some { d with formula := some formula }
  | "fields", .array defs => (allOfToml? defs).map fun fields => { d with fields }
  | "template", .array defs => (allOfToml? defs).map fun template => { d with template := some template }
  | "items", .array items => (items.mapM Item.ofToml?).map fun items => { d with items }
  | _, _ => none

/-- Fills in the parts that a table names. -/
def setEntries? : List (String × Toml.Value) → FieldDef → Option FieldDef
  | [], d => some d
  | (name, v) :: rest, d => do setEntries? rest (← setPart? name v d)

/-- Fills in parts by their places. What goes beyond the last place is ignored. -/
def setParts? : List String → List Toml.Value → FieldDef → Option FieldDef
  | name :: names, v :: rest, d => do setParts? names rest (← setPart? name v d)
  | _, _, d => some d

end

end FieldDef

/-- The document that a table stands for. -/
def Document.ofToml? : Toml.Table → Option Document
  | [] => some {}
  | [("fields", .array defs)] => (FieldDef.allOfToml? defs).map Document.mk
  | _ => none

/-! ## Texts -/

namespace Document

/-- Reads a document from a text and checks it. `origin` says where the text comes from. -/
def parse (origin text : String) : Except DocumentFault Document :=
  match Toml.parse text >>= ofToml? with
  | none => .error (.unreadable origin)
  | some d => d.validate.map fun () => d

/-- The text of a document, if it has no void values. -/
def render? (d : Document) : Option String :=
  d.toToml?.map Toml.render

end Document

end LiveForm
