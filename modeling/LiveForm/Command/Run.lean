import LiveForm.Command.Line
import LiveForm.Document.Storage
import LiveForm.Form.Listing
import LiveForm.Settings.Load
import LiveForm.Tree.Drawing
import LiveForm.Value.Printer

/-!
# Running commands

What a command prints. A command that fails prints nothing, and its exit code tells what kind of thing
went wrong.
-/

set_option autoImplicit false

namespace LiveForm

/-- What a program finds around it. -/
structure Surroundings where
  /-- The text of the user's own settings file, if there is one. -/
  ownSettings : Option String := none
  /-- The path of that file, if the user has a place for such files. -/
  ownSettingsPath : Option String := none
  environment : List (String × String) := []
  /-- Whether texts are printed in colours. -/
  coloured : Bool := false

/-! ## Colours -/

/-- A look of printed text. -/
inductive Look where
  | green
  | dimmed
  | heading
deriving DecidableEq, Repr

namespace Look

/-- The number that switches a look on. -/
def code : Look → String
  | green => "32"
  | dimmed => "2"
  | heading => "1;36"

/-- A text with a look, if looks are wanted. -/
def apply (look : Look) (coloured : Bool) (text : String) : String :=
  if coloured then "\x1b[" ++ look.code ++ "m" ++ text ++ "\x1b[0m" else text

end Look

/-! ## Views -/

namespace View

/-- The line for a field. A derived value is green, and one that cannot be determined is a dimmed question
mark. -/
def valueLine (coloured : Bool) (l : Located) : String :=
  let shown := match l.node.authoritative? with
    | none => Look.dimmed.apply coloured "?"
    | some v =>
      if l.node.formula.isSome && !l.node.isOverridden then Look.green.apply coloured v.render
      else v.render
  l.path.render ++ " = " ++ shown

/-- The lines for fields with their levels, with a heading wherever the level changes. `last` is the
level of the field in front. -/
def levelLines (coloured : Bool) (last : Option Nat) : List (Path × Nat) → List String
  | [] => []
  | (path, level) :: rest =>
    (if last = some level then [] else [Look.heading.apply coloured ("level " ++ toString level)]) ++
      ("  " ++ path.render) :: levelLines coloured (some level) rest

/-- Lines as a text. -/
def ofLines (lines : List String) : String :=
  String.join (lines.map (· ++ "\n"))

/-- What is printed of a form. -/
def text (coloured : Bool) : View → FormM String
  | values => return ofLines ((← get).tree.liveFields.map (valueLine coloured))
  | tree => return (← get).tree.drawing ++ "\n"
  | graph => Form.graphText
  | levels => return ofLines (levelLines coloured none (← Form.leveledFormulas))

end View

/-! ## Commands -/

/-- Enters texts at fields of a form, one after the other. -/
def Form.enterAll (edits : List Assignment) : FormM Unit :=
  edits.forM fun edit => setValue edit.path (Value.ofInput edit.entered)

namespace Invocation

variable {σ : Type} [Storage σ]

/-- The settings that hold for a command. -/
def settings (i : Invocation) (storage : σ) (around : Surroundings) : Except Failure Settings := do
  let named ← match i.settingsFile with
    | none => pure []
    | some path =>
      match Storage.read storage path with
      | .ok text => pure [text]
      | .error _ => throw .settings
  match Settings.load? (around.ownSettings.toList ++ named) around.environment with
  | some settings => pure settings
  | none => throw .settings

/-- What a command prints. What makes a shell complete command lines is not printed here. -/
def run (i : Invocation) (storage : σ) (around : Surroundings) : Except Failure String := do
  match i.command with
  | none | some (.completion _) => return ""
  | some (.form view document edits) =>
    let settings ← i.settings storage around
    let form ← Document.loadForm storage settings document
    let showing : FormM String := do
      Form.enterAll edits
      view.text around.coloured
    match showing form with
    | .ok text _ => return text
    | .error e _ => throw (.form e)
  | some (.settings task) =>
    let settings ← i.settings storage around
    match task with
    | .show => return settings.text ++ "\n"
    | .template => return Settings.template ++ "\n"
    | .path => return (around.ownSettingsPath.map (· ++ "\n")).getD ""

end Invocation

namespace Failure

/-- The exit code of a program whose document cannot be read or written. -/
def exitCodeOf : StorageFault → Nat
  | .missing => 66
  | .unusable => 74

/-- The exit code of a program that has failed: 64 if the command is at fault, 65 if the document is, 66 and
74 if it cannot be read, 70 if it cannot be written, and 78 if the settings are at fault. -/
def exitCode : Failure → Nat
  | settings => 78
  | form (.nodeNotFound _) | form (.handleNotFound _) | form (.invalidPath _ _) => 64
  | form _ => 65
  | noDocument _ => 66
  | unreadDocument _ fault | unwrittenDocument _ fault => exitCodeOf fault
  | unwritableDocument _ => 70

end Failure

end LiveForm
