import LiveForm.Text.Blank

/-!
# Commands

What the program can be asked to do, and why it does not do what a command line says. Asking for help or for
the version counts as a reason too.
-/

set_option autoImplicit false

namespace LiveForm

/-- What a command shows of a form. -/
inductive View where
  /-- The values of all fields. -/
  | values
  /-- The drawing of the tree. -/
  | tree
  /-- The edges of the dependency graph. -/
  | graph
  /-- The fields with a formula, by level. -/
  | levels
deriving DecidableEq, Repr

/-- What a command does with the settings. -/
inductive SettingsTask where
  /-- Print them as they are. -/
  | show
  /-- Print a file that explains them. -/
  | template
  /-- Print the path of the user's own settings file. -/
  | path
deriving DecidableEq, Repr

/-- A shell that can complete command lines. -/
inductive Shell where
  | bash
  | elvish
  | fish
  | powershell
  | zsh
deriving DecidableEq, Repr

/-- A text to be entered at the field at a path. -/
structure Assignment where
  path : String
  entered : String
deriving DecidableEq, Repr

/-- What the program is asked to do. -/
inductive Command where
  /-- Load the form at a path, enter some texts and show something of it. -/
  | form (view : View) (document : String) (edits : List Assignment)
  | settings (task : SettingsTask)
  /-- Print what makes a shell complete command lines. -/
  | completion (shell : Shell)
deriving DecidableEq, Repr

/-- A command with what holds for every command. -/
structure Invocation where
  /-- How much is reported about the work itself. -/
  debug : Nat := 0
  /-- The path of a settings file. -/
  settingsFile : Option String := none
  command : Option Command := none
deriving DecidableEq, Repr

/-- Why a command line is not run. -/
inductive UsageFault where
  | helpWanted
  | versionWanted
  /-- Nothing but the name of a group of commands is given. -/
  | groupAlone
  /-- One of a group of commands is missing. -/
  | missingCommand
  | unknownCommand
  | unknownArgument
  | missingOperand
  /-- A value is missing, empty or none of those allowed. -/
  | invalidValue
  /-- A value is not an assignment. -/
  | notAnAssignment
  /-- A value is given to an option that takes none. -/
  | unwantedValue
  /-- An option is given twice that can be given once. -/
  | repeatedOption
deriving DecidableEq, Repr

namespace UsageFault

/-- Whether the program has done what it was asked to do. -/
def isRequest : UsageFault → Bool
  | helpWanted | versionWanted => true
  | _ => false

/-- The exit code of the program. -/
def exitCode (fault : UsageFault) : Nat :=
  if fault.isRequest then 0 else 2

end UsageFault

namespace Assignment

/-- Reads an assignment: a path, an equals sign and what is to be entered, each with blanks around it.
The path must not be empty. -/
def ofText? (text : String) : Option Assignment :=
  let cs := text.toList
  if cs.contains '=' then
    let path := String.ofList (Text.trimBlanks (cs.takeWhile (· ≠ '=')))
    let entered := String.ofList (Text.trimBlanks ((cs.dropWhile (· ≠ '=')).drop 1))
    if path.isEmpty then none else some ⟨path, entered⟩
  else none

end Assignment

end LiveForm
