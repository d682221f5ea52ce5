import LiveForm.Command.Run
import LiveForm.Storage.Disk

/-!
# The program

The outer layer: it gathers the files and variables that a command line asks for, runs the command on them,
and prints what comes of it.
-/

set_option autoImplicit false

namespace LiveForm

/-- What is printed where help is wanted, or where a command line cannot be read. -/
def usageText : String :=
  "Usage: formgraph [-d]... [--config FILE] COMMAND

Commands:
  eval DOC [--set PATH=VALUE]...    Load a form, apply edits and print every field value
  tree DOC [--set PATH=VALUE]...    Print the field tree with values
  graph DOC [--set PATH=VALUE]...   Print the dependency edges, one per line
  levels DOC [--set PATH=VALUE]...  Print formula fields grouped by level
  config show|template|path         Manage settings
  completion SHELL                  Generate shell completions
"

/-- The variables of the environment that can give settings. -/
def variableNames : List String :=
  ["FORMGRAPH_UPDATE_GRAPH", "FORMGRAPH_RECOMPUTE_EAGERLY", "FORMGRAPH_STOP_AT_OVERRIDE",
    "FORMGRAPH_CACHE_REFRESH"]

/-- The disk with what a path leads to. What is there but cannot be read stands as a folder. -/
def withFile (d : Disk) (path : String) : IO Disk := do
  let change : EStateM StorageFault Disk Unit ←
    try
      let text ← IO.FS.readFile path
      pure (Storage.write path text)
    catch
      | .noFileOrDirectory .. => pure (pure ())
      | _ => pure (Disk.makeFolders [] (path.splitOn "/"))
  match change d with
  | .ok () d => return d
  | .error _ d => return d

/-- The files that a command line names. -/
def Invocation.paths (i : Invocation) : List String :=
  i.settingsFile.toList ++
    match i.command with
    | some (.form _ document _) => [document]
    | _ => []

/-- Where the user's own settings file belongs. -/
def ownSettingsPath? : IO (Option String) := do
  let folder ← match ← IO.getEnv "XDG_CONFIG_HOME" with
    | some folder => pure (some folder)
    | none => return (← IO.getEnv "HOME").map (· ++ "/.config/formgraph/formgraph.toml")
  return folder.map (· ++ "/formgraph/formgraph.toml")

/-- Whether texts are to be printed in colours. -/
def wantsColours : IO Bool := do
  match ← IO.getEnv "CLICOLOR_FORCE", ← IO.getEnv "NO_COLOR", ← IO.getEnv "CLICOLOR" with
  | some force, none, switch =>
    if force = "0" then return switch ≠ some "0" && (← (← IO.getStdout).isTty) else return true
  | some force, some _, _ => return force ≠ "0"
  | none, some _, _ => return false
  | none, none, switch => return switch ≠ some "0" && (← (← IO.getStdout).isTty)

/-- What the program finds around it. -/
def surroundings : IO Surroundings := do
  let path ← ownSettingsPath?
  let text ← match path with
    | none => pure none
    | some path => try some <$> IO.FS.readFile path catch _ => pure none
  let environment ← variableNames.filterMapM fun name => return (← IO.getEnv name).map (name, ·)
  return { ownSettings := text, ownSettingsPath := path, environment, coloured := ← wantsColours }

end LiveForm

open LiveForm in
/-- Runs one command line. -/
def main (args : List String) : IO UInt32 := do
  match Invocation.ofWords args with
  | .error fault =>
    let out ← if fault.isRequest then IO.getStdout else IO.getStderr
    out.putStr usageText
    return fault.exitCode.toUInt32
  | .ok invocation =>
    let disk ← invocation.paths.foldlM withFile {}
    match invocation.run disk (← surroundings) with
    | .ok text =>
      IO.print text
      return 0
    | .error failure =>
      IO.eprintln ("error: " ++ failure.message)
      return failure.exitCode.toUInt32
