import LiveForm.Command.Basic

/-!
# Reading command lines

A command line is read word by word. Each command has options and operands of its own; three options are
there for all of them, and can stand in front of the name of a command as well as behind it. The value
of an option or an operand is checked when the next option or operand is met, or else at the end.
-/

set_option autoImplicit false

namespace LiveForm

/-- How far the names of commands have led. -/
inductive Stage where
  /-- No name has been given. -/
  | program
  | form (view : View)
  /-- The commands about settings, of which none has been named. -/
  | settings
  | settingsTask (task : SettingsTask)
  | completion
deriving DecidableEq, Repr

namespace Stage

/-- The stage that the name of a command leads to. -/
def next? : Stage → String → Option Stage
  | program, "eval" => some (form .values)
  | program, "tree" => some (form .tree)
  | program, "graph" => some (form .graph)
  | program, "levels" => some (form .levels)
  | program, "config" => some settings
  | program, "completion" => some completion
  | settings, "show" => some (settingsTask .show)
  | settings, "template" => some (settingsTask .template)
  | settings, "path" => some (settingsTask .path)
  | _, _ => none

/-- Whether commands can be named here. -/
def hasCommands : Stage → Bool
  | program | settings => true
  | _ => false

/-- Whether there is an operand. -/
def hasOperand : Stage → Bool
  | form _ | completion => true
  | _ => false

/-- Whether texts can be entered. -/
def hasEdits : Stage → Bool
  | form _ => true
  | _ => false

/-- What comes of asking for help about a command by the names that lead to it. -/
def help : Stage → List String → UsageFault
  | _, [] => .helpWanted
  | stage, name :: rest =>
    match stage.next? name with
    | some next => next.help rest
    | none => if stage.hasCommands && name = "help" && rest.isEmpty then .helpWanted else .unknownCommand

end Stage

/-- The shell with a name. -/
def Shell.ofName? : String → Option Shell
  | "bash" => some bash
  | "elvish" => some elvish
  | "fish" => some fish
  | "powershell" => some powershell
  | "zsh" => some zsh
  | _ => none

/-- What a value is for. -/
inductive ValueFor where
  | settingsFile
  | edit
  | operand
deriving DecidableEq, Repr

/-- What has been given at a stage. -/
structure Given where
  debug : Nat := 0
  settingsFile : Option String := none
  edits : List Assignment := []
  operand : Option String := none
  /-- What is met but not checked. Without a value it is an option that waits for one. -/
  unchecked : Option (ValueFor × Option String) := none

namespace Given

/-- Whether an option waits for its value. -/
def isWaiting (g : Given) : Bool :=
  match g.unchecked with
  | some (_, none) => true
  | _ => false

/-- Whether there is an operand, be it checked or not. -/
def hasOperand (g : Given) : Bool :=
  g.operand.isSome || g.unchecked.any fun (purpose, _) => purpose = .operand

/-- Checks a value and takes it in. -/
def take (g : Given) (stage : Stage) : ValueFor → String → Except UsageFault Given
  | .settingsFile, value =>
    if g.settingsFile.isSome then .error .repeatedOption
    else if value.isEmpty then .error .invalidValue
    else .ok { g with settingsFile := some value }
  | .edit, value =>
    match Assignment.ofText? value with
    | some edit => .ok { g with edits := g.edits ++ [edit] }
    | none => .error .notAnAssignment
  | .operand, value =>
    if value.isEmpty || stage = .completion && (Shell.ofName? value).isNone then .error .invalidValue
    else .ok { g with operand := some value }

/-- Checks what is not checked. -/
def settle (g : Given) (stage : Stage) : Except UsageFault Given :=
  match g.unchecked with
  | none => .ok g
  | some (_, none) => .error .invalidValue
  | some (purpose, some value) => { g with unchecked := none }.take stage purpose value

/-- Meets an option that takes a value. -/
def option (g : Given) (stage : Stage) (purpose : ValueFor) (attached : Option String) :
    Except UsageFault Given := do
  let g ← g.settle stage
  match attached with
  | some value => g.take stage purpose value
  | none => return { g with unchecked := some (purpose, none) }

/-- Meets the option that asks for reports. -/
def countDebug (g : Given) (stage : Stage) : Except UsageFault Given := do
  let g ← g.settle stage
  return { g with debug := min (g.debug + 1) 255 }

/-- Meets an option that asks for something else instead of the command. -/
def request (g : Given) (stage : Stage) (wanted : UsageFault) : Except UsageFault Given := do
  discard (g.settle stage)
  throw wanted

/-- Meets an option by its long name. -/
def longOption (g : Given) (stage : Stage) (name : String) (attached : Option String) :
    Except UsageFault Given :=
  let plain (result : Except UsageFault Given) : Except UsageFault Given :=
    if attached.isSome then .error .unwantedValue else result
  match name with
  | "debug" => plain (g.countDebug stage)
  | "help" => plain (g.request stage .helpWanted)
  | "version" => plain (g.request stage .versionWanted)
  | "config" => g.option stage .settingsFile attached
  | "set" => if stage.hasEdits then g.option stage .edit attached else .error .unknownArgument
  | _ => .error .unknownArgument

/-- The value that stands behind a short option in the same word, with an equals sign or without. -/
def attachedValue? : List Char → Option String
  | [] => none
  | '=' :: rest => some (String.ofList rest)
  | rest => some (String.ofList rest)

/-- Meets options by their short names, which can share a word. -/
def shortOptions (stage : Stage) : List Char → Given → Except UsageFault Given
  | [], g => .ok g
  | c :: rest, g => do
    match c with
    | 'd' => shortOptions stage rest (← g.countDebug stage)
    | 'h' => g.request stage .helpWanted
    | 'V' => g.request stage .versionWanted
    | 's' => if stage.hasEdits then g.option stage .edit (attachedValue? rest) else .error .unknownArgument
    | _ => .error .unknownArgument

/-- Meets a word that is neither an option nor the name of a command. -/
def word (g : Given) (stage : Stage) (w : String) (onlyOperands : Bool) : Except UsageFault Given :=
  if stage.hasOperand && !g.hasOperand then do
    let g ← g.settle stage
    return { g with unchecked := some (.operand, some w) }
  else if !stage.hasCommands then .error .unknownArgument
  else if onlyOperands && (w = "help" || (stage.next? w).isSome) then .error .unknownArgument
  else .error .unknownCommand

/-- Whether nothing has been given. -/
def isEmpty (g : Given) : Bool :=
  g.debug = 0 && g.settingsFile.isNone

/-- What a stage amounts to when its words are read and no command has been named. -/
def finish (g : Given) (stage : Stage) : Except UsageFault Invocation := do
  let g ← g.settle stage
  let command ← match stage, g.operand with
    | .program, _ => pure none
    | .settings, _ => throw (if g.isEmpty then .groupAlone else .missingCommand)
    | .settingsTask task, _ => pure (some (.settings task))
    | .form view, some document => pure (some (.form view document g.edits))
    | .completion, some name =>
      match Shell.ofName? name with
      | some shell => pure (some (.completion shell))
      | none => throw .invalidValue
    | _, none => throw .missingOperand
  return { debug := g.debug, settingsFile := g.settingsFile, command }

/-- What a stage amounts to when a command has been named behind it. What is given behind the name counts
more. -/
def finishBefore (g : Given) (stage : Stage) (inner : Invocation) : Except UsageFault Invocation := do
  let g ← g.settle stage
  return { inner with
    debug := if inner.debug = 0 then g.debug else inner.debug
    settingsFile := inner.settingsFile <|> g.settingsFile }

end Given

/-- An option by its long name, with the value behind an equals sign. -/
def splitLong (cs : List Char) : String × Option String :=
  (String.ofList (cs.takeWhile (· ≠ '=')),
    if cs.contains '=' then some (String.ofList ((cs.dropWhile (· ≠ '=')).drop 1)) else none)

/-- Reads the words behind a stage. Behind two dashes all words are operands. -/
def readWords (stage : Stage) (onlyOperands : Bool) :
    Given → List String → Except UsageFault Invocation
  | g, [] => g.finish stage
  | g, w :: rest => do
    if onlyOperands then readWords stage true (← g.word stage w true) rest
    else
      match w.toList with
      | ['-', '-'] => readWords stage true g rest
      | '-' :: '-' :: cs =>
        let (name, attached) := splitLong cs
        readWords stage false (← g.longOption stage name attached) rest
      | '-' :: c :: cs => readWords stage false (← g.shortOptions stage (c :: cs)) rest
      | _ =>
        match g.unchecked with
        | some (purpose, none) => readWords stage false { g with unchecked := some (purpose, some w) } rest
        | _ =>
          if stage.hasCommands && w = "help" then throw (stage.help rest)
          match stage.next? w with
          | some next => g.finishBefore stage (← readWords next false {} rest)
          | none => readWords stage false (← g.word stage w false) rest

/-- Reads a command line, without the name of the program. -/
def Invocation.ofWords (words : List String) : Except UsageFault Invocation :=
  readWords .program false {} words

end LiveForm
