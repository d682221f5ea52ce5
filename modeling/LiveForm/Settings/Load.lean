import LiveForm.Settings.Overlay

/-!
# Loading settings

Settings come from files, of which a later one takes precedence over those before, and from variables of
the environment, which take precedence over all files. The name of a variable is a path of the setting's
name: it can lead into a table, as if the variable were an entry of one.
-/

set_option autoImplicit false

namespace LiveForm

/-- A variable of the environment that gives a setting. -/
structure Variable where
  /-- The parts of the path that its name stands for. -/
  path : List String
  text : String
deriving DecidableEq, Repr

namespace Variable

/-- What the names of the variables start with. -/
def mark : String := "formgraph_"

/-- A name with a dot for each pair of underscores. -/
def dotted : List Char → List Char
  | [] => []
  | [c] => [c]
  | c :: d :: rest => if c = '_' && d = '_' then '.' :: dotted rest else c :: dotted (d :: rest)

/-- Whether `c` can stand in a part of a path. -/
def isPartChar (c : Char) : Bool :=
  c.isAlphanum || c = '_' || c = '-' || c = ' '

/-- Reads what stands between two brackets: an index, with spaces and tabs around it. -/
def index? (body : List Char) : Option Int :=
  let isPadding := fun c => c = ' ' || c = '\t'
  Path.index? ((body.dropWhile isPadding).reverse.dropWhile isPadding).reverse

/-- Reads one piece of a path between dots: a name, and after it indices in brackets, each of which is a
part of its own. -/
def piece? (piece : List Char) : Option (List String) :=
  let name := piece.takeWhile isPartChar
  match Path.indicesFrom? index? (piece.dropWhile isPartChar) none with
  | some indices =>
    if name.isEmpty then none else some (String.ofList name :: indices.map Step.render)
  | none => none

/-- The path that a name stands for. A name that is no path is the only part of one. -/
def pathOf (name : List Char) : List String :=
  match (Path.pieces (dotted name)).mapM piece? with
  | some parts => parts.flatten
  | none => [String.ofList (dotted name)]

/-- A letter in lower case. Beyond ASCII this is done for the Kelvin sign alone, which becomes an ASCII letter:
no other one does, so none can stand in a path. -/
def lowerCase (c : Char) : Char :=
  if c = '\u212a' then 'k' else c.toLower

/-- A variable of the environment, if its name marks it as a setting. Letters count as lower case. -/
def ofEnvironment? (name text : String) : Option Variable :=
  let lower := name.toList.map lowerCase
  if mark.toList.isPrefixOf lower then some ⟨pathOf (lower.drop mark.length), text⟩ else none

/-- The truth value that a text stands for. -/
def flag? (text : String) : Option Bool :=
  let word := text.map Char.toLower
  if word ∈ ["1", "true", "on", "yes"] then some true
  else if word ∈ ["0", "false", "off", "no"] then some false
  else none

/-- The text of the last of some variables with a path. -/
def last? (given : List Variable) (path : List String) : Option String :=
  (given.reverse.find? fun v => v.path = path).map Variable.text

/-- The way to refresh caches that some variables give, if they give any. It is a word, or the only
key of a table. -/
def refresh? (given : List Variable) : Option (Option Refresh) :=
  let given := given.filter fun v => v.path.head? = some "cache_refresh"
  match given.reverse with
  | [] => some none
  | v :: _ =>
    let word := match v.path with
      | _ :: key :: _ => if given.all fun w => w.path[1]? = some key then some key else none
      | _ => some (v.text.map Char.toLower)
    (word >>= Refresh.ofWord?).map some

/-- The settings that some variables give. A truth value that cannot be read is as good as missing, but a
way to refresh caches has to be one. -/
def overlay? (given : List Variable) : Option Overlay := do
  return {
    updateGraph := last? given ["update_graph"] >>= flag?
    recomputeEagerly := last? given ["recompute_eagerly"] >>= flag?
    stopAtOverride := last? given ["stop_at_override"] >>= flag?
    cacheRefresh := ← refresh? given }

end Variable

/-- The settings that the texts of some files and the variables of an environment amount to. -/
def Settings.load? (files : List String) (environment : List (String × String)) : Option Settings := do
  let overlays ← files.mapM Overlay.ofText?
  let last ← Variable.overlay? (environment.filterMap fun (name, text) => Variable.ofEnvironment? name text)
  return (overlays ++ [last]).foldl Settings.override {}

end LiveForm
