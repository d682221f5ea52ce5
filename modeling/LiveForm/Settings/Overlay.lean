import LiveForm.Settings.Basic
import LiveForm.Toml.Printer

/-!
# Settings in files

A settings file is a TOML document that gives some of the settings and leaves the others as they are. What
it holds besides is ignored.
-/

set_option autoImplicit false

namespace LiveForm

/-- The word for a way to refresh caches. -/
def Refresh.word : Refresh → String
  | incremental => "incremental"
  | fromScratch => "from_scratch"

/-- The way to refresh caches that a word stands for. -/
def Refresh.ofWord? (word : String) : Option Refresh :=
  if word = "incremental" then some .incremental
  else if word = "from_scratch" then some .fromScratch
  else none

/-- Some of the settings. -/
structure Overlay where
  updateGraph : Option Bool := none
  recomputeEagerly : Option Bool := none
  stopAtOverride : Option Bool := none
  cacheRefresh : Option Refresh := none
deriving DecidableEq, Repr

namespace Overlay

/-- A truth value that can be missing, but cannot be anything else. -/
def flag? : Option Toml.Value → Option (Option Bool)
  | none => some none
  | some (.boolean b) => some (some b)
  | some _ => none

/-- A way to refresh caches that can be missing. It is given by its word, or by a table that holds
nothing but its word as a key of something empty. -/
def refresh? : Option Toml.Value → Option (Option Refresh)
  | none => some none
  | some (.text word) => (Refresh.ofWord? word).map some
  | some (.table [(word, .table [])]) => (Refresh.ofWord? word).map some
  | some (.table [(word, .array [])]) => (Refresh.ofWord? word).map some
  | some _ => none

/-- The settings that a table gives. -/
def ofToml? (t : Toml.Table) : Option Overlay := do
  return {
    updateGraph := ← flag? (t.lookup "update_graph")
    recomputeEagerly := ← flag? (t.lookup "recompute_eagerly")
    stopAtOverride := ← flag? (t.lookup "stop_at_override")
    cacheRefresh := ← refresh? (t.lookup "cache_refresh") }

/-- The settings that the text of a file gives. -/
def ofText? (text : String) : Option Overlay :=
  Toml.parse text >>= ofToml?

end Overlay

namespace Settings

/-- The settings with those of an overlay in their place. -/
def override (s : Settings) (o : Overlay) : Settings where
  updateGraph := o.updateGraph.getD s.updateGraph
  recomputeEagerly := o.recomputeEagerly.getD s.recomputeEagerly
  stopAtOverride := o.stopAtOverride.getD s.stopAtOverride
  cacheRefresh := o.cacheRefresh.getD s.cacheRefresh

/-- The settings as a table. -/
def toToml (s : Settings) : Toml.Table :=
  [("update_graph", .boolean s.updateGraph), ("recompute_eagerly", .boolean s.recomputeEagerly),
    ("stop_at_override", .boolean s.stopAtOverride), ("cache_refresh", .text s.cacheRefresh.word)]

/-- The settings as the text of a file. -/
def text (s : Settings) : String :=
  Toml.render s.toToml

/-- A settings file that gives none of the settings, and says what they are. -/
def template : String :=
  "# formgraph configuration
#
# Locations (by precedence, lowest to highest):
#   Global: ~/.config/formgraph/formgraph.toml
#   Local:  file passed with --config
#   Env:    FORMGRAPH_* environment variables (e.g. FORMGRAPH_CACHE_REFRESH=from_scratch)

# Maintain dependency edges on every tree mutation
# update_graph = true

# Recompute dependents right after each mutation
# recompute_eagerly = true

# Do not propagate a recompute past a field the user has overridden
# stop_at_override = true

# \"incremental\" drops dead matches only, \"from_scratch\" re-runs every selector
# cache_refresh = \"incremental\"
"

end Settings

end LiveForm
