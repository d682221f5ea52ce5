import LiveForm.Registry.Cache

/-!
# Settings

How a form works, not what it yields: when the dependency graph is updated, when formulas are recomputed,
and how the caches of selectors are kept up to date.
-/

set_option autoImplicit false

namespace LiveForm

/-- The settings of a form. -/
structure Settings where
  /-- Keep the dependency graph up to date with each edit. -/
  updateGraph : Bool := true
  /-- Recompute after each edit. -/
  recomputeEagerly : Bool := true
  /-- Do not recompute what lies behind a formula that a user has overridden. -/
  stopAtOverride : Bool := true
  cacheRefresh : Refresh := .incremental
deriving DecidableEq, Repr

end LiveForm
