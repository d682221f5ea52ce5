import LiveForm.Registry.Basic

/-!
# Keeping the caches of bindings up to date

A cache is brought up to date in one of two ways: by matching the selector with the whole tree again,
or by dropping what no longer fits, where new fields have been reported on their own.
-/

set_option autoImplicit false

namespace LiveForm

/-- How a cache is brought up to date before it is read. -/
inductive Refresh where
  /-- Drop the nodes that no longer fit. -/
  | incremental
  /-- Match the selector with the tree again. -/
  | fromScratch
deriving DecidableEq, Repr

/-- The nodes by which two caches differ. -/
structure CacheDiff where
  added : NodeSet := ∅
  removed : NodeSet := ∅

/-- Whether nothing differs. -/
def CacheDiff.isEmpty (d : CacheDiff) : Bool :=
  d.added.isEmpty && d.removed.isEmpty

namespace Binding

/-- What the cache should hold. -/
def fresh (b : Binding) (t : FieldTree) : Refresh → NodeSet
  | .incremental => b.cache.filter (b.accepts t)
  | .fromScratch => .ofList (b.selector.fieldsBelow t b.base)

/-- How a set of nodes differs from the cache. -/
def diff (b : Binding) (fresh : NodeSet) : CacheDiff :=
  { added := fresh.filter (!b.cache.contains ·), removed := b.cache.filter (!fresh.contains ·) }

end Binding

namespace Registry

/-- What the cache of a binding should hold; nothing is changed. -/
def fresh? (r : Registry) (t : FieldTree) (id : BindingId) (mode : Refresh) : Option NodeSet :=
  (r.get? id).map (·.fresh t mode)

/-- How a set of nodes differs from the cache of a binding. -/
def diff (r : Registry) (id : BindingId) (fresh : NodeSet) : CacheDiff :=
  ((r.get? id).map (·.diff fresh)).getD {}

/-- Brings the cache of a binding up to date. Returns what has changed in it. -/
def refresh (r : Registry) (t : FieldTree) (id : BindingId) (mode : Refresh) :
    CacheDiff × Registry :=
  match r.get? id with
  | none => ({}, r)
  | some b =>
    let cache := b.fresh t mode
    (b.diff cache, r.modify id fun b => { b with cache })

end Registry

end LiveForm
