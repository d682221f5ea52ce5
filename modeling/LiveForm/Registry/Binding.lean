import LiveForm.Selector.Match
import Std.Data.ExtTreeMap
import Std.Data.ExtTreeSet

/-!
# Bound selectors

A selector bound to the node that it is applied to. Formulas that use the same selector at the same
base share one binding, and with it one cache of the fields that the selector stands for.
-/

set_option autoImplicit false

namespace LiveForm

/-- A set of nodes. -/
abbrev NodeSet := Std.ExtTreeSet NodeId

/-- The handle of a binding. Bindings are listed by their seats. A seat is taken again once its binding
is gone, whereas no two bindings ever have the same serial number. -/
structure BindingId where
  seat : Nat
  serial : Nat
deriving DecidableEq, Repr

namespace BindingId

/-- By the seat, then by the serial number. -/
protected def compare : BindingId → BindingId → Ordering :=
  compareLex (compareOn seat) (compareOn serial)

instance : Ord BindingId where
  compare := BindingId.compare

instance : Std.TransOrd BindingId :=
  inferInstanceAs (Std.TransCmp (compareLex (compareOn seat) (compareOn serial)))

instance : Std.LawfulEqOrd BindingId where
  eq_of_compare {a b} h := by
    have h : (compare a.seat b.seat).then (compare a.serial b.serial) = .eq := h
    rw [Ordering.then_eq_eq] at h
    obtain ⟨seat, serial⟩ := a
    simp_all

end BindingId

/-- A set of bindings. -/
abbrev BindingSet := Std.ExtTreeSet BindingId

/-- A selector and the node that it is applied to. -/
structure Binding where
  selector : Selector
  base : NodeId
  /-- The path of the base, as far as the registry has been told. -/
  basePath : Path
  /-- The fields that the selector stands for, as far as the registry has been told. -/
  cache : NodeSet := ∅
  /-- The nodes whose formulas use the binding. -/
  consumers : NodeSet := ∅

namespace Binding

/-- Whether the binding is the one of a selector, given by its text, and a base, given by its path. -/
def isKeyed (b : Binding) (source : String) (basePath : Path) : Bool :=
  b.selector.source = source && b.basePath = basePath

/-- Whether a node is one of the fields that the selector stands for. -/
def accepts (b : Binding) (t : FieldTree) (candidate : NodeId) : Bool :=
  b.selector.accepts t b.basePath candidate

/-- The cached fields that are still in the tree, in match order. -/
def readings (b : Binding) (t : FieldTree) : List NodeId :=
  t.inMatchOrder (b.cache.toList.filter t.contains)

/-- Puts a node into the cache. -/
def cacheNode (b : Binding) (node : NodeId) : Binding :=
  { b with cache := b.cache.insert node }

/-- Takes a node out of the cache. -/
def dropNode (b : Binding) (node : NodeId) : Binding :=
  { b with cache := b.cache.erase node }

end Binding

end LiveForm
