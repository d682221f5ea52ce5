import LiveForm.Registry.Binding

/-!
# The registry of selectors

All bindings that the formulas of a form use. A binding comes into being with its first consumer and
goes with its last one. It is found by the text of its selector and the path of its base, and no two
bindings agree in both.
-/

set_option autoImplicit false

namespace LiveForm

/-- The bindings in use. -/
structure Registry where
  bindings : Std.ExtTreeMap BindingId Binding := ∅
  /-- The seats that bindings have left, the last one first. -/
  vacated : List Nat := []
  /-- The serial number of the next binding. -/
  serial : Nat := 0

namespace Registry

/-- The number of bindings. -/
def size (r : Registry) : Nat :=
  r.bindings.size

/-- Whether there is no binding. -/
def isEmpty (r : Registry) : Bool :=
  r.bindings.isEmpty

/-- The binding with a handle. -/
def get? (r : Registry) (id : BindingId) : Option Binding :=
  r.bindings[id]?

/-- All handles, in the order of the seats. -/
def ids (r : Registry) : List BindingId :=
  r.bindings.keys

/-- Changes the data of one binding. -/
def modify (r : Registry) (id : BindingId) (f : Binding → Binding) : Registry :=
  { r with bindings := r.bindings.modify id f }

/-- The nodes whose formulas use a binding. -/
def consumersOf (r : Registry) (id : BindingId) : List NodeId :=
  ((r.get? id).map (·.consumers.toList)).getD []

/-- The binding of a selector, given by its text, and a base, given by its path. -/
def lookup? (r : Registry) (source : String) (basePath : Path) : Option BindingId :=
  (r.bindings.toList.find? fun entry => entry.2.isKeyed source basePath).map Prod.fst

/-- The bindings whose selectors stand for a node, in the order of the seats. -/
def accepting (r : Registry) (t : FieldTree) (candidate : NodeId) : List BindingId :=
  (r.bindings.toList.filter fun entry => entry.2.accepts t candidate).map Prod.fst

/-- The seat for the next binding: the one left last, or a new one if none is vacant. -/
def nextSeat (r : Registry) : Nat :=
  r.vacated.headD (r.bindings.size + r.vacated.length)

/-- Adds a binding. -/
def add (r : Registry) (binding : Binding) : BindingId × Registry :=
  let id : BindingId := { seat := r.nextSeat, serial := r.serial }
  (id, { bindings := r.bindings.insert id binding, vacated := r.vacated.tail,
         serial := r.serial + 1 })

/-- Makes `consumer` a user of the selector `source` as it is understood at the node `anchor`. Returns
the binding, and whether it is a new one. A new binding has an empty cache. -/
def acquire (r : Registry) (t : FieldTree) (source : String) (anchor consumer : NodeId) :
    Except FormError ((BindingId × Bool) × Registry) :=
  match Selector.parse source with
  | .error fault => .error (.invalidSelector source fault)
  | .ok selector =>
    let base := selector.base t anchor
    let basePath := t.path base
    match r.lookup? source basePath with
    | some id =>
      .ok ((id, false), r.modify id fun b => { b with consumers := b.consumers.insert consumer })
    | none =>
      let (id, r) := r.add { selector, base, basePath, consumers := {consumer} }
      .ok ((id, true), r)

/-- Makes `consumer` a user of a binding no longer. If nobody else uses the binding it is removed, and
returned. -/
def release (r : Registry) (id : BindingId) (consumer : NodeId) : Option Binding × Registry :=
  match r.get? id with
  | none => (none, r)
  | some b =>
    let b := { b with consumers := b.consumers.erase consumer }
    if b.consumers.isEmpty then
      (some b, { r with bindings := r.bindings.erase id, vacated := id.seat :: r.vacated })
    else (none, r.modify id fun _ => b)

/-- The bindings that follow when the node at the first path moves to the second one: all that are based
there, but for those whose selector has a binding at the new path already. -/
def followers (r : Registry) (old new : Path) : List BindingId :=
  if old = new then []
  else (r.bindings.toList.filter fun entry =>
    entry.2.basePath = old && (r.lookup? entry.2.selector.source new).isNone).map Prod.fst

/-- Tells the registry that the node at the first path has moved to the second one. -/
def rekey (r : Registry) (old new : Path) : Registry :=
  (r.followers old new).foldl (fun r id => r.modify id fun b => { b with basePath := new }) r

end Registry

end LiveForm
