/-!
# Schedules

Two switches say how much work an edit of a form does at once: whether it keeps the dependency graph
up to date, and whether it recomputes the formulas it affects. Each is a stack. An operation may open
a scope in which a switch has another value; closing the scope brings back the value before.
-/

set_option autoImplicit false

namespace LiveForm

/-- A switch of the schedule. -/
inductive Switch where
  /-- Keep the dependency graph up to date with the tree. -/
  | updateGraph
  /-- Recompute what is pending right after each edit. -/
  | recomputeEagerly
deriving DecidableEq, Repr

/-- The value of a switch outside all scopes, and the values set by its open scopes, innermost
first. -/
structure SwitchStack where
  base : Bool
  scopes : List Bool := []
deriving DecidableEq, Repr

namespace SwitchStack

/-- The value that holds now: that of the innermost open scope. -/
def current (s : SwitchStack) : Bool :=
  s.scopes.head?.getD s.base

/-- The number of open scopes. -/
def depth (s : SwitchStack) : Nat :=
  s.scopes.length

/-- Opens a scope. -/
def push (s : SwitchStack) (value : Bool) : SwitchStack :=
  { s with scopes := value :: s.scopes }

/-- Closes the innermost scope, if one is open. -/
def pop (s : SwitchStack) : SwitchStack :=
  { s with scopes := s.scopes.tail }

end SwitchStack

/-- The stacks of the two switches. -/
structure Schedule where
  updateGraph : SwitchStack := { base := true }
  recomputeEagerly : SwitchStack := { base := true }
deriving DecidableEq, Repr

namespace Schedule

/-- A schedule without open scopes. -/
def ofValues (updateGraph recomputeEagerly : Bool) : Schedule :=
  { updateGraph := { base := updateGraph }, recomputeEagerly := { base := recomputeEagerly } }

/-- The stack of a switch. -/
def stack (s : Schedule) : Switch → SwitchStack
  | .updateGraph => s.updateGraph
  | .recomputeEagerly => s.recomputeEagerly

/-- Whether a switch is on. -/
def isSet (s : Schedule) (switch : Switch) : Bool :=
  (s.stack switch).current

/-- The number of open scopes of a switch. -/
def depth (s : Schedule) (switch : Switch) : Nat :=
  (s.stack switch).depth

/-- Opens a scope in which a switch has the given value. -/
def push (s : Schedule) (switch : Switch) (value : Bool) : Schedule :=
  match switch with
  | .updateGraph => { s with updateGraph := s.updateGraph.push value }
  | .recomputeEagerly => { s with recomputeEagerly := s.recomputeEagerly.push value }

/-- Closes the innermost scope of a switch. -/
def pop (s : Schedule) (switch : Switch) : Schedule :=
  match switch with
  | .updateGraph => { s with updateGraph := s.updateGraph.pop }
  | .recomputeEagerly => { s with recomputeEagerly := s.recomputeEagerly.pop }

end Schedule

/-- A state that a schedule is part of. -/
class Scheduled (σ : Type) where
  schedule : σ → Schedule
  withSchedule : σ → Schedule → σ

instance : Scheduled Schedule where
  schedule s := s
  withSchedule _ s := s

/-- Runs an action in a scope of its own, in which a switch has the given value. The scope is closed
on both ways out, when the action returns and when it fails. -/
def inScope {ε σ α : Type} [Scheduled σ] (switch : Switch) (value : Bool) (action : EStateM ε σ α) :
    EStateM ε σ α := fun s =>
  let close (s : σ) : σ := Scheduled.withSchedule s ((Scheduled.schedule s).pop switch)
  match action (Scheduled.withSchedule s ((Scheduled.schedule s).push switch value)) with
  | .ok a s => .ok a (close s)
  | .error e s => .error e (close s)

end LiveForm
