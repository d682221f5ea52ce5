/-!
# Searching a graph

Breadth-first search along the edges of a finite graph, which is given by the function that lists the
targets of a node's edges. A search keeps the list of the nodes that it has not come upon yet. Every
round takes nodes off that list, or else it is the last one.
-/

set_option autoImplicit false

namespace LiveForm.Search

variable {α : Type} [DecidableEq α]

/-- The members of a list that are among `targets`. -/
def among (targets unseen : List α) : List α :=
  unseen.filter (· ∈ targets)

/-- The members of a list that are not among `targets`. -/
def outside (targets unseen : List α) : List α :=
  unseen.filter (· ∉ targets)

/-- If some members of a list are targets, the others make a shorter list. -/
theorem length_outside_lt {targets unseen : List α} (h : among targets unseen ≠ []) :
    (outside targets unseen).length < unseen.length := by
  obtain ⟨a, ha⟩ := List.exists_mem_of_ne_nil _ h
  obtain ⟨hu, ht⟩ : a ∈ unseen ∧ a ∈ targets := by simpa [among] using ha
  rw [outside, List.length_filter_lt_length_iff_exists]
  exact ⟨a, hu, by simpa using ht⟩

/-- The nodes among `unseen` that some targets lead to, nearer ones first, those that are targets
themselves included. The search goes on from a node that it comes upon only if `passes` holds for it. -/
def reach (next : α → List α) (passes : α → Bool) (unseen targets : List α) : List α :=
  if among targets unseen = [] then []
  else
    among targets unseen ++
      reach next passes (outside targets unseen)
        (((among targets unseen).filter passes).flatMap next)
termination_by unseen.length
decreasing_by exact length_outside_lt (by assumption)

/-- The edges that lead on from the ends of some ways: the target of each, with the way that it prolongs.
A way is the list of its nodes, the last one first. -/
def prolongations (next : α → List α) (ways : List (List α)) : List (α × List α) :=
  ways.flatMap fun way =>
    match way with
    | [] => []
    | last :: _ => (next last).map fun target => (target, way)

/-- For each of some nodes, the first way that an edge prolongs to it, with the node itself. -/
def prolonged (edges : List (α × List α)) (nodes : List α) : List (List α) :=
  nodes.filterMap fun a => (edges.lookup a).map (a :: ·)

/-- The nodes that some edges lead to. -/
def targets (edges : List (α × List α)) : List α :=
  edges.map Prod.fst

/-- A shortest way to `target` that prolongs one of some ways by one of the given edges first, and by nodes
among `unseen`. The nodes of the way come last one first. -/
def shortestWay? (next : α → List α) (target : α) (unseen : List α) (edges : List (α × List α)) :
    Option (List α) :=
  if among (targets edges) unseen = [] then none
  else
    let ways := prolonged edges (among (targets edges) unseen)
    match ways.find? (·.head? = some target) with
    | some way => some way
    | none =>
      shortestWay? next target (outside (targets edges) unseen) (prolongations next ways)
termination_by unseen.length
decreasing_by exact length_outside_lt (by assumption)

/-- A shortest path from one node to another through the nodes among `unseen`. The path of a node to itself
consists of that node. -/
def path? (next : α → List α) (source target : α) (unseen : List α) : Option (List α) :=
  if source = target then some [source]
  else
    (shortestWay? next target unseen (prolongations next [[source]])).map List.reverse

/-- Removing a member makes a list shorter. -/
theorem length_erase_lt {a : α} {l : List α} (h : a ∈ l) : (l.erase a).length < l.length := by
  rw [List.length_erase_of_mem h]
  have := List.length_pos_of_mem h
  omega

end LiveForm.Search
