import LiveForm.Proofs.Form.Driving
import Mathlib

/-!
# Levels or a circle

What determining the levels of a form returns, and how it fails. This does not depend on the order in which
the vertices and what they read are visited. Nothing is expected of the graph but that formulas read
vertices, so it may well have circles.
-/

set_option autoImplicit false

namespace LiveForm

open Relation

/-- A circle is reported from one of its nodes on. -/
theorem FormError.startAtLeast_turned (paths : List Path) :
    ∃ before after, paths = before ++ after ∧ startAtLeast paths = after ++ before := by
  unfold startAtLeast
  cases hnames : paths.map Path.render with
  | nil => exact ⟨[], [], List.map_eq_nil_iff.1 hnames, rfl⟩
  | cons first rest =>
    dsimp only
    generalize rest.foldl (fun a b => if b < a then b else a) first = least
    exact ⟨_, _, (List.prefix_iff_eq_append.1 (List.takeWhile_prefix _)).symm, rfl⟩

namespace Form

variable {f : Form} {order : SearchOrder} {circle : List NodeId}

/-- The formula of the second node reads the first one. -/
def Precedes (f : Form) (m n : NodeId) : Prop :=
  m ∈ f.graph.predecessors n

/-- The error for a circle names the nodes of one, each of which is read by the formula of the next one, and the
first of them again. -/
theorem exists_cycleError {R : NodeId → NodeId → Prop} (h : Graph.Circular R circle) :
    ∃ circle', Graph.Circular R circle' ∧
      f.cycleError circle = .cycle ((circle' ++ circle'.take 1).map f.tree.path) := by
  obtain ⟨before, after, hsplit, hturned⟩ := FormError.startAtLeast_turned (circle.map f.tree.path)
  obtain ⟨first, second, rfl, rfl, rfl⟩ := List.map_eq_append_iff.1 hsplit
  refine ⟨second ++ first, h.turned, ?_⟩
  rw [cycleError, FormError.ofCycle, hturned, ← List.map_append, ← List.map_take, ← List.map_append]

/-- If formulas read vertices only, then levels are determined exactly if no formula depends on itself. The level
of a vertex is the number of edges of the longest chain that ends at it, so it is greater than those of the fields
that its formula reads. Otherwise a circle is reported. -/
theorem leveled_or_circular (order : SearchOrder) (f : Form) (houtdated : f.graph.levels = none)
    (hinside : ∀ m n, f.Precedes m n → f.graph.contains m = true) :
    (succeeds (levelsBy order f) = true ↔ ∀ n, ¬ TransGen f.Precedes n n) ∧
    Ends (levelsBy order f)
      (fun levels g => g = { f with graph := { f.graph with levels := some levels } } ∧
        (∀ n, n ∈ levels ↔ f.graph.contains n = true) ∧
        (∀ n k, levels[n]? = some k → IsGreatest (Graph.chainLengths f.Precedes n) k) ∧
        ∀ m n, f.Precedes m n → ∃ j k, levels[m]? = some j ∧ levels[n]? = some k ∧ j < k)
      (fun e g => g = f ∧ ∃ circle, Graph.Circular f.Precedes circle ∧
        e = .cycle ((circle ++ circle.take 1).map f.tree.path)) := by
  have hrel : (fun m n => m ∈ f.graph.sources n) = f.Precedes := by
    funext m n
    exact propext (Graph.mem_sources.trans (and_iff_left_of_imp (hinside m n)))
  have hiff := Graph.exists_computeLevelsBy_iff order f.graph
  rw [hrel] at hiff
  unfold levelsBy
  rw [houtdated]
  cases hc : f.graph.computeLevelsBy order with
  | ok levels =>
    obtain ⟨hmem, hranked⟩ := Graph.ranked_of_computeLevelsBy hc
    have hlevel (n : NodeId) (hn : f.graph.contains n = true) : ∃ k, levels[n]? = some k :=
      Option.isSome_iff_exists.1 (Std.ExtTreeMap.mem_iff_isSome_getElem?.1 ((hmem n).2 hn))
    refine ⟨iff_of_true rfl (hiff.1 ⟨levels, hc⟩), rfl, hmem, fun n k hk => hrel ▸ hranked.isGreatest hk,
      fun m n hread => ?_⟩
    obtain ⟨k, hk⟩ := hlevel n (Graph.contains_of_predecessor hread)
    obtain ⟨j, hj, hlt⟩ := hranked.ascending n k hk m (Graph.mem_sources.2 ⟨hread, hinside m n hread⟩)
    exact ⟨j, k, hj, hk, hlt⟩
  | error circle =>
    have hcircle := Graph.circular_of_computeLevelsBy hc
    rw [hrel] at hcircle
    obtain ⟨n, hn⟩ := hcircle.transGen
    exact ⟨iff_of_false (by simp [succeeds]) fun h => h n hn, rfl, exists_cycleError hcircle⟩

/-- Two fields read each other, and only the levels are missing of the graph that is derived from them. -/
def unleveled : Form :=
  let f := Call.runAll [.openScope .updateGraph false, .edit (.insert 0 (.name "p") .field),
    .edit (.insert 0 (.name "q") .field), .edit (.setFormula 1 (some "ref /q")),
    .edit (.setFormula 2 (some "ref /p"))] (ofSettings {})
  (after ((anchors f.tree).forM fun entry => addFormula entry.1 entry.2)
    { f with graph := f.graph.outdated }).filled

theorem circular_while_deriving :
    unleveled.graph.levels = none ∧ (∀ m n, unleveled.Precedes m n → unleveled.graph.contains m = true) ∧
    ∃ circle, Graph.Circular unleveled.Precedes circle ∧ levelsBy .ascending unleveled =
      .error (.cycle ((circle ++ circle.take 1).map unleveled.tree.path)) unleveled := by
  have houtdated : unleveled.graph.levels = none := by
    have hisNone : unleveled.graph.levels.isNone = true := by cbv
    simpa using hisNone
  have hinside : ∀ m n, unleveled.Precedes m n → unleveled.graph.contains m = true := by
    have hall : (unleveled.graph.nodes.all fun n =>
        (unleveled.graph.predecessors n).toList.all unleveled.graph.contains) = true := by cbv
    intro m n hread
    have hn := List.all_eq_true.1 hall n (Graph.mem_nodes.2 (Graph.contains_of_predecessor hread))
    exact List.all_eq_true.1 hn m (Std.ExtTreeSet.mem_toList.2 hread)
  have hfails : succeeds (levelsBy .ascending unleveled) = false := by cbv
  refine ⟨houtdated, hinside, ?_⟩
  obtain ⟨-, hends⟩ := leveled_or_circular .ascending unleveled houtdated hinside
  obtain ⟨e, g, hrun⟩ := exists_error_of_fails hfails
  obtain ⟨rfl, circle, hcircle, rfl⟩ := hends.of_error hrun
  exact ⟨circle, hcircle, hrun⟩

end Form

end LiveForm
