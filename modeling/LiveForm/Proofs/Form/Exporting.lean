import LiveForm.Proofs.Form.Correspondence
import LiveForm.Proofs.Form.Driving
import Mathlib

/-!
# The listing of the graph

The text of the dependency graph has a line for each edge, and then one for each formula that reads no field. The lines for
the edges come in an order in which a formula is evaluated after what it reads.
-/

set_option autoImplicit false

namespace LiveForm

namespace Form

variable {f : Form} {levels : Std.ExtTreeMap NodeId Nat} {nodes : List NodeId} {m n : NodeId}

section Text

/-- The line for an edge, from a field to the formula that reads it. -/
def edgeLine (f : Form) (edge : NodeId × NodeId) : String :=
  (f.tree.path edge.1).render ++ " -> " ++ (f.tree.path edge.2).render

/-- The text with lines for some edges, and then lines for some formulas. -/
def listing (f : Form) (edges : List (NodeId × NodeId)) (roots : List NodeId) : String :=
  String.join ((edges.map f.edgeLine ++ roots.map fun node => (f.tree.path node).render).map (· ++ "\n"))

/-- The edges in the order of their lines. -/
def edgesAt (f : Form) (levels : Std.ExtTreeMap NodeId Nat) : List (NodeId × NodeId) :=
  (f.byLevel levels f.graph.formulaNodes).flatMap fun n =>
    (f.tree.inMatchOrder (f.graph.predecessors n).toList).map fun m => (m, n)

/-- The formulas that read no field, in the order of their lines. -/
def rootsAt (f : Form) (levels : Std.ExtTreeMap NodeId Nat) : List NodeId :=
  (f.byLevel levels f.graph.formulaNodes).filter fun n => (f.graph.predecessors n).isEmpty

theorem textAt_eq : f.textAt levels = f.listing (f.edgesAt levels) (f.rootsAt levels) := by
  have hlines : (f.edgesAt levels).map f.edgeLine = (f.byLevel levels f.graph.formulaNodes).flatMap f.edgeLines := by
    rw [edgesAt, List.map_flatMap]
    refine congrArg (List.flatMap · _) (funext fun n => ?_)
    rw [List.map_map, edgeLines]
    rfl
  rw [listing, hlines]
  rfl

end Text

section Order

theorem perm_byLevel : (f.byLevel levels nodes).Perm nodes :=
  (List.mergeSort_perm _ _).trans (f.tree.perm_inMatchOrder nodes)

theorem pairwise_byLevel : (f.byLevel levels nodes).Pairwise fun a b => levels.getD a 0 ≤ levels.getD b 0 :=
  pairwise_mergeSort_le (levels.getD · 0) _

theorem mem_edgesAt : (m, n) ∈ f.edgesAt levels ↔ (f.graph.formula? n).isSome ∧ m ∈ f.graph.predecessors n := by
  simp only [edgesAt, List.mem_flatMap, List.mem_map, perm_byLevel.mem_iff, FieldTree.mem_inMatchOrder,
    Std.ExtTreeSet.mem_toList, Prod.mk.injEq, Graph.mem_formulaNodes]
  constructor
  · rintro ⟨n, hn, m, hm, rfl, rfl⟩
    exact ⟨hn, hm⟩
  · rintro ⟨hn, hm⟩
    exact ⟨n, hn, m, hm, rfl, rfl⟩

theorem mem_rootsAt : n ∈ f.rootsAt levels ↔ (f.graph.formula? n).isSome ∧ ∀ m, m ∉ f.graph.predecessors n := by
  rw [rootsAt, List.mem_filter, perm_byLevel.mem_iff, Graph.mem_formulaNodes, Std.ExtTreeSet.isEmpty_iff,
    Std.ExtTreeSet.eq_empty_iff_forall_not_mem]

theorem nodup_edgesAt : (f.edgesAt levels).Nodup := by
  refine List.nodup_flatMap.2 ⟨fun n _ => ?_, ?_⟩
  · refine List.Nodup.map (fun a b hab => congrArg Prod.fst hab) ?_
    exact (f.tree.perm_inMatchOrder _).nodup_iff.2 (nodup_toList _)
  · refine (perm_byLevel.nodup_iff.2 f.graph.nodup_formulaNodes).imp ?_
    intro n n' hne e he he'
    obtain ⟨m, -, rfl⟩ := List.mem_map.1 he
    obtain ⟨m', -, heq⟩ := List.mem_map.1 he'
    exact hne (congrArg Prod.snd heq).symm

theorem nodup_rootsAt : (f.rootsAt levels).Nodup :=
  (perm_byLevel.nodup_iff.2 f.graph.nodup_formulaNodes).filter _

/-- No edge comes from the formula that it leads to, nor from one that a later edge leads to. -/
theorem pairwise_edgesAt (h : Consistent f) (hlevels : f.graph.computeLevels = .ok levels) :
    (f.edgesAt levels).Pairwise fun e e' => levels.getD e.1 0 < levels.getD e'.2 0 := by
  have hlt {m n : NodeId} (hm : m ∈ f.graph.predecessors n) : levels.getD m 0 < levels.getD n 0 :=
    h.coherent.level_lt hlevels ((h.coherent.reads n not_false m).1 hm)
  refine List.pairwise_flatMap.2 ⟨fun n _ => ?_, pairwise_byLevel.imp fun hle e he e' he' => ?_⟩
  · refine List.pairwise_map.2 (List.pairwise_of_forall_mem_list fun m hm _ _ => hlt ?_)
    exact Std.ExtTreeSet.mem_toList.1 (FieldTree.mem_inMatchOrder.1 hm)
  · obtain ⟨m, hm, rfl⟩ := List.mem_map.1 he
    obtain ⟨m', -, rfl⟩ := List.mem_map.1 he'
    exact Nat.lt_of_lt_of_le (hlt (Std.ExtTreeSet.mem_toList.1 (FieldTree.mem_inMatchOrder.1 hm))) hle

end Order

/-- What the lines of a listing stand for: there is one for each edge, and one for each formula that reads no field. An edge
to a node comes before all those from it. -/
structure Lists (f : Form) (edges : List (NodeId × NodeId)) (roots : List NodeId) : Prop where
  edges_nodup : edges.Nodup
  mem_edges : ∀ m n, (m, n) ∈ edges ↔ (f.graph.formula? n).isSome ∧ m ∈ f.graph.predecessors n
  roots_nodup : roots.Nodup
  mem_roots : ∀ n, n ∈ roots ↔ (f.graph.formula? n).isSome ∧ ∀ m, m ∉ f.graph.predecessors n
  ordered : ∀ (i j : Nat) (m x n : NodeId), edges[i]? = some (m, x) → edges[j]? = some (x, n) → i < j
  /-- The nodes are named by their paths, so that no line stands for two edges. -/
  named : f.tree.Keyed → (edges.map fun e => (f.tree.path e.1, f.tree.path e.2)).Nodup ∧ (roots.map f.tree.path).Nodup

/-- Edges that ascend come in an order that follows them. -/
theorem lt_of_ascending {edges : List (NodeId × NodeId)} (level : NodeId → Nat)
    (hpairwise : edges.Pairwise fun e e' => level e.1 < level e'.2) (hlt : ∀ e ∈ edges, level e.1 < level e.2)
    {i j : Nat} {x : NodeId} (hi : edges[i]? = some (m, x)) (hj : edges[j]? = some (x, n)) : i < j := by
  obtain ⟨hi', hm⟩ := List.getElem?_eq_some_iff.1 hi
  obtain ⟨hj', hn⟩ := List.getElem?_eq_some_iff.1 hj
  rcases Nat.lt_trichotomy i j with hij | rfl | hji
  · exact hij
  · -- an edge from a node to itself would not ascend
    obtain ⟨rfl, rfl⟩ := Prod.mk.inj (Option.some.inj (hi.symm.trans hj))
    exact absurd (hlt _ (List.mem_of_getElem? hi)) (Nat.lt_irrefl _)
  · have hlevels := List.pairwise_iff_getElem.1 hpairwise j i hj' hi' hji
    rw [hm, hn] at hlevels
    exact absurd hlevels (Nat.lt_irrefl _)

/-- Where graph and registry agree and all vertices are in the tree, the graph has a listing. It has a line for each field
that a formula reads, and then one for each formula that reads none. The edges to a node come before those from it. -/
theorem graphText_lists (h : Consistent f) (hplaced : ∀ n, f.graph.contains n = true → f.tree.contains n = true) :
    ∃ edges roots g, graphText f = .ok (f.listing edges roots) g ∧ f.Lists edges roots := by
  obtain ⟨levels, hcompute, hlevels⟩ := h.levels_ok
  have hfeeds {m n : NodeId} (hm : m ∈ f.graph.predecessors n) : f.Feeds m n := (h.coherent.reads n not_false m).1 hm
  have hvertex {n : NodeId} (hn : (f.graph.formula? n).isSome) : f.tree.contains n = true := by
    obtain ⟨F, hF⟩ := Option.isSome_iff_exists.1 hn
    exact hplaced n (Graph.contains_of_formula? hF)
  refine ⟨f.edgesAt levels, f.rootsAt levels, _, (graphText_eq hlevels).trans (by rw [textAt_eq]), ?_⟩
  refine ⟨nodup_edgesAt, fun _ _ => mem_edgesAt, nodup_rootsAt, fun _ => mem_rootsAt, fun i j m x n hi hj => ?_, fun ht => ⟨?_, ?_⟩⟩
  · refine lt_of_ascending (levels.getD · 0) (pairwise_edgesAt h hcompute) (fun e he => ?_) hi hj
    exact h.coherent.level_lt hcompute (hfeeds (mem_edgesAt.1 he).2)
  · refine nodup_edgesAt.map_on fun e he e' he' heq => ?_
    obtain ⟨hn, hm⟩ := mem_edgesAt.1 he
    obtain ⟨hn', hm'⟩ := mem_edgesAt.1 he'
    obtain ⟨hfirst, hsecond⟩ := Prod.mk.inj heq
    refine Prod.ext (FieldTree.path_injOn ht ?_ ?_ hfirst) (FieldTree.path_injOn ht (hvertex hn) (hvertex hn') hsecond)
    · exact hplaced _ (h.coherent.contains_of_feeds (hfeeds hm))
    · exact hplaced _ (h.coherent.contains_of_feeds (hfeeds hm'))
  · exact nodup_rootsAt.map_on fun x hx y hy => FieldTree.path_injOn ht (hvertex (mem_rootsAt.1 hx).1) (hvertex (mem_rootsAt.1 hy).1)

/-- Fields that read each other in turn. The formula of the last one reads no field. -/
def chained : Form :=
  Call.runAll [.edit (.insert 0 (.name "c") .field), .edit (.insert 0 (.name "b") .field),
    .edit (.insert 0 (.name "a") .field), .register 1 (some "ref /b"), .register 2 (some "ref /a"),
    .register 3 (some "sum 1 2")] (ofSettings { recomputeEagerly := false })

theorem chained_lists : ∃ edges roots g, graphText chained = .ok (chained.listing edges roots) g ∧
    chained.Lists edges roots ∧ (3, 2) ∈ edges ∧ (2, 1) ∈ edges ∧ 3 ∈ roots := by
  have hconsistent : Consistent chained := ((Drivable.ofSettings _).runAll _).consistent
  have hshape : (chained.graph.nodes.all chained.tree.contains &&
      ((chained.graph.formula? 1).isSome && (chained.graph.predecessors 1).contains 2) &&
      ((chained.graph.formula? 2).isSome && (chained.graph.predecessors 2).contains 3) &&
      ((chained.graph.formula? 3).isSome && (chained.graph.predecessors 3).isEmpty)) = true := by cbv
  simp only [Bool.and_eq_true] at hshape
  obtain ⟨⟨⟨hplaced, hc⟩, hb⟩, ha, hnone⟩ := hshape
  obtain ⟨edges, roots, g, hrun, hlists⟩ := graphText_lists hconsistent fun n hn =>
    List.all_eq_true.1 hplaced n (Graph.mem_nodes.2 hn)
  refine ⟨edges, roots, g, hrun, hlists, (hlists.mem_edges 3 2).2 hb, (hlists.mem_edges 2 1).2 hc,
    (hlists.mem_roots 3).2 ⟨ha, fun m => ?_⟩⟩
  exact Std.ExtTreeSet.eq_empty_iff_forall_not_mem.1 (Std.ExtTreeSet.isEmpty_iff.1 hnone) m

end Form

end LiveForm
