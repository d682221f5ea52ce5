import LiveForm.Proofs.Graph.Exploring
import Mathlib.Order.Bounds.Basic

/-!
# Levels of a graph

Levels ascend along the edges, and there are levels exactly if no vertex depends on itself. The level of a
vertex is the length of the longest chain of readings that ends at it, so the levels depend on nothing but the
vertices and on what these read, whatever the order in which they are searched.
-/

set_option autoImplicit false

namespace LiveForm.Graph

open Relation

variable {g g' : Graph} {order order' : SearchOrder} {n m : NodeId} {k : Nat}
  {levels levels' : Std.ExtTreeMap NodeId Nat} {circle : List NodeId}

/-- The search returns the levels of all vertices, or else a circle. -/
theorem computeLevelsBy_spec (order : SearchOrder) (g : Graph) :
    match g.computeLevelsBy order with
    | .ok levels => (∀ n, n ∈ levels ↔ g.contains n = true) ∧ Ranked g levels
    | .error circle => Circular (fun m n => m ∈ g.sources n) circle :=
  (exploring_start order g).explore

theorem ranked_of_computeLevelsBy (h : g.computeLevelsBy order = .ok levels) :
    (∀ n, n ∈ levels ↔ g.contains n = true) ∧ Ranked g levels := by
  have hspec := computeLevelsBy_spec order g
  rw [h] at hspec
  exact hspec

theorem circular_of_computeLevelsBy (h : g.computeLevelsBy order = .error circle) :
    Circular (fun m n => m ∈ g.sources n) circle := by
  have hspec := computeLevelsBy_spec order g
  rw [h] at hspec
  exact hspec

/-- Levels ascend along the edges, and all vertices have one. -/
theorem ascending_of_computeLevels (h : g.computeLevels = .ok levels) :
    (∀ n, n ∈ levels ↔ g.contains n = true) ∧
      ∀ n k, levels[n]? = some k → ∀ m ∈ g.sources n, ∃ k', levels[m]? = some k' ∧ k' < k :=
  (ranked_of_computeLevelsBy h).imp_right Ranked.ascending

section Circles

/-- Levels ascend along a way of any length. -/
theorem Ranked.ascending_of_transGen (h : Ranked g levels) (hway : TransGen (fun m n => m ∈ g.sources n) m n)
    (hn : levels[n]? = some k) : ∃ k', levels[m]? = some k' ∧ k' < k := by
  induction hway generalizing k with
  | single hedge => exact h.ascending _ k hn _ hedge
  | tail _ hedge ih =>
    obtain ⟨k', hk', hlt⟩ := h.ascending _ k hn _ hedge
    obtain ⟨k'', hk'', hlt'⟩ := ih hk'
    exact ⟨k'', hk'', Nat.lt_trans hlt' hlt⟩

/-- There are levels exactly if no vertex depends on itself. -/
theorem exists_computeLevelsBy_iff (order : SearchOrder) (g : Graph) :
    (∃ levels, g.computeLevelsBy order = .ok levels) ↔ ∀ n, ¬ TransGen (fun m n => m ∈ g.sources n) n n := by
  constructor
  · rintro ⟨levels, h⟩ n hcircle
    obtain ⟨hmem, hranked⟩ := ranked_of_computeLevelsBy h
    obtain ⟨_, hread, -⟩ := TransGen.head'_iff.1 hcircle
    have hn := (hmem n).2 (mem_sources.1 hread).2
    obtain ⟨k, hk⟩ := Option.isSome_iff_exists.1 (Std.ExtTreeMap.mem_iff_isSome_getElem?.1 hn)
    obtain ⟨k', hk', hlt⟩ := hranked.ascending_of_transGen hcircle hk
    obtain rfl := Option.some.inj (hk.symm.trans hk')
    exact Nat.lt_irrefl _ hlt
  · intro h
    cases hc : g.computeLevelsBy order with
    | ok levels => exact ⟨levels, rfl⟩
    | error circle =>
      obtain ⟨n, hn⟩ := (circular_of_computeLevelsBy hc).transGen
      exact absurd hn (h n)

theorem exists_computeLevels (h : ∀ n, ¬ TransGen (fun m n => m ∈ g.sources n) n n) :
    ∃ levels, g.computeLevels = .ok levels :=
  (exists_computeLevelsBy_iff .ascending g).2 h

end Circles

section Chains

/-- The numbers of edges of the chains that end at a node, in which each node is related to the next one. -/
def chainLengths (R : NodeId → NodeId → Prop) (n : NodeId) : Set Nat :=
  {k | ∃ start : List NodeId, (start ++ [n]).IsChain R ∧ start.length = k}

/-- The level of a vertex is the length of the longest chain that ends at it. -/
theorem Ranked.isGreatest (h : Ranked g levels) (hk : levels[n]? = some k) :
    IsGreatest (chainLengths (fun m n => m ∈ g.sources n) n) k := by
  constructor
  · induction k generalizing n with
    | zero => exact ⟨[], .singleton n, rfl⟩
    | succ k ih =>
      obtain ⟨m, hm, hmk⟩ := h.tight n k hk
      obtain ⟨start, hchain, hlength⟩ := ih hmk
      refine ⟨start ++ [m], hchain.append (.singleton n) ?_, by simp [hlength]⟩
      simpa using hm
  · rintro _ ⟨start, hchain, rfl⟩
    induction start using List.reverseRecOn generalizing n k with
    | nil => exact Nat.zero_le k
    | append_singleton start m ih =>
      obtain ⟨hstart, -, hlast⟩ := List.isChain_append.1 hchain
      have hm : m ∈ g.sources n := hlast m (by simp) n (by simp)
      obtain ⟨k', hk', hlt⟩ := h.ascending n k hk m hm
      have hle : start.length ≤ k' := ih hk' hstart
      rw [List.length_append]
      exact Nat.lt_of_le_of_lt hle hlt

/-- Levels are determined by the vertices and what they read. -/
theorem Ranked.unique (h : Ranked g levels) (h' : Ranked g' levels') (hsources : ∀ n, g.sources n = g'.sources n)
    (hmem : ∀ n, n ∈ levels ↔ n ∈ levels') : levels = levels' := by
  have hrel : (fun m n => m ∈ g.sources n) = fun m n => m ∈ g'.sources n := by simp only [hsources]
  refine Std.ExtTreeMap.ext_getElem? fun n => ?_
  have hn := hmem n
  rw [Std.ExtTreeMap.mem_iff_isSome_getElem?, Std.ExtTreeMap.mem_iff_isSome_getElem?] at hn
  cases hk : levels[n]? with
  | none => simpa [hk] using hn
  | some k =>
    obtain ⟨k', hk'⟩ := Option.isSome_iff_exists.1 (hn.1 (hk ▸ rfl))
    have hgreatest := h.isGreatest hk
    rw [hrel] at hgreatest
    rw [hk', hgreatest.unique (h'.isGreatest hk')]

/-- Graphs with the same vertices and edges have the same levels, in whatever order these are searched. -/
theorem computeLevelsBy_congr (hpred : ∀ n, g.predecessors n = g'.predecessors n)
    (hcontains : ∀ n, g.contains n = g'.contains n) (h : g'.computeLevelsBy order' = .ok levels) :
    g.computeLevelsBy order = .ok levels := by
  have hsources (n : NodeId) : g.sources n = g'.sources n := by
    simp only [sources, hpred n, funext hcontains]
  obtain ⟨levels', hlevels'⟩ : ∃ levels', g.computeLevelsBy order = .ok levels' := by
    rw [exists_computeLevelsBy_iff]
    simpa only [hsources] using (exists_computeLevelsBy_iff order' g').1 ⟨levels, h⟩
  obtain ⟨hmem, hranked⟩ := ranked_of_computeLevelsBy h
  obtain ⟨hmem', hranked'⟩ := ranked_of_computeLevelsBy hlevels'
  rw [hlevels', hranked'.unique hranked hsources fun n => by rw [hmem', hmem, hcontains]]

theorem computeLevels_congr (hpred : ∀ n, g.predecessors n = g'.predecessors n)
    (hcontains : ∀ n, g.contains n = g'.contains n) (h : g'.computeLevels = .ok levels) :
    g.computeLevels = .ok levels :=
  computeLevelsBy_congr hpred hcontains h

end Chains

theorem nodes_congr (hcontains : ∀ n, g.contains n = g'.contains n) : g.nodes = g'.nodes := by
  have hmem (n : NodeId) : n ∈ g.nodes ↔ n ∈ g'.nodes := by
    rw [mem_nodes, mem_nodes, hcontains]
  exact List.Perm.eq_of_pairwise
    (fun a b _ _ (hab : compare a b = .lt) hba => absurd hba (Std.OrientedCmp.not_lt_of_lt hab))
    Std.ExtTreeMap.ordered_keys Std.ExtTreeMap.ordered_keys
    ((List.perm_ext_iff_of_nodup Std.ExtTreeMap.nodup_keys Std.ExtTreeMap.nodup_keys).2 hmem)

end LiveForm.Graph
