import LiveForm.Proofs.Form.Rejections

/-!
# What a recomputation touches

A recomputation follows the dependencies from the pending vertices on. It does not go on past a formula that a
user has overridden, unless that one is pending itself. The formulas that it comes upon that way are evaluated,
and nothing else changes.
-/

set_option autoImplicit false

namespace LiveForm.Form

variable {f g : Form} {m n : NodeId}

/-- A user has overridden the formula of a node. -/
def Overridden (f : Form) (n : NodeId) : Prop :=
  ∃ node, f.tree.get? n = some node ∧ node.isOverridden = true

/-- What is downstream of the pending vertices: these themselves, and all that depends on a node that is, unless
recomputing stops at that node. -/
inductive Downstream (f : Form) : NodeId → Prop where
  | pending {n : NodeId} (h : n ∈ f.pending) (hvertex : f.graph.contains n = true) : Downstream f n
  | dependent {m n : NodeId} (h : Downstream f m)
      (hpass : ¬ (f.stopAtOverride = true ∧ f.Overridden m ∧ m ∉ f.pending)) (hn : n ∈ f.dependents m) :
      Downstream f n

theorem passes_iff : f.passes n = true ↔ ¬ (f.stopAtOverride = true ∧ f.Overridden n) := by
  unfold passes Overridden
  cases hget : f.tree.get? n <;> cases f.stopAtOverride <;> simp

/-- The affected nodes are those downstream of the pending vertices. -/
theorem CoherentBut.mem_affected_seeds (h : Coherent f)
    (hplaced : ∀ n, f.graph.contains n = true → f.tree.contains n = true) :
    n ∈ f.affected f.seeds ↔ f.Downstream n := by
  have hseed {n : NodeId} (hn : n ∈ f.pending) (hvertex : f.graph.contains n = true) : n ∈ f.seeds :=
    mem_seeds.2 ⟨hn, hvertex, hplaced n hvertex⟩
  have hdownstream {n : NodeId} (hn : n ∈ f.seeds) : f.Downstream n := by
    obtain ⟨hpending, hvertex, -⟩ := mem_seeds.1 hn
    exact .pending hpending hvertex
  constructor
  · intro hn
    rcases mem_affected.1 hn with hs | hr
    · exact hdownstream hs
    · have hreached := Search.reached_of_mem_reach hr
      clear hn hr
      induction hreached with
      | target ht =>
        obtain ⟨m, hm, hdep⟩ := List.mem_flatMap.1 ht
        rw [Std.ExtTreeSet.mem_toList] at hm
        exact (hdownstream hm).dependent (fun hstop => hstop.2.2 (mem_seeds.1 hm).1) hdep
      | step _ hpass hdep ih =>
        exact ih.dependent (fun hstop => passes_iff.1 hpass ⟨hstop.1, hstop.2.1⟩) hdep
  · intro hn
    induction hn with
    | pending hn hvertex => exact mem_affected.2 (.inl (hseed hn hvertex))
    | @dependent m n _ hpass hn ih =>
      have hfeeds := h.mem_dependents.1 hn
      refine h.affected_of_feeds ih ?_ hfeeds
      by_cases hm : m ∈ f.pending
      · exact .inl (hseed hm (h.contains_of_feeds hfeeds))
      · exact .inr (passes_iff.2 fun hstop => hpass ⟨hstop.1, hstop.2, hm⟩)

/-- The vertices of a settled form are nodes of its tree. -/
theorem Settled.tree_contains (h : Settled f) (hn : f.graph.contains n = true) : f.tree.contains n = true := by
  obtain ⟨q, hq⟩ : ∃ q, f.tree.place? n = some q := by
    rcases h.coherent.tidy.contains_iff.1 hn with hF | ⟨id, hid⟩
    · obtain ⟨F, hF⟩ := Option.isSome_iff_exists.1 hF
      obtain ⟨q, hq, -⟩ := h.current.place?_of_formula? hF
      exact ⟨q, hq⟩
    · obtain ⟨q, hq, -⟩ := h.current.place?_of_caches ((h.coherent.successors id n).1 hid).1
      exact ⟨q, hq⟩
  rw [FieldTree.contains_eq, hq]
  rfl

theorem Cleared.feeds_iff (h : Cleared f g) : g.Feeds m n ↔ f.Feeds m n := by
  unfold Feeds Graph.Uses Graph.formula? Graph.get?
  rw [h.registry, h.vertices]

/-- A settled form is recomputed, whatever is pending: the formulas downstream of the pending vertices are evaluated,
each of them once and after those that it reads. -/
theorem Settled.recomputes_downstream (h : Settled f) (order : VisitOrder) :
    ∃ f₀ report g, Form.recomputePendingBy order f = .ok report g ∧ Cleared f f₀ ∧ Valued f₀ g report.evaluated ∧
      report.evaluated.Nodup ∧ report.evaluated.Pairwise (fun a b => b ∉ f.graph.predecessors a) ∧
      ∀ n, n ∈ report.evaluated ↔ (f.graph.formula? n).isSome ∧ f.Downstream n := by
  obtain ⟨f₀, report, g, hrun, hclear, hreported, hevaluated⟩ := h.tracking.recomputePendingBy order
  refine ⟨f₀, report, g, hrun, hclear, hreported.valued, hreported.nodup, ?_, fun n => ?_⟩
  · refine hreported.ordered.imp fun hab hread => hab ?_
    exact hclear.feeds_iff.2 ((h.coherent.reads _ not_false _).1 hread)
  · rw [hevaluated, h.coherent.mem_affected_seeds fun _ => h.tree_contains, and_comm (a := f.Downstream n)]
    refine and_congr_left fun _ => and_iff_right_of_imp fun hF => ?_
    obtain ⟨F, hF⟩ := Option.isSome_iff_exists.1 hF
    exact h.tree_contains (Graph.contains_of_formula? hF)

/-- A form whose graph is the one that is derived from its tree is recomputed, whatever is pending. The formulas
that are evaluated are those downstream of the pending vertices, each of them once and after those that it reads.
Then nothing is pending, and the form differs from the one before in the values of these formulas only. -/
theorem evaluates_downstream (hf : Faithful f) (pending : NodeSet) (order : VisitOrder) :
    ∃ report g, recomputePendingBy order { f with pending } = .ok report g ∧
      report.evaluated.Nodup ∧ report.evaluated.Pairwise (fun a b => b ∉ f.graph.predecessors a) ∧
      (∀ n, n ∈ report.evaluated ↔ (f.graph.formula? n).isSome ∧ Downstream { f with pending } n) ∧
      (∀ n ∈ report.evaluated, g.Evaluated n) ∧ g.pending = ∅ ∧
      (∀ n, n ∉ report.evaluated → g.tree.formulaValue? n = f.tree.formulaValue? n) ∧
      (∀ n, (g.tree.get? n).map Node.value = (f.tree.get? n).map Node.value) ∧ g.tree.blank = f.tree.blank := by
  have hsettled : Settled { f with pending } := hf.sound.settled.congr rfl rfl rfl hf.sound.settled.levels
  obtain ⟨f₀, report, g, hrun, hclear, hvalued, hnodup, hordered, hevaluated⟩ := hsettled.recomputes_downstream order
  have htree : f₀.tree = f.tree := hclear.beside.tree
  have hblank : g.tree.blank = f.tree.blank := htree ▸ hvalued.blank
  have hpending : g.pending = ∅ := by
    rw [hvalued.same]
    exact hclear.pending
  refine ⟨report, g, hrun, hnodup, hordered, hevaluated, hvalued.evaluated, hpending, fun n hn => ?_,
    FieldTree.value_of_blank hblank, hblank⟩
  exact FieldTree.formulaValue?_congr ((hvalued.others n hn).trans (by rw [htree]))

/-- A field is read by another one, whose formula is overridden, and this one by a third. -/
def overriding : Form :=
  Edit.runAll [.addField "" "a" .field none, .addField "" "b" .field (some "ref /a"),
    .addField "" "c" .field (some "ref /b"), .setValue "/b" (.int 5)] (ofSettings {})

/-- When the first field is pending, the second formula is evaluated, but not the third. -/
theorem evaluates_up_to_override :
    Faithful overriding ∧ ∃ report g,
      recomputePendingBy .ascending { overriding with pending := .ofList [1] } = .ok report g ∧
        report.evaluated = [2] ∧
        ∀ n, n ∈ report.evaluated ↔
          (overriding.graph.formula? n).isSome ∧ Downstream { overriding with pending := .ofList [1] } n := by
  have hfaithful : Faithful overriding :=
    Tended.faithful (Reached.runAll (.created rfl) ⟨trivial, trivial, trivial, trivial, trivial⟩)
  have hreport : (match recomputePendingBy .ascending { overriding with pending := .ofList [1] } with
      | .ok report _ => report.evaluated
      | .error .. => []) = [2] := by cbv
  obtain ⟨report, g, hrun, -, -, hevaluated, -⟩ := evaluates_downstream hfaithful (.ofList [1]) .ascending
  rw [hrun] at hreport
  exact ⟨hfaithful, report, g, hrun, hreport, hevaluated⟩

end LiveForm.Form
