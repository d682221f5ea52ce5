import LiveForm.Proofs.Form.Downstream
import LiveForm.Proofs.Form.Ordering
import LiveForm.Proofs.Form.Registering

/-!
# Recomputing all again

A recomputation of all formulas brings all caches up to date, since each binding is used by some formula, and
evaluates all formulas of the tree. What the caches should hold does not depend on the values of formulas, and these
have their values in one way only, so nothing changes when all is recomputed again.
-/

set_option autoImplicit false

namespace LiveForm.Form

variable {f g : Form} {n m : NodeId} {id : BindingId} {order : VisitOrder} {report : Report} {b : Binding}

section Caches

/-- What a cache should hold does not depend on the values of formulas. -/
theorem fresh_of_blank {t t' : FieldTree} (hblank : t'.blank = t.blank) (b : Binding) (mode : Refresh) :
    b.fresh t' mode = b.fresh t mode := by
  refine Std.ExtTreeSet.ext_mem fun m => ?_
  cases mode with
  | incremental =>
    have haccepts : b.accepts t' m = b.accepts t m :=
      Bool.eq_iff_iff.2 ⟨Selector.accepts_of_blank hblank.symm, Selector.accepts_of_blank hblank⟩
    simp [Binding.fresh, haccepts]
  | fromScratch =>
    simp only [Binding.fresh, Std.ExtTreeSet.mem_ofList, List.contains_iff_mem]
    exact ⟨Selector.mem_fieldsBelow_of_blank hblank.symm, Selector.mem_fieldsBelow_of_blank hblank⟩

theorem mem_bindingsUsed {nodes : NodeSet} : id ∈ f.bindingsUsed nodes ↔ ∃ n ∈ nodes, f.graph.Uses n id := by
  simp only [bindingsUsed, Std.ExtTreeSet.mem_ofList, List.contains_iff_mem, List.mem_flatMap,
    Std.ExtTreeSet.mem_toList, Graph.Uses]
  refine exists_congr fun n => and_congr_right fun _ => ?_
  cases f.graph.formula? n <;> simp

/-- If all formulas are affected then all bindings are brought up to date. -/
theorem CoherentBut.mem_due (h : Coherent f) (hall : ∀ n, (f.graph.formula? n).isSome → n ∈ f.affected f.seeds)
    (hb : f.registry.get? id = some b) : id ∈ f.due := by
  obtain ⟨n, hn⟩ := h.used id b hb
  have huse : f.graph.Uses n id := ((h.consumers id n).1 ⟨b, hb, hn⟩).resolve_right not_false
  have ⟨F, hF, _⟩ := huse
  exact Std.ExtTreeSet.mem_toList.2 (mem_bindingsUsed.2 ⟨n, hall n (by rw [hF]; rfl), huse⟩)

end Caches

/-- All caches are up to date, all formulas have been evaluated, and the levels are known unless there are no formulas. -/
structure Complete (f : Form) : Prop where
  consistent : Consistent f
  handled : f.tree.Handled
  pending : f.pending = ∅
  fresh : ∀ id b, f.registry.get? id = some b → b.fresh f.tree f.cacheRefresh = b.cache
  evaluated : ∀ n, (f.graph.formula? n).isSome → f.Evaluated n
  leveled : f.graph.formulaNodes = [] ∨ ∃ levels, f.graph.levels = some levels

/-- If all nodes with formulas are in the tree, then a recomputation of all formulas follows up all of these. -/
theorem mem_affected_of_formula? (hplaced : ∀ n, (f.graph.formula? n).isSome → f.tree.contains n = true)
    (hn : (f.graph.formula? n).isSome) :
    n ∈ (f.addPending f.graph.formulaNodes).affected (f.addPending f.graph.formulaNodes).seeds := by
  obtain ⟨F, hF⟩ := Option.isSome_iff_exists.1 hn
  have hpending : n ∈ (f.addPending f.graph.formulaNodes).pending :=
    mem_addPending.2 (.inr (Graph.mem_formulaNodes.2 hn))
  exact mem_affected.2 (.inl (mem_seeds.2 ⟨hpending, Graph.contains_of_formula? hF, hplaced n hn⟩))

/-- A form without formulas is complete as soon as nothing is pending. -/
theorem Drivable.complete_of_blank (h : Drivable f) (hpending : f.pending = ∅)
    (hnone : ∀ n, ¬ (f.graph.formula? n).isSome) : Complete f where
  consistent := h.consistent
  handled := h.handled
  pending := hpending
  fresh id b hb := by
    obtain ⟨n, hn⟩ := h.consistent.coherent.used id b hb
    obtain ⟨F, hF, -⟩ := ((h.consistent.coherent.consumers id n).1 ⟨b, hb, hn⟩).resolve_right not_false
    exact absurd (by rw [hF]; rfl) (hnone n)
  evaluated n hn := absurd hn (hnone n)
  leveled := .inl (List.eq_nil_iff_forall_not_mem.2 fun n hn => hnone n (Graph.mem_formulaNodes.1 hn))

/-- A recomputation with something to follow up makes a form complete if it follows up all formulas. -/
theorem Concluded.complete (hconcluded : Concluded f order report g) (h : Drivable f) (hg : Consistent g)
    (hall : ∀ n, (f.graph.formula? n).isSome → n ∈ f.affected f.seeds)
    (hevaluated : ∀ n, (f.graph.formula? n).isSome → n ∈ report.evaluated) : Complete g := by
  obtain ⟨-, f₀, levels, hrefreshed, -, hreported, -⟩ := hconcluded
  have hvalued := hreported.valued
  have hclear : Coherent f.clearPending := h.consistent.coherent.congr rfl rfl
  have hbeside := hrefreshed.relinked.beside
  have hblank : g.tree.blank = f.tree.blank := hvalued.blank.trans (congrArg FieldTree.blank hbeside.tree)
  have hregistry : g.registry = f₀.registry := by rw [hvalued.same]; rfl
  have hrefresh : g.cacheRefresh = f.cacheRefresh := by
    rw [hvalued.same]
    exact hbeside.cacheRefresh
  have hformula (n : NodeId) : g.graph.formula? n = f.graph.formula? n := by
    rw [hvalued.same]
    exact hrefreshed.relinked.formula n
  constructor
  case consistent => exact hg
  case handled => exact h.handled.of_blank hblank
  case pending =>
    rw [hvalued.same]
    rfl
  case fresh =>
    intro id b hb
    rw [hregistry, hrefreshed.get?_eq hclear] at hb
    obtain ⟨b₀, hb₀, rfl⟩ := Option.map_eq_some_iff.1 hb
    -- Each binding has had its turn, and values of formulas do not matter to what its cache should hold.
    have hdue : id ∈ order.bindings f.due :=
      (order.bindings_perm _).mem_iff.2 (h.consistent.coherent.mem_due hall hb₀)
    have hcache : f.clearPending.cacheAfter (order.bindings f.due) id b₀ = b₀.fresh f.tree f.cacheRefresh :=
      if_pos hdue
    rw [hcache, hrefresh, fresh_of_blank hblank, Binding.fresh_fresh]
  case evaluated => exact fun n hn => hvalued.evaluated n (hevaluated n (hformula n ▸ hn))
  case leveled =>
    refine .inr ⟨levels, ?_⟩
    rw [hvalued.same]
    rfl

/-- A recomputation of all formulas makes a form complete if all nodes with formulas are in the tree. -/
theorem Drivable.complete (h : Drivable f) (hplaced : ∀ n, (f.graph.formula? n).isSome → f.tree.contains n = true)
    (hrun : recomputeAllBy order f = .ok report g) : Complete g ∧ report.evaluated.Nodup ∧
      ∀ n, n ∈ report.evaluated ↔ (g.graph.formula? n).isSome := by
  have hrun' : recomputePendingBy order (f.addPending f.graph.formulaNodes) = .ok report g := hrun
  have hf : Drivable (f.addPending f.graph.formulaNodes) :=
    ⟨h.consistent.congr rfl rfl h.consistent.levels, h.handled⟩
  have hall (n : NodeId) (hn : (f.graph.formula? n).isSome) := mem_affected_of_formula? hplaced hn
  cases hseeds : (f.addPending f.graph.formulaNodes).seeds.isEmpty with
  | true =>
    have hnone (n : NodeId) (hn : (f.graph.formula? n).isSome) : False := by
      have hin := hall n hn
      rw [Std.ExtTreeSet.isEmpty_iff.1 hseeds, affected_empty] at hin
      simp at hin
    rw [recomputePendingBy, if_pos hseeds] at hrun'
    obtain ⟨rfl, rfl⟩ := EStateM.Result.ok.inj hrun'
    have hclear : Drivable (f.addPending f.graph.formulaNodes).clearPending :=
      ⟨hf.consistent.congr rfl rfl hf.consistent.levels, hf.handled⟩
    exact ⟨hclear.complete_of_blank rfl hnone, .nil, fun n => iff_of_false (by simp) (hnone n)⟩
  | false =>
    have hconcluded : Concluded _ order report g := (hf.consistent.concluded hseeds order).of_ok hrun'
    have hevaluated (n : NodeId) (hn : (f.graph.formula? n).isSome) : n ∈ report.evaluated :=
      hf.consistent.evaluated_of_affected hrun' (hall n hn) (hplaced n hn) hn
    have hsteady := (Steady.recomputePendingBy _ (.start hf.consistent)).of_ok hrun'
    have hcomplete := hconcluded.complete hf hsteady.consistent hall hevaluated
    obtain ⟨-, f₀, levels, hrefreshed, -, hreported, heval⟩ := hconcluded
    have hgraph : g.graph = (f₀.leveled levels).graph := by
      rw [hreported.valued.same]
      rfl
    refine ⟨hcomplete, hreported.nodup, fun n => ⟨fun hn => ?_, fun hn => hevaluated n ?_⟩⟩
    · rw [heval, mem_evaluationOrder] at hn
      exact hgraph ▸ hn.2.2
    · rw [hgraph] at hn
      exact hrefreshed.relinked.formula n ▸ hn

section Again

theorem Complete.placed (h : Complete f) (hn : (f.graph.formula? n).isSome) : f.tree.contains n = true := by
  obtain ⟨F, q, -, hq, -⟩ := h.evaluated n hn
  rw [FieldTree.contains_eq, hq]
  rfl

theorem Complete.clearPending_addPending (h : Complete f) (nodes : List NodeId) :
    (f.addPending nodes).clearPending = f := by
  have hpending := h.pending
  calc (f.addPending nodes).clearPending
      = { f with pending := ∅ } := rfl
    _ = f := by rw [← hpending]

/-- A complete form is already what evaluating any of its formulas makes of it. -/
theorem Complete.unchanged (h : Complete f) (hreported : Reported f report g)
    (hformulas : ∀ n ∈ report.evaluated, (f.graph.formula? n).isSome) : g = f := by
  have hself : Reported f { report with changed := report.evaluated.countP (f.tree.differsAt f.tree) } f :=
    { valued := ⟨rfl, rfl, fun _ _ => rfl, fun n hn => h.evaluated n (hformulas n hn)⟩
      changed := rfl
      nodup := hreported.nodup
      ordered := hreported.ordered }
  exact (hself.agree hreported h.consistent h.handled (.refl _)).1

/-- Nothing changes when all formulas of a complete form are recomputed. Only the values that are not equal to themselves
count as changed. -/
theorem Complete.recomputeAllBy (h : Complete f) (order : VisitOrder) :
    ∃ report, Form.recomputeAllBy order f = .ok report f ∧
      report.changed = report.evaluated.countP (f.tree.differsAt f.tree) ∧ report.evaluated.Nodup ∧
      ∀ n, n ∈ report.evaluated ↔ (f.graph.formula? n).isSome := by
  have hcleared : (f.addPending f.graph.formulaNodes).clearPending = f := h.clearPending_addPending _
  -- Without formulas the levels may be unknown, and they stay so since nothing is followed up.
  rcases h.leveled with hnone | ⟨levels, hlevels⟩
  · have hseeds : (f.addPending f.graph.formulaNodes).seeds.isEmpty = true := by
      rw [Std.ExtTreeSet.isEmpty_iff, Std.ExtTreeSet.eq_empty_iff_forall_not_mem]
      intro n hn
      have hpending := (mem_seeds.1 hn).1
      rw [hnone, mem_addPending, h.pending] at hpending
      simp at hpending
    refine ⟨{}, ?_, rfl, .nil, fun n => iff_of_false (by simp) fun hn => ?_⟩
    · have hrun : recomputePendingBy order (f.addPending f.graph.formulaNodes) =
          .ok {} (f.addPending f.graph.formulaNodes).clearPending := by
        rw [recomputePendingBy, if_pos hseeds]
      rwa [hcleared] at hrun
    · have hmem := Graph.mem_formulaNodes.2 hn
      rw [hnone] at hmem
      simp at hmem
  · have hcurrent (id : BindingId) : Form.syncBy order f.cacheRefresh id f = .ok () f := by
      cases hb : f.registry.get? id with
      | none => exact syncBy_of_none hb order
      | some b => exact syncBy_of_current hb order fun m => by rw [h.fresh id b hb]
    have hcons : Consistent (f.addPending f.graph.formulaNodes) := h.consistent.congr rfl rfl h.consistent.levels
    obtain ⟨f₀, report, g, hrun, hclear, hreported, hevaluated⟩ :=
      hcons.recomputePendingBy_of_current order (hcleared.symm ▸ hcurrent)
    obtain rfl : f₀ = f := (hclear.eq hlevels).trans hcleared
    have hmem (n : NodeId) : n ∈ report.evaluated ↔ (f₀.graph.formula? n).isSome := by
      rw [hevaluated]
      exact ⟨fun hn => hn.2.2, fun hn => ⟨mem_affected_of_formula? (fun _ => h.placed) hn, h.placed hn, hn⟩⟩
    obtain rfl : g = f₀ := h.unchanged hreported fun n hn => (hmem n).1 hn
    exact ⟨report, hrun, hreported.changed, hreported.nodup, hmem⟩

end Again

/-- Caches and links may be out of date, but all nodes with formulas are in the tree. If all formulas are recomputed,
then doing so again, in whatever order, succeeds and evaluates the same formulas, which are all there are. It leaves the
very same form, and counts a value as changed only if it is not equal to itself. -/
theorem recomputeAll_idempotent (h : Drivable f)
    (hplaced : ∀ n, (f.graph.formula? n).isSome → f.tree.contains n = true) (order order' : VisitOrder)
    (hrun : recomputeAllBy order f = .ok report g) :
    ∃ report', recomputeAllBy order' g = .ok report' g ∧
      report'.changed = report'.evaluated.countP (g.tree.differsAt g.tree) ∧
      report'.evaluated.Perm report.evaluated ∧ ∀ n, n ∈ report.evaluated ↔ (g.graph.formula? n).isSome := by
  obtain ⟨hcomplete, hnodup, hevaluated⟩ := h.complete hplaced hrun
  obtain ⟨report', hrun', hchanged, hnodup', hevaluated'⟩ := hcomplete.recomputeAllBy order'
  refine ⟨report', hrun', hchanged, (List.perm_ext_iff_of_nodup hnodup' hnodup).2 fun n => ?_, hevaluated⟩
  rw [hevaluated', hevaluated]

/-- Two fields have got names such that the other one of them reads the first one now. Recomputing all formulas turns the
link around, and nothing is left to be done after that. -/
theorem recomputed_twice :
    ∃ report g report', recomputeAllBy .ascending (reversed .fromScratch) = .ok report g ∧
      1 ∉ (reversed .fromScratch).graph.predecessors 2 ∧ 1 ∈ g.graph.predecessors 2 ∧
      recomputeAllBy .descending g = .ok report' g ∧ report'.evaluated.Perm report.evaluated := by
  have hdrivable : Drivable (reversed .fromScratch) := (Drivable.ofSettings _).runAll _
  have hplaced : (reversed .fromScratch).graph.formulaNodes.all (reversed .fromScratch).tree.contains = true := by cbv
  have hsucceeds : succeeds (recomputeAllBy .ascending (reversed .fromScratch)) = true := by cbv
  have hbefore : ((reversed .fromScratch).graph.predecessors 2).contains 1 = false := by cbv
  have hafter : ((after (recomputeAllBy .ascending) (reversed .fromScratch)).graph.predecessors 2).contains 1 = true := by
    cbv
  obtain ⟨report, g, hrun⟩ := exists_ok_of_succeeds hsucceeds
  obtain ⟨report', hagain, -, hperm, -⟩ := recomputeAll_idempotent hdrivable
    (fun n hn => List.all_eq_true.1 hplaced n (Graph.mem_formulaNodes.2 hn)) .ascending .descending hrun
  rw [after_of_ok hrun] at hafter
  exact ⟨report, g, report', hrun, Bool.eq_false_iff.1 hbefore, hafter, hagain, hperm⟩

end LiveForm.Form
